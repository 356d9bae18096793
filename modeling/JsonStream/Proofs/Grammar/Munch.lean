import JsonStream.Proofs.Machine.Spelled
import JsonStream.Proofs.Number.Conversion

/-!
# The longest start of a word

Numbers and keywords have no closing byte. A machine reads them greedily: it goes on as long as what
it has taken is the start of some word, and only then asks whether it is a word. So the bytes alone
decide how far it goes, and what it has not taken cannot change that.

* `Munch`: the longest start of a word, which is unique.
* `Lexicon.Munched`: what comes of it, by the grammar alone.
* `Lexicon.Inside.exists_munch`: a machine takes the longest start.
* `Lexicon.Inside.step_cases`: what one byte does inside a word.
-/

namespace JsonStream

/-! ### The longest start -/

/-- The bytes are the start of a word. -/
def Starts (Word : Bytes → Prop) (bytes : Bytes) : Prop :=
  ∃ more, Word (bytes ++ more)

/-- The input divides into the longest start of a word and the rest. -/
structure Munch (Word : Bytes → Prop) (input w rest : Bytes) : Prop where
  parts : input = w ++ rest
  starts : Starts Word w
  longest : ∀ v, v <+: input → Starts Word v → v.length ≤ w.length

section
variable {Word : Bytes → Prop} {input v w rest : Bytes} {byte : UInt8}

theorem Starts.of_word (word : Word w) : Starts Word w :=
  ⟨[], by simpa using word⟩

theorem Starts.of_prefix (h : Starts Word w) (front : v <+: w) : Starts Word v := by
  obtain ⟨more, word⟩ := h
  obtain ⟨rest, rfl⟩ := front
  exact ⟨rest ++ more, by simpa using word⟩

/-- A start that the next byte does not continue is the longest. -/
theorem munch_of_stops (starts : Starts Word w)
    (stops : ∀ byte ∈ rest.head?, ¬Starts Word (w ++ [byte])) : Munch Word (w ++ rest) w rest where
  parts := rfl
  starts := starts
  longest := by
    intro v front other
    by_contra longer
    have extends' : w <+: v :=
      List.prefix_of_prefix_length_le (List.prefix_append w rest) front (by omega)
    obtain ⟨more, rfl⟩ := extends'
    cases more with
    | nil => simp at longer
    | cons byte more =>
      obtain ⟨tail, rfl⟩ := (List.prefix_append_right_inj w).1 front
      exact stops byte rfl (other.of_prefix ⟨more, by simp⟩)

/-- The next byte does not continue the longest start. -/
theorem Munch.stops (h : Munch Word input w (byte :: rest)) : ¬Starts Word (w ++ [byte]) := by
  intro longer
  have bound := h.longest (w ++ [byte]) ⟨rest, by simp [h.parts]⟩ longer
  rw [List.length_append, List.length_singleton] at bound
  omega

/-- There is only one longest start. -/
theorem Munch.unique {w' rest' : Bytes} (h : Munch Word input w rest)
    (h' : Munch Word input w' rest') : w = w' ∧ rest = rest' := by
  have first := h'.longest w ⟨rest, h.parts.symm⟩ h.starts
  have second := h.longest w' ⟨rest', h'.parts.symm⟩ h'.starts
  exact List.append_inj (h.parts.symm.trans h'.parts) (by omega)

end

/-- The bytes that run on into a number or a keyword: letters, digits, the other bytes of which
numbers are made, the underscore and everything outside ASCII. -/
def RunsOn (byte : UInt8) : Prop :=
  (0x41 ≤ byte.toNat ∧ byte.toNat ≤ 0x5a) ∨ (0x61 ≤ byte.toNat ∧ byte.toNat ≤ 0x7a) ∨
    (0x30 ≤ byte.toNat ∧ byte.toNat ≤ 0x39) ∨ byte ∈ [0x2e, 0x2b, 0x2d, 0x5f] ∨
      0x80 ≤ byte.toNat

theorem runsOn_iff {byte : UInt8} : RunsOn byte ↔ ¬Byte.endsScalar byte = true := by
  simp only [RunsOn, Byte.endsScalar, Byte.isDigit, Byte.isLetter, List.mem_cons, List.not_mem_nil,
    or_false, Bool.not_eq_true', Bool.not_eq_false, Bool.or_eq_true, Bool.and_eq_true,
    decide_eq_true_eq, beq_iff_eq, UInt8.le_iff_toNat_le, ← UInt8.toNat_inj, UInt8.reduceToNat,
    Byte.zero, Byte.nine, Byte.lowerA, Byte.lowerZ, Byte.upperA, Byte.upperZ, Byte.point, Byte.plus,
    Byte.minus, Byte.underscore]
  omega

/-! ### Words -/

/-- The words that a first byte may announce. -/
inductive Lexicon where
  | number
  | keyword (k : Keyword)

/-- What bytes come to that start with the first byte of a word, with those of them that are
taken. -/
inductive WordOutcome where
  | word (taken : Bytes)
  | refused (code : ErrorCode) (taken : Bytes)

/-- The bytes that are taken. -/
def WordOutcome.taken : WordOutcome → Bytes
  | .word taken => taken
  | .refused _ taken => taken

namespace Lexicon

/-- The words. -/
def Word : Lexicon → Bytes → Prop
  | .number => NumberText
  | .keyword k => (· = k.spelling)

@[simp] theorem word_keyword_iff {k : Keyword} {w : Bytes} :
    (keyword k).Word w ↔ w = k.spelling := Iff.rfl

/-- The first bytes of the words. -/
def Head : Lexicon → UInt8 → Prop
  | .number, byte => byte = Byte.minus ∨ Byte.isDigit byte = true
  | .keyword k, byte => byte = k.head

/-- The error for a byte that does not go on with a start that is no word. -/
def missing : Lexicon → ErrorCode
  | .number => .expectedDigit
  | .keyword _ => .unexpectedCharacter

/-- What a word is reported as: the conversion of a literal or, if there is none, that the literal
is out of range; the value of a keyword. -/
inductive Reports (options : ReaderOptions) : Lexicon → Bytes → Except ErrorCode Token → Prop where
  | number {literal : String} {token : Token} (converts : options.Converts literal token) :
      Reports options .number (Utf8.bytes literal) (.ok token)
  | outOfRange {w : Bytes} (range : options.OutOfRange w) :
      Reports options .number w (.error .numericRange)
  | keyword (k : Keyword) : Reports options (.keyword k) k.spelling (.ok (.ofKeyword k))

/-- What comes of the longest start `w`, `rest` being what follows it. -/
inductive Ends (lexicon : Lexicon) (w : Bytes) : Bytes → WordOutcome → Prop where
  | whole {rest : Bytes} (word : lexicon.Word w) (delimits : ∀ byte ∈ rest.head?, ¬RunsOn byte) :
      Ends lexicon w rest (.word w)
  | runsOn {byte : UInt8} {rest : Bytes} (word : lexicon.Word w) (more : RunsOn byte) :
      Ends lexicon w (byte :: rest) (.refused .unexpectedCharacter w)
  | missing {byte : UInt8} {rest : Bytes} (other : ¬lexicon.Word w) :
      Ends lexicon w (byte :: rest) (.refused lexicon.missing w)
  | unended (other : ¬lexicon.Word w) : Ends lexicon w [] (.refused .unexpectedEnd w)

/-- What comes of an input. -/
def Munched (lexicon : Lexicon) (input : Bytes) (result : WordOutcome) : Prop :=
  ∃ w rest, Munch lexicon.Word input w rest ∧ lexicon.Ends w rest result

/-- Every word is reported as something. -/
theorem exists_reports (lexicon : Lexicon) (options : ReaderOptions) {w : Bytes}
    (word : lexicon.Word w) : ∃ answer, lexicon.Reports options w answer := by
  cases lexicon with
  | number =>
    have number : NumberText w := word
    obtain ⟨literal, rfl⟩ := number.exists_text
    rcases options.exists_converts_or_outOfRange number with ⟨token, converts⟩ | range
    · exact ⟨_, .number converts⟩
    · exact ⟨_, .outOfRange range⟩
  | keyword k =>
    rw [word_keyword_iff] at word
    subst word
    exact ⟨_, .keyword k⟩

theorem Ends.taken_eq {lexicon : Lexicon} {w rest : Bytes} {result : WordOutcome}
    (h : lexicon.Ends w rest result) : result.taken = w := by
  cases h <;> rfl

theorem exists_ends (lexicon : Lexicon) (w rest : Bytes) : ∃ result, lexicon.Ends w rest result := by
  by_cases word : lexicon.Word w
  · cases rest with
    | nil => exact ⟨_, .whole word nofun⟩
    | cons byte rest =>
      by_cases more : RunsOn byte
      · exact ⟨_, .runsOn word more⟩
      · exact ⟨_, .whole word (by simpa using more)⟩
  · cases rest with
    | nil => exact ⟨_, .unended word⟩
    | cons byte rest => exact ⟨_, .missing word⟩

theorem Ends.unique {lexicon : Lexicon} {w rest : Bytes} {first second : WordOutcome}
    (h : lexicon.Ends w rest first) (h' : lexicon.Ends w rest second) : first = second := by
  cases h with
  | whole word delimits =>
    cases h' with
    | whole => rfl
    | runsOn _ more => exact absurd more (delimits _ rfl)
    | missing other | unended other => exact absurd word other
  | runsOn word more =>
    cases h' with
    | whole _ delimits => exact absurd more (delimits _ rfl)
    | runsOn => rfl
    | missing other => exact absurd word other
  | missing other =>
    cases h' with
    | whole word | runsOn word => exact absurd word other
    | missing => rfl
  | unended other =>
    cases h' with
    | whole word => exact absurd word other
    | unended => rfl

/-- **An input comes to one outcome only.** -/
theorem Munched.unique {lexicon : Lexicon} {input : Bytes} {first second : WordOutcome}
    (h : lexicon.Munched input first) (h' : lexicon.Munched input second) : first = second := by
  obtain ⟨w, rest, munch, ends⟩ := h
  obtain ⟨w', rest', munch', ends'⟩ := h'
  obtain ⟨rfl, rfl⟩ := munch.unique munch'
  exact ends.unique ends'

end Lexicon

/-! ### Numbers in progress -/

namespace Number.Phase

variable {phase : Phase} {w : Bytes} {byte : UInt8}

/-- What leads the automaton of numbers to a phase is the start of a literal. -/
theorem Spelled.starts (h : phase.Spelled w) : Starts NumberText w := by
  rcases phase.isComplete_or_next? with complete | ⟨last, next, complete⟩
  · exact .of_word (h.numberText complete)
  · exact ⟨[Byte.zero], (h.next next).numberText complete⟩

/-- The automaton goes on as long as a literal can. -/
theorem Spelled.exists_next (h : phase.Spelled w) (starts : Starts NumberText (w ++ [byte])) :
    ∃ next, phase.next? byte = some next := by
  obtain ⟨more, number⟩ := starts
  obtain ⟨head, tail, begun, rfl, start, run⟩ := h
  rw [List.append_assoc, List.cons_append] at number
  obtain ⟨begun', start', final, run', -⟩ := accepts_iff.2 number
  cases start.symm.trans start'
  rw [run?_append, run, Option.bind_some, List.singleton_append, run?_cons,
    Option.bind_eq_some_iff] at run'
  obtain ⟨next, step, -⟩ := run'
  exact ⟨next, step⟩

/-- It stops where no literal goes on. -/
theorem Spelled.next?_eq_none (h : phase.Spelled w) (stops : ¬Starts NumberText (w ++ [byte])) :
    phase.next? byte = none := by
  cases step : phase.next? byte with
  | none => rfl
  | some next => exact absurd (h.next step).starts stops

end Number.Phase

namespace Lexicon

/-! ### Machines inside a word -/

/-- The machine has taken the bytes `w` of a word, starting from `m`. -/
inductive Inside (m : Machine) : Lexicon → Bytes → Machine → Prop where
  | number {phase : Number.Phase} {w : Bytes} (spelled : phase.Spelled w) :
      Inside m .number w (m.inNumber phase w)
  | keyword {k : Keyword} {w missing : Bytes} (spelled : k.spelling = w ++ missing) :
      Inside m (.keyword k) w (m.goOn (.keyword k missing))

namespace Inside

variable {m x : Machine} {lexicon : Lexicon} {w rest : Bytes} {byte : UInt8}

theorem starts (h : Inside m lexicon w x) : Starts lexicon.Word w := by
  cases h with
  | number spelled => exact spelled.starts
  | keyword spelled => exact ⟨_, spelled.symm⟩

/-- A byte with which some word goes on is taken. -/
theorem exists_step (h : Inside m lexicon w x) (starts : Starts lexicon.Word (w ++ [byte])) :
    ∃ next, x.step byte = .advance next ∧ Inside m lexicon (w ++ [byte]) next := by
  cases h with
  | number spelled =>
    obtain ⟨next, step⟩ := spelled.exists_next starts
    exact ⟨_, Machine.step_inNumber_next w step, .number (spelled.next step)⟩
  | @keyword k w missing spelled =>
    obtain ⟨more, same⟩ := starts
    have same : w ++ [byte] ++ more = k.spelling := same
    rw [spelled, List.append_assoc, List.append_cancel_left_eq] at same
    obtain rfl : missing = byte :: more := same.symm
    refine ⟨m.goOn (.keyword k more), ?_, .keyword (by simpa using spelled)⟩
    rw [Machine.step_keyword_cons, if_pos rfl]

/-- A keyword that is spelled out misses nothing. -/
theorem missing_eq_nil {k : Keyword} {missing : Bytes} (spelled : k.spelling = w ++ missing)
    (word : Lexicon.Word (.keyword k) w) : missing = [] := by
  rw [word_keyword_iff] at word
  simpa [word] using spelled

/-- The conversion of a literal is what the number ends with. -/
theorem endNumber_of_reports {answer : Except ErrorCode Token} (number : NumberText w)
    (reports : Lexicon.number.Reports m.options w answer) :
    m.endNumber (Number.marked w) w = answer.map (·, m.endScalar) := by
  cases reports with
  | number converts =>
    rw [Machine.endNumber_of_text converts.ofLiteral_eq]
    rfl
  | outOfRange range =>
    obtain ⟨literal, rfl⟩ := number.exists_text
    rw [Machine.endNumber, Utf8.text?_bytes]
    dsimp only
    rw [Machine.ofLiteral_marked, range.ofLiteral_eq]
    rfl

/-- A byte that goes on with no word is refused after a start that is none. -/
theorem step_missing (h : Inside m lexicon w x) (stops : ¬Starts lexicon.Word (w ++ [byte]))
    (other : ¬lexicon.Word w) : x.step byte = .fail lexicon.missing := by
  cases h with
  | @number phase w spelled =>
    have next := spelled.next?_eq_none stops
    have incomplete : phase.isComplete = false :=
      Bool.eq_false_iff.2 fun complete => other (spelled.numberText complete)
    rw [Machine.step_inNumber_end m w next, incomplete]
    rfl
  | @keyword k w missing spelled =>
    cases missing with
    | nil => exact absurd (by simp [spelled]) other
    | cons expected missing =>
      have differs : byte ≠ expected := by
        rintro rfl
        exact stops ⟨missing, by simp [spelled]⟩
      rw [Machine.step_keyword_cons, if_neg differs]
      rfl

/-- A byte that runs on is refused after a word that it does not go on with. -/
theorem step_runsOn (h : Inside m lexicon w x) (stops : ¬Starts lexicon.Word (w ++ [byte]))
    (word : lexicon.Word w) (more : RunsOn byte) : x.step byte = .fail .unexpectedCharacter := by
  have runs := runsOn_iff.1 more
  cases h with
  | @number phase w spelled =>
    have next := spelled.next?_eq_none stops
    rw [Machine.step_inNumber_end m w next, spelled.isComplete_iff.2 word]
    simp [runs]
  | @keyword k w missing spelled =>
    obtain rfl := missing_eq_nil spelled word
    rw [Machine.step_keyword_nil, if_neg runs]

/-- A word ends before a byte that does not run on. -/
theorem step_ends {answer : Except ErrorCode Token} (h : Inside m lexicon w x)
    (word : lexicon.Word w) (ends : ¬RunsOn byte) (reports : lexicon.Reports m.options w answer) :
    x.step byte =
      match answer with
      | .ok token => .emitBefore token m.endScalar
      | .error code => .fail code := by
  have delimits : Byte.endsScalar byte = true := by simpa [runsOn_iff] using ends
  cases h with
  | @number phase w spelled =>
    have next : phase.next? byte = none := Number.Phase.next?_of_endsScalar delimits
    rw [Machine.step_inNumber_end m w next, spelled.isComplete_iff.2 word, if_pos delimits,
      endNumber_of_reports word reports]
    cases answer <;> rfl
  | @keyword k w missing spelled =>
    obtain rfl := missing_eq_nil spelled word
    cases reports
    rw [Machine.step_keyword_nil, if_pos delimits]

/-- **What one byte does inside a word**: it is taken and the word goes on, the word ends before it,
or it is refused. -/
theorem step_cases (h : Inside m lexicon w x) (byte : UInt8) :
    (∃ next, x.step byte = .advance next ∧ Inside m lexicon (w ++ [byte]) next) ∨
      (∃ token, lexicon.Word w ∧ lexicon.Reports m.options w (.ok token) ∧
        x.step byte = .emitBefore token m.endScalar) ∨
      ∃ code, x.step byte = .fail code := by
  by_cases starts : Starts lexicon.Word (w ++ [byte])
  · exact .inl (h.exists_step starts)
  by_cases word : lexicon.Word w
  · by_cases more : RunsOn byte
    · exact .inr (.inr ⟨_, h.step_runsOn starts word more⟩)
    · obtain ⟨answer, reports⟩ := lexicon.exists_reports m.options word
      have step := h.step_ends word more reports
      cases answer with
      | ok token => exact .inr (.inl ⟨token, word, reports, step⟩)
      | error code => exact .inr (.inr ⟨code, step⟩)
  · exact .inr (.inr ⟨_, h.step_missing starts word⟩)

/-- A word ends where the input does. -/
theorem finish_ends {answer : Except ErrorCode Token} (h : Inside m lexicon w x)
    (word : lexicon.Word w) (reports : lexicon.Reports m.options w answer) (p : Position) :
    x.finish p =
      match answer with
      | .ok token => (m.endScalar.documentEnd p).report token p
      | .error code => x.refuse p code := by
  cases h with
  | @number phase w spelled =>
    have complete : phase.isComplete = true := spelled.isComplete_iff.2 word
    rw [Machine.finish_inNumber, if_pos complete, endNumber_of_reports word reports]
    cases answer <;> rfl
  | @keyword k w missing spelled =>
    obtain rfl := missing_eq_nil spelled word
    cases reports
    rfl

/-- A start that is no word is refused where the input ends. -/
theorem finish_unended (h : Inside m lexicon w x) (other : ¬lexicon.Word w) (p : Position) :
    x.finish p = x.refuse p .unexpectedEnd := by
  cases h with
  | @number phase w spelled =>
    have incomplete : ¬phase.isComplete = true := fun complete => other (spelled.numberText complete)
    exact if_neg incomplete
  | @keyword k w missing spelled =>
    cases missing with
    | nil => exact absurd (by simp [spelled]) other
    | cons => rfl

/-- **A machine takes the longest start of a word**, whatever follows it. -/
theorem exists_munch (h : Inside m lexicon w x) (input : Bytes) :
    ∃ more rest last, input = more ++ rest ∧ x.Absorbs more last ∧
      Inside m lexicon (w ++ more) last ∧ Munch lexicon.Word (w ++ input) (w ++ more) rest := by
  induction input generalizing w x with
  | nil =>
    have munch : Munch lexicon.Word (w ++ []) w [] := munch_of_stops h.starts (by simp)
    refine ⟨[], [], x, rfl, .nil x, by simpa using h, ?_⟩
    simpa using munch
  | cons byte input ih =>
    by_cases starts : Starts lexicon.Word (w ++ [byte])
    · obtain ⟨next, step, inside⟩ := h.exists_step starts
      obtain ⟨more, rest, last, rfl, absorbs, inside, munch⟩ := ih inside
      refine ⟨byte :: more, rest, last, rfl, .cons step absorbs, by simpa using inside, ?_⟩
      simpa using munch
    · refine ⟨[], byte :: input, x, rfl, .nil x, by simpa using h, ?_⟩
      simpa using munch_of_stops h.starts (by simpa using starts)

end Inside

/-- Every input comes to an outcome. -/
theorem exists_munched {lexicon : Lexicon} {m x : Machine} {byte : UInt8}
    (begun : Inside m lexicon [byte] x) (input : Bytes) :
    ∃ result, lexicon.Munched (byte :: input) result := by
  obtain ⟨more, rest, last, -, -, -, munch⟩ := begun.exists_munch input
  obtain ⟨result, ends⟩ := lexicon.exists_ends ([byte] ++ more) rest
  exact ⟨result, _, rest, munch, ends⟩

end Lexicon

end JsonStream
