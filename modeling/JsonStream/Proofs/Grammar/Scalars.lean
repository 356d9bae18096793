import JsonStream.Proofs.Grammar
import JsonStream.Proofs.Machine.Read
import JsonStream.Proofs.Number.Phase

/-!
# Keywords, numbers and white space

What a machine makes of the leaves of the grammar that stand outside strings. Each leaf comes twice:
its texts are read as it, and nothing else is. A keyword or a number ends before a byte that
delimits it, or at the end of input.

* `Machine.keyword_complete`, `Machine.keyword_sound`
* `Machine.number_complete`, `Machine.number_sound`
-/

namespace JsonStream

/-- The literals that a reader with these options reads as a number. -/
def ReaderOptions.NumeralText (options : ReaderOptions) (n : Numeral) (bytes : Bytes) : Prop :=
  NumberText bytes ∧
    ∃ text, Utf8.bytes text = bytes ∧ Token.ofLiteral options false text = .ok n.token

/-- What may follow a keyword or a number. -/
def Delimited (rest : Bytes) : Prop :=
  ∀ byte ∈ rest.head?, Byte.endsScalar byte = true

theorem delimited_nil : Delimited [] := nofun

theorem delimited_cons_iff {byte : UInt8} {rest : Bytes} :
    Delimited (byte :: rest) ↔ Byte.endsScalar byte = true := by
  rw [Delimited]
  rw [List.head?_cons]
  simp only [Option.mem_some_iff, forall_eq']

/-! ### White space -/

theorem blank_nil : Blank [] := fun _ mem => absurd mem List.not_mem_nil

theorem isWhitespace_iff {byte : UInt8} :
    Byte.isWhitespace byte = true ↔
      byte = Byte.space ∨ byte = Byte.tab ∨ byte = Byte.lineFeed ∨ byte = Byte.carriageReturn := by
  simp only [Byte.isWhitespace, Bool.or_eq_true, beq_iff_eq, or_assoc]

theorem blank_iff {bytes : Bytes} : Blank bytes ↔ ∀ byte ∈ bytes, Byte.isWhitespace byte = true := by
  rw [Blank]
  simp only [isWhitespace_iff]

theorem blank_cons_iff {byte : UInt8} {bytes : Bytes} :
    Blank (byte :: bytes) ↔ Byte.isWhitespace byte = true ∧ Blank bytes := by
  rw [blank_iff, blank_iff, List.forall_mem_cons]

theorem endsScalar_of_isWhitespace {byte : UInt8} (h : Byte.isWhitespace byte = true) :
    Byte.endsScalar byte = true := by
  rcases isWhitespace_iff.1 h with rfl | rfl | rfl | rfl <;> rfl

/-- White space delimits, and so does what delimits without it. -/
theorem delimited_append {blank rest : Bytes} (h : Blank blank) (delimited : Delimited rest) :
    Delimited (blank ++ rest) := by
  cases blank with
  | nil => exact delimited
  | cons byte blank =>
    exact delimited_cons_iff.2 (endsScalar_of_isWhitespace (blank_cons_iff.1 h).1)

/-- Every input is white space and then a rest that does not start with any. -/
theorem exists_blank (input : Bytes) :
    ∃ blank rest, input = blank ++ rest ∧ Blank blank ∧
      ∀ byte ∈ rest.head?, Byte.isWhitespace byte = false := by
  induction input with
  | nil => exact ⟨[], [], rfl, blank_nil, nofun⟩
  | cons byte input ih =>
    by_cases space : Byte.isWhitespace byte = true
    · obtain ⟨blank, rest, rfl, isBlank, stop⟩ := ih
      exact ⟨byte :: blank, rest, rfl, blank_cons_iff.2 ⟨space, isBlank⟩, stop⟩
    · refine ⟨[], byte :: input, rfl, blank_nil, ?_⟩
      intro _ found
      cases found
      exact Bool.eq_false_iff.2 space

namespace Machine

/-- White space between tokens is skipped. -/
theorem tokens?_blank {m : Machine} (nothing : m.unfinished = .nothing) {blank : Bytes}
    (h : Blank blank) (rest : Bytes) : m.tokens? (blank ++ rest) = m.tokens? rest := by
  induction blank with
  | nil => rfl
  | cons byte blank ih =>
    obtain ⟨space, isBlank⟩ := blank_cons_iff.1 h
    have step : m.step byte = .advance m := by
      rw [step]
      rw [nothing]
      exact if_pos space
    rw [List.cons_append, tokens?_advance step, ih isBlank]

/-! ### The end of a scalar -/

theorem finish_of_nothing {m : Machine} (nothing : m.unfinished = .nothing) (p : Position) :
    m.finish p = m.documentEnd p := by
  rw [finish]
  rw [nothing]

/-- A scalar that ends before any delimiter and at the end of input. -/
theorem tokens?_of_ends {m next : Machine} {token : Token} {rest : Bytes}
    (step : ∀ byte, Byte.endsScalar byte = true → m.step byte = .emitBefore token next)
    (finish : m.finish {} = (next.documentEnd {}).report token {})
    (nothing : next.unfinished = .nothing) (h : Delimited rest) :
    m.tokens? rest = (next.tokens? rest).map (token :: ·) := by
  cases rest with
  | nil =>
    rw [tokens?_nil, tokens?_nil, finish, finish_of_nothing nothing, Reading.accepted?_report]
  | cons byte rest => rw [tokens?_emitBefore (step byte (delimited_cons_iff.1 h))]

/-! ### Keywords -/

theorem step_keyword_cons (m : Machine) (word : Keyword) (expected byte : UInt8) (missing : Bytes) :
    (m.goOn (.keyword word (expected :: missing))).step byte =
      if byte = expected then .advance (m.goOn (.keyword word missing))
      else .fail .unexpectedCharacter :=
  rfl

theorem step_keyword_nil (m : Machine) (word : Keyword) (byte : UInt8) :
    (m.goOn (.keyword word [])).step byte =
      if Byte.endsScalar byte then .emitBefore (.ofKeyword word) m.endScalar
      else .fail .unexpectedCharacter :=
  rfl

/-- The missing bytes complete a keyword. -/
theorem keyword_complete (m : Machine) (word : Keyword) (missing : Bytes) {rest : Bytes}
    (h : Delimited rest) :
    (m.goOn (.keyword word missing)).tokens? (missing ++ rest) =
      (m.endScalar.tokens? rest).map (.ofKeyword word :: ·) := by
  induction missing with
  | nil =>
    have step : ∀ byte, Byte.endsScalar byte = true →
        (m.goOn (.keyword word [])).step byte = .emitBefore (.ofKeyword word) m.endScalar :=
      fun byte ends => by rw [step_keyword_nil, if_pos ends]
    exact tokens?_of_ends step rfl m.unfinished_endScalar h
  | cons byte missing ih =>
    have step := m.step_keyword_cons word byte byte missing
    rw [if_pos rfl] at step
    rw [List.cons_append, tokens?_advance step, ih]

/-- Nothing else completes it. -/
theorem keyword_sound {m : Machine} {word : Keyword} {missing input : Bytes} {tokens : List Token}
    (h : (m.goOn (.keyword word missing)).tokens? input = some tokens) :
    ∃ rest more, input = missing ++ rest ∧ Delimited rest ∧ tokens = .ofKeyword word :: more ∧
      m.endScalar.tokens? rest = some more := by
  induction missing generalizing input with
  | nil =>
    have delimited : Delimited input := by
      cases input with
      | nil => exact delimited_nil
      | cons byte rest =>
        by_cases ends : Byte.endsScalar byte = true
        · exact delimited_cons_iff.2 ends
        · have step := m.step_keyword_nil word byte
          rw [if_neg ends] at step
          rw [tokens?_fail step] at h
          contradiction
    have complete := m.keyword_complete word [] delimited
    rw [List.nil_append, h] at complete
    obtain ⟨more, read, same⟩ := Option.map_eq_some_iff.1 complete.symm
    exact ⟨input, more, rfl, delimited, same.symm, read⟩
  | cons expected missing ih =>
    cases input with
    | nil =>
      rw [tokens?_nil] at h
      contradiction
    | cons byte input =>
      have step := m.step_keyword_cons word expected byte missing
      by_cases same : byte = expected
      · rw [if_pos same] at step
        rw [tokens?_advance step] at h
        obtain ⟨rest, more, rfl, delimited, split, read⟩ := ih h
        exact ⟨rest, more, by rw [same]; rfl, delimited, split, read⟩
      · rw [if_neg same] at step
        rw [tokens?_fail step] at h
        contradiction

/-! ### Numbers -/

open Number in
theorem marked_append_singleton (literal : Bytes) (byte : UInt8) :
    marked (literal ++ [byte]) = (marked literal || Phase.isMarkByte byte) := by
  simp only [marked]
  rw [List.any_append, List.any_cons, List.any_nil, Bool.or_false]

/-- The machine inside a number whose bytes so far are `literal`. -/
def inNumber (m : Machine) (phase : Number.Phase) (literal : Bytes) : Machine :=
  m.goOn (.number phase (Number.marked literal) literal)

theorem step_inNumber_next {m : Machine} {phase next : Number.Phase} {byte : UInt8}
    (literal : Bytes) (h : phase.next? byte = some next) :
    (m.inNumber phase literal).step byte = .advance (m.inNumber next (literal ++ [byte])) := by
  show (m.inNumber phase literal).stepNumber phase _ literal byte = _
  rw [stepNumber]
  rw [h]
  dsimp only
  rw [Number.Phase.isMark_of_next? h, ← marked_append_singleton]
  rfl

/-- The phases follow the automaton. -/
theorem number_run {m : Machine} {phase final : Number.Phase} {literal bytes : Bytes}
    (h : phase.run? bytes = some final) (rest : Bytes) :
    (m.inNumber phase literal).tokens? (bytes ++ rest) =
      (m.inNumber final (literal ++ bytes)).tokens? rest := by
  induction bytes generalizing phase literal with
  | nil =>
    cases h
    rw [List.append_nil]
    rfl
  | cons byte bytes ih =>
    obtain ⟨next, step, h⟩ := Option.bind_eq_some_iff.1 h
    rw [List.cons_append, tokens?_advance (step_inNumber_next literal step), ih h,
      List.append_assoc, List.singleton_append]

/-- The token of a literal does not depend on how its marks were noticed. -/
theorem ofLiteral_marked (options : ReaderOptions) (text : String) :
    Token.ofLiteral options (Number.marked (Utf8.bytes text)) text =
      Token.ofLiteral options false text := by
  cases marked : Number.marked (Utf8.bytes text) with
  | false => rfl
  | true =>
    unfold Token.ofLiteral
    dsimp only
    rw [Number.int64?_of_marked marked]
    simp only [Bool.not_true, Bool.and_false, Bool.false_eq_true, ite_self]

theorem exists_numeral {options : ReaderOptions} {fractional : Bool} {text : String}
    {token : Token} (h : Token.ofLiteral options fractional text = .ok token) :
    ∃ n : Numeral, n.token = token := by
  unfold Token.ofLiteral at h
  dsimp only at h
  repeat' split at h
  all_goals first
    | contradiction
    | (cases h; exact ⟨.integer _, rfl⟩)
    | (cases h; exact ⟨.other _, rfl⟩)

theorem step_inNumber_end (m : Machine) {phase : Number.Phase} {byte : UInt8} (literal : Bytes)
    (h : phase.next? byte = none) :
    (m.inNumber phase literal).step byte =
      if !phase.isComplete then .fail .expectedDigit
      else if Byte.endsScalar byte then
        match m.endNumber (Number.marked literal) literal with
        | .ok (token, next) => .emitBefore token next
        | .error code => .fail code
      else .fail .unexpectedCharacter := by
  show (m.inNumber phase literal).stepNumber phase _ literal byte = _
  rw [stepNumber]
  rw [h]
  rfl

theorem finish_inNumber (m : Machine) (phase : Number.Phase) (literal : Bytes) (p : Position) :
    (m.inNumber phase literal).finish p =
      if phase.isComplete then
        match m.endNumber (Number.marked literal) literal with
        | .ok (token, next) => (next.documentEnd p).report token p
        | .error code => (m.inNumber phase literal).refuse p code
      else (m.inNumber phase literal).refuse p .unexpectedEnd := by
  rfl

theorem endNumber_of_text {m : Machine} {text : String} {token : Token}
    (h : Token.ofLiteral m.options false text = .ok token) :
    m.endNumber (Number.marked (Utf8.bytes text)) (Utf8.bytes text) = .ok (token, m.endScalar) := by
  rw [endNumber]
  rw [Utf8.text?_bytes]
  dsimp only
  rw [ofLiteral_marked, h]

/-- A complete literal ends before a delimiter. -/
theorem number_end {m : Machine} {phase : Number.Phase} {text : String} {token : Token}
    {rest : Bytes} (complete : phase.isComplete = true)
    (h : Token.ofLiteral m.options false text = .ok token) (delimited : Delimited rest) :
    (m.inNumber phase (Utf8.bytes text)).tokens? rest =
      (m.endScalar.tokens? rest).map (token :: ·) := by
  have ended := endNumber_of_text h
  have step : ∀ byte, Byte.endsScalar byte = true →
      (m.inNumber phase (Utf8.bytes text)).step byte = .emitBefore token m.endScalar := by
    intro byte ends
    rw [step_inNumber_end m _ (Number.Phase.next?_of_endsScalar ends), complete, if_pos ends, ended]
    rfl
  have finish : (m.inNumber phase (Utf8.bytes text)).finish {} =
      (m.endScalar.documentEnd {}).report token {} := by
    rw [finish_inNumber, if_pos complete, ended]
  exact tokens?_of_ends step finish m.unfinished_endScalar delimited

/-- The literals of a number are read as it. -/
theorem number_complete {m : Machine} {n : Numeral} {bytes rest : Bytes}
    (h : m.options.NumeralText n bytes) (delimited : Delimited rest) :
    ∃ byte more phase, bytes = byte :: more ∧ Number.Phase.start? byte = some phase ∧
      (m.inNumber phase [byte]).tokens? (more ++ rest) =
        (m.endScalar.tokens? rest).map (n.token :: ·) := by
  obtain ⟨⟨literal, wellFormed, same⟩, text, rfl, token⟩ := h
  cases bytes : Utf8.bytes text with
  | nil =>
    exact absurd (same.trans bytes) wellFormed.bytes_ne_nil
  | cons byte more =>
    rw [bytes] at same
    obtain ⟨phase, start, final, run, complete⟩ :=
      Number.Phase.accepts_iff.2 ⟨literal, wellFormed, same⟩
    refine ⟨byte, more, phase, rfl, start, ?_⟩
    rw [number_run run, List.singleton_append, ← bytes]
    exact number_end complete token delimited

theorem text_of_endNumber {m next : Machine} {literal : Bytes} {token : Token}
    (h : m.endNumber (Number.marked literal) literal = .ok (token, next)) :
    ∃ text, literal = Utf8.bytes text ∧ Token.ofLiteral m.options false text = .ok token := by
  obtain ⟨-, text, decoded, read⟩ := endNumber_eq_ok h
  have same := Utf8.text?_eq_some_iff.1 decoded
  rw [same, ofLiteral_marked] at read
  exact ⟨text, same, read⟩

/-- Where a number ends, its literal is complete. -/
theorem number_end_sound {m : Machine} {phase : Number.Phase} {literal input : Bytes}
    {tokens : List Token} (stop : ∀ byte ∈ input.head?, phase.next? byte = none)
    (h : (m.inNumber phase literal).tokens? input = some tokens) :
    phase.isComplete = true ∧ Delimited input ∧ ∃ text token, literal = Utf8.bytes text ∧
      Token.ofLiteral m.options false text = .ok token := by
  cases input with
  | nil =>
    rw [tokens?_nil, finish_inNumber] at h
    by_cases complete : phase.isComplete = true
    · rw [if_pos complete] at h
      cases ended : m.endNumber (Number.marked literal) literal with
      | error code =>
        rw [ended] at h
        contradiction
      | ok done =>
        obtain ⟨token, next⟩ := done
        obtain ⟨text, same, read⟩ := text_of_endNumber ended
        exact ⟨complete, delimited_nil, text, token, same, read⟩
    · rw [if_neg complete] at h
      contradiction
  | cons byte input =>
    have step := step_inNumber_end m literal (stop byte rfl)
    by_cases complete : phase.isComplete = true
    · rw [complete] at step
      by_cases ends : Byte.endsScalar byte = true
      · rw [if_neg (by decide), if_pos ends] at step
        cases ended : m.endNumber (Number.marked literal) literal with
        | error code =>
          rw [ended] at step
          rw [tokens?_fail step] at h
          contradiction
        | ok done =>
          obtain ⟨token, next⟩ := done
          obtain ⟨text, same, read⟩ := text_of_endNumber ended
          exact ⟨complete, delimited_cons_iff.2 ends, text, token, same, read⟩
      · rw [if_neg (by decide), if_neg ends] at step
        rw [tokens?_fail step] at h
        contradiction
    · rw [Bool.eq_false_iff.2 complete, if_pos (by decide)] at step
      rw [tokens?_fail step] at h
      contradiction

/-- Nothing else is read as a number. -/
theorem number_sound {m : Machine} {phase : Number.Phase} {literal input : Bytes}
    {tokens : List Token} (h : (m.inNumber phase literal).tokens? input = some tokens) :
    ∃ bytes rest text token more, input = bytes ++ rest ∧ phase.Accepts bytes ∧ Delimited rest ∧
      Utf8.bytes text = literal ++ bytes ∧ Token.ofLiteral m.options false text = .ok token ∧
      tokens = token :: more ∧ m.endScalar.tokens? rest = some more := by
  induction input generalizing phase literal with
  | nil =>
    have stop : ∀ b ∈ ([] : Bytes).head?, phase.next? b = none := nofun
    obtain ⟨complete, delimited, text, token, rfl, read⟩ := number_end_sound stop h
    rw [number_end complete read delimited] at h
    obtain ⟨more, after, split⟩ := Option.map_eq_some_iff.1 h
    exact ⟨[], [], text, token, more, rfl, Number.Phase.accepts_nil_iff.2 complete, delimited,
      (List.append_nil _).symm, read, split.symm, after⟩
  | cons byte input ih =>
    cases next : phase.next? byte with
    | none =>
      have stop : ∀ b ∈ (byte :: input).head?, phase.next? b = none := by
        intro _ found
        cases found
        exact next
      obtain ⟨complete, delimited, text, token, rfl, read⟩ := number_end_sound stop h
      rw [number_end complete read delimited] at h
      obtain ⟨more, after, split⟩ := Option.map_eq_some_iff.1 h
      exact ⟨[], byte :: input, text, token, more, rfl, Number.Phase.accepts_nil_iff.2 complete,
        delimited, (List.append_nil _).symm, read, split.symm, after⟩
    | some phase' =>
      rw [tokens?_advance (step_inNumber_next literal next)] at h
      obtain ⟨bytes, rest, text, token, more, rfl, accepts, delimited, same, found⟩ := ih h
      refine ⟨byte :: bytes, rest, text, token, more, rfl, ?_, delimited, ?_, found⟩
      · exact Number.Phase.accepts_cons_iff.2 ⟨phase', next, accepts⟩
      · rw [same, List.append_assoc, List.singleton_append]

end Machine

end JsonStream
