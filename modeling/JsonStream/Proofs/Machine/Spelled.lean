import JsonStream.Proofs.Grammar.Numerals

/-!
# Reported numbers can be written

The bytes of a number in progress have led the automaton of numbers to its phase. A number is
reported only in a complete phase, so its bytes are a literal, and what the options make of a
literal is a number that a writer takes. All of this holds on any input, whether it is accepted in
the end or not.

* `Machine.step_writable`: one byte.
* `Machine.read_writable`, `Machine.finish_writable`: a run of bytes, and the end of input.
-/

namespace JsonStream

/-! ### Literals in progress -/

/-- The bytes lead the automaton of numbers to a phase. -/
def Number.Phase.Spelled (phase : Phase) (literal : Bytes) : Prop :=
  ∃ byte rest first, literal = byte :: rest ∧ start? byte = some first ∧
    first.run? rest = some phase

namespace Number.Phase

variable {phase : Phase} {literal : Bytes} {byte : UInt8}

theorem run?_append (phase : Phase) (first second : Bytes) :
    phase.run? (first ++ second) = (phase.run? first).bind fun last => last.run? second := by
  induction first generalizing phase with
  | nil => simp
  | cons byte first ih =>
    rw [List.cons_append, run?_cons, run?_cons, Option.bind_assoc]
    exact Option.bind_congr fun next _ => ih next

/-- One more digit completes a number, unless it is complete. -/
theorem isComplete_or_next? (phase : Phase) :
    phase.isComplete = true ∨
      ∃ last, phase.next? Byte.zero = some last ∧ last.isComplete = true := by
  cases phase with
  | sign => exact .inr ⟨.zero, rfl, rfl⟩
  | point => exact .inr ⟨.fraction, rfl, rfl⟩
  | exponentMark | exponentSign => exact .inr ⟨.exponent, rfl, rfl⟩
  | zero | integer | fraction | exponent => exact .inl rfl

theorem spelled_start (h : start? byte = some phase) : phase.Spelled [byte] :=
  ⟨byte, [], phase, rfl, h, rfl⟩

theorem Spelled.next {after : Phase} (h : phase.Spelled literal)
    (step : phase.next? byte = some after) : after.Spelled (literal ++ [byte]) := by
  obtain ⟨first, rest, begun, rfl, start, run⟩ := h
  refine ⟨first, rest ++ [byte], begun, rfl, start, ?_⟩
  rw [run?_append, run, Option.bind_some, run?_cons, step]
  rfl

/-- Where the automaton may stop, the bytes are a literal. -/
theorem Spelled.numberText (h : phase.Spelled literal) (complete : phase.isComplete = true) :
    NumberText literal := by
  obtain ⟨byte, rest, first, rfl, start, run⟩ := h
  exact accepts_iff.1 ⟨first, start, phase, run, complete⟩

/-- The phase after the bytes of a literal is one where the automaton may stop. -/
theorem Spelled.isComplete_iff (h : phase.Spelled literal) :
    phase.isComplete = true ↔ NumberText literal := by
  refine ⟨h.numberText, fun number => ?_⟩
  obtain ⟨byte, rest, first, rfl, start, run⟩ := h
  obtain ⟨first', start', last, run', complete⟩ := accepts_iff.2 number
  rw [start] at start'
  cases start'
  rw [run] at run'
  cases run'
  exact complete

end Number.Phase

/-! ### Numbers that a writer takes -/

/-- If the token is a number, a writer takes it. -/
def Token.Writable (token : Token) : Prop :=
  ∀ n : Numeral, n.token = token → ∀ asciiOnly, ∃ bytes, n.scalar.text asciiOnly = .ok bytes

namespace Token

/-- Whether a token is a number. -/
def isNumber : Token → Bool
  | .number _ | .integer _ => true
  | _ => false

theorem writable_of_isNumber {token : Token} (h : token.isNumber = false) : token.Writable := by
  intro n same
  cases n <;> cases same <;> contradiction

theorem isNumber_ofKeyword (word : Keyword) : (ofKeyword word).isNumber = false := by
  cases word <;> rfl

theorem writable_ofKeyword (word : Keyword) : (ofKeyword word).Writable :=
  writable_of_isNumber (isNumber_ofKeyword word)

theorem writable_token {n : Numeral}
    (h : ∀ asciiOnly, ∃ bytes, n.scalar.text asciiOnly = .ok bytes) : n.token.Writable := by
  intro m same
  rw [Numeral.token_injective same]
  exact h

/-- **What the options make of a literal can be written.** -/
theorem writable_of_ofLiteral {options : ReaderOptions} {fractional : Bool} {text : String}
    {token : Token} (number : NumberText (Utf8.bytes text))
    (h : ofLiteral options fractional text = .ok token) : token.Writable := by
  unfold ofLiteral at h
  dsimp only at h
  split at h
  · cases h
    exact writable_token (n := .integer _) fun _ => ⟨_, rfl⟩
  · split at h
    · split at h
      · split_ifs at h
        cases h
        exact writable_token (n := .other (.float _)) fun _ => ⟨_, rfl⟩
      · contradiction
    · split at h
      · rename_i read
        cases h
        have fits := Number.Components.fractionFits_of_read (Number.Components.read_of_ofBytes read)
        exact writable_token (n := .other (.components _)) fun _ => ⟨_, if_pos fits⟩
      · contradiction
      · contradiction
    · cases h
      have literal := Number.isLiteral_iff.2 number
      exact writable_token (n := .other (.text text)) fun _ => ⟨_, if_pos literal⟩

end Token

/-! ### One byte -/

namespace Machine

/-- The bytes of a number in progress have led to its phase. -/
def Spelled (m : Machine) : Prop :=
  match m.unfinished with
  | .number phase _ literal => phase.Spelled literal
  | .nothing | .keyword .. | .text .. | .escape .. => True

theorem spelled_of_nothing {m : Machine} (h : m.unfinished = .nothing) : m.Spelled := by
  rw [Spelled, h]
  trivial

theorem spelled_endScalar (m : Machine) : m.endScalar.Spelled :=
  spelled_of_nothing m.unfinished_endScalar

end Machine

/-- What a step reports can be written. -/
def Step.Writable : Step Machine → Prop
  | .advance next => next.Spelled
  | .emit token next | .emitBefore token next => token.Writable ∧ next.Spelled
  | .fail _ => True

namespace Machine

variable {m : Machine}

theorem unfinished_valueStarted (m : Machine) : m.valueStarted.unfinished = m.unfinished := by
  unfold valueStarted; split <;> rfl

theorem spelled_openContainer (h : m.unfinished = .nothing) (frame : Frame) :
    (m.openContainer frame).Spelled :=
  spelled_of_nothing (m.unfinished_valueStarted.trans h)

theorem spelled_closeContainer (h : m.unfinished = .nothing) (outer : List Frame) :
    (m.closeContainer outer).Spelled :=
  spelled_of_nothing ((unfinished_valueCompleted _).trans h)

theorem stepValue_writable (h : m.unfinished = .nothing) (byte : UInt8) :
    (m.stepValue byte).Writable := by
  rw [stepValue]
  split_ifs
  · exact ⟨Token.writable_of_isNumber rfl, spelled_openContainer h _⟩
  · exact ⟨Token.writable_of_isNumber rfl, spelled_openContainer h _⟩
  · trivial
  · cases start : Number.Phase.start? byte with
    | some phase => exact Number.Phase.spelled_start start
    | none => cases Keyword.ofHead? byte <;> trivial

theorem stepStructure_writable (h : m.unfinished = .nothing) (byte : UInt8) :
    (m.stepStructure byte).Writable := by
  have stay : ∀ frames, { m with frames }.Spelled := fun _ => spelled_of_nothing h
  simp only [stepStructure, stepArray, stepObject]
  repeat' split
  all_goals first
    | exact stepValue_writable h byte
    | exact ⟨Token.writable_of_isNumber rfl, spelled_closeContainer h _⟩
    | exact stay _
    | trivial

/-- A number that ends is a literal. -/
theorem endNumber_writable {phase : Number.Phase} {fractional : Bool} {literal : Bytes}
    {token : Token} {next : Machine} (spelled : phase.Spelled literal)
    (complete : phase.isComplete = true)
    (h : m.endNumber fractional literal = .ok (token, next)) : token.Writable ∧ next.Spelled := by
  obtain ⟨rfl, text, decoded, read⟩ := endNumber_eq_ok h
  have number := spelled.numberText complete
  rw [Utf8.text?_eq_some_iff.1 decoded] at number
  exact ⟨Token.writable_of_ofLiteral number read, m.spelled_endScalar⟩

theorem stepNumber_writable {phase : Number.Phase} {literal : Bytes}
    (spelled : phase.Spelled literal) (fractional : Bool) (byte : UInt8) :
    (m.stepNumber phase fractional literal byte).Writable := by
  rw [stepNumber]
  cases step : phase.next? byte with
  | some next => exact spelled.next step
  | none =>
    dsimp only
    split_ifs with incomplete
    · trivial
    · have complete : phase.isComplete = true := by simpa using incomplete
      cases ended : m.endNumber fractional literal with
      | error code => trivial
      | ok done => exact endNumber_writable spelled complete ended
    · trivial

theorem stepKeyword_writable (word : Keyword) (missing : Bytes) (byte : UInt8) :
    (m.stepKeyword word missing byte).Writable := by
  cases missing with
  | cons expected missing =>
    rw [stepKeyword]
    split_ifs <;> trivial
  | nil =>
    rw [stepKeyword]
    split_ifs
    · exact ⟨Token.writable_ofKeyword word, m.spelled_endScalar⟩
    · trivial

theorem stepText_writable (utf8 : Utf8.State) (content : Bytes) (byte : UInt8) :
    (m.stepText utf8 content byte).Writable := by
  rw [stepText, stepUtf8]
  split_ifs
  · split <;> trivial
  · rw [endString]
    cases Utf8.text? content with
    | none => trivial
    | some text =>
      refine ⟨Token.writable_of_isNumber ?_, m.spelled_endScalar⟩
      split <;> rfl
  · trivial
  · trivial
  · trivial
  · repeat' split
    all_goals trivial

theorem stepEscape_writable (state : EscapeState) (content : Bytes) (byte : UInt8) :
    (m.stepEscape state content byte).Writable := by
  simp only [stepEscape, pushEscaped]
  repeat' split
  all_goals trivial

/-- **What a step reports can be written**, and what it leaves in progress is spelled. -/
theorem step_writable (h : m.Spelled) (byte : UInt8) : (m.step byte).Writable := by
  rw [Spelled] at h
  rw [step]
  cases unfinished : m.unfinished with
  | nothing => exact stepStructure_writable unfinished byte
  | keyword word missing => exact m.stepKeyword_writable word missing byte
  | number phase fractional literal =>
    rw [unfinished] at h
    exact stepNumber_writable h fractional byte
  | text utf8 content => exact m.stepText_writable utf8 content byte
  | escape state content => exact m.stepEscape_writable state content byte

end Machine

/-! ### Runs of bytes -/

/-- All that is reported can be written, and what is in progress in the end is spelled. -/
structure Reading.Writable (x : Reading) : Prop where
  tokens : ∀ reported ∈ x.tokens, reported.1.Writable
  machine : x.machine.Spelled

theorem Reading.Writable.report {x : Reading} {token : Token} (h : x.Writable)
    (first : token.Writable) (p : Position) : (x.report token p).Writable :=
  ⟨List.forall_mem_cons.2 ⟨first, h.tokens⟩, h.machine⟩

namespace Machine

theorem refuse_writable (m : Machine) (p : Position) (code : ErrorCode) :
    (m.refuse p code).Writable :=
  ⟨List.forall_mem_nil _, trivial⟩

/-- **What is read of any bytes can be written.** -/
theorem read_writable {m : Machine} (h : m.Spelled) (p : Position) (input : Bytes) :
    (m.read p input).Writable := by
  induction m, p, input using read.induct with
  | case1 m p =>
    rw [read_nil]
    exact ⟨List.forall_mem_nil _, h⟩
  | case2 m p byte rest next step ih =>
    have writable := step_writable h byte
    rw [step] at writable
    rw [read_advance step]
    exact ih writable
  | case3 m p byte rest token next step ih =>
    have writable := step_writable h byte
    rw [step] at writable
    rw [read_emit step]
    exact (ih writable.2).report writable.1 _
  | case4 m p byte rest token next step ih =>
    have writable := step_writable h byte
    rw [step] at writable
    rw [read_emitBefore step]
    exact (ih writable.2).report writable.1 _
  | case5 m p byte rest code step =>
    rw [read_fail step]
    exact m.refuse_writable p code

theorem documentEnd_writable {m : Machine} (h : m.Spelled) (p : Position) :
    (m.documentEnd p).Writable := by
  rw [documentEnd]
  split_ifs
  · exact ⟨List.forall_mem_singleton.2 (Token.writable_of_isNumber rfl), h⟩
  · exact m.refuse_writable p _

/-- What the end of input completes can be written. -/
theorem finish_writable {m : Machine} (h : m.Spelled) (p : Position) : (m.finish p).Writable := by
  rw [Spelled] at h
  rw [finish]
  cases unfinished : m.unfinished with
  | nothing => exact documentEnd_writable (spelled_of_nothing unfinished) p
  | keyword word missing =>
    cases missing with
    | nil =>
      exact (documentEnd_writable m.spelled_endScalar p).report (Token.writable_ofKeyword word) p
    | cons => exact m.refuse_writable p _
  | number phase fractional literal =>
    rw [unfinished] at h
    dsimp only
    split_ifs with complete
    · cases ended : m.endNumber fractional literal with
      | error code => exact m.refuse_writable p code
      | ok done =>
        obtain ⟨writable, spelled⟩ := endNumber_writable h complete ended
        exact (documentEnd_writable spelled p).report writable p
    · exact m.refuse_writable p _
  | text | escape => exact m.refuse_writable p _

end Machine

end JsonStream
