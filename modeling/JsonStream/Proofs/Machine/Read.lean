import JsonStream.Proofs.Machine

/-!
# Reading runs of bytes

`Machine.read` reads a run of bytes from a place in the input: the tokens with the place right after
each, and the machine and the place in the end. It stops at the first refused byte. Reading two runs
in turn is reading them as one (`Machine.read_append`), so only the bytes matter and not how they
are cut.

The end of input completes the scalar in progress and the document (`Machine.finish`).
`Machine.tokens?` gives the tokens of all that is left of a document, if it is accepted; its
equations say what one byte contributes.

Most bytes are taken and nothing is reported. `Machine.Absorbs` says so of a run of bytes.
-/

namespace JsonStream

/-- What reading a run of bytes gives. -/
structure Reading where
  /-- The tokens, each with the place right after it. -/
  tokens : List (Token × Position) := []
  machine : Machine
  position : Position
  failure : Option ErrorCode := none

namespace Reading

/-- The same with one more token in front. -/
def report (x : Reading) (token : Token) (position : Position) : Reading :=
  { x with tokens := (token, position) :: x.tokens }

/-- Reads on from where reading stopped, unless it failed. -/
def andThen (x : Reading) (next : Machine → Position → Reading) : Reading :=
  match x.failure with
  | some _ => x
  | none =>
    let more := next x.machine x.position
    { more with tokens := x.tokens ++ more.tokens }

theorem andThen_of_failure {x : Reading} {code : ErrorCode} (h : x.failure = some code)
    (next : Machine → Position → Reading) : x.andThen next = x := by
  rw [andThen, h]

theorem andThen_eq {x : Reading} (h : x.failure = none) (next : Machine → Position → Reading) :
    x.andThen next =
      { next x.machine x.position with
        tokens := x.tokens ++ (next x.machine x.position).tokens } := by
  rw [andThen, h]

/-- Reading on has not failed if neither part of it has. -/
theorem accepted_andThen {x : Reading} {next : Machine → Position → Reading}
    (accepted : (x.andThen next).failure = none) :
    x.failure = none ∧ (next x.machine x.position).failure = none := by
  cases h : x.failure with
  | some code =>
    rw [andThen_of_failure h, h] at accepted
    contradiction
  | none =>
    rw [andThen_eq h] at accepted
    exact ⟨rfl, accepted⟩

theorem report_andThen (x : Reading) (token : Token) (position : Position)
    (next : Machine → Position → Reading) :
    (x.report token position).andThen next = (x.andThen next).report token position := by
  cases h : x.failure with
  | some code => rw [andThen_of_failure h, andThen_of_failure (x := x.report ..) h]
  | none =>
    rw [andThen_eq h, andThen_eq (x := x.report ..) h]
    rfl

theorem andThen_andThen (x : Reading) (first second : Machine → Position → Reading) :
    (x.andThen first).andThen second = x.andThen fun m p => (first m p).andThen second := by
  cases h : x.failure with
  | some code => rw [andThen_of_failure h, andThen_of_failure h, andThen_of_failure h]
  | none =>
    rw [andThen_eq h, andThen_eq h]
    cases h' : (first x.machine x.position).failure with
    | some code => rw [andThen_of_failure h', andThen_of_failure (by exact h')]
    | none =>
      rw [andThen_eq h', andThen_eq (by exact h')]
      simp only [List.append_assoc]

end Reading

namespace Machine

/-- How much of a token is in progress: nothing between tokens, one inside a scalar. -/
def inFlight (m : Machine) : Nat :=
  if m.unfinished = .nothing then 0 else 1

theorem inFlight_le_one (m : Machine) : m.inFlight ≤ 1 := by
  unfold inFlight; split <;> omega

@[simp] theorem unfinished_valueCompleted (m : Machine) :
    m.valueCompleted.unfinished = m.unfinished := by
  unfold valueCompleted; split <;> rfl

@[simp] theorem unfinished_endScalar (m : Machine) : m.endScalar.unfinished = .nothing :=
  unfinished_valueCompleted _

theorem endNumber_eq_ok {m next : Machine} {fractional : Bool} {literal : Bytes} {token : Token}
    (h : m.endNumber fractional literal = .ok (token, next)) :
    next = m.endScalar ∧ ∃ text, Utf8.text? literal = some text ∧
      Token.ofLiteral m.options fractional text = .ok token := by
  rw [endNumber] at h
  split at h
  · contradiction
  · split at h
    · injection h with h
      injection h with h₁ h₂
      subst h₁
      exact ⟨h₂.symm, _, ‹_›, ‹_›⟩
    · contradiction

/-- Only a scalar in progress is ended by a byte that does not belong to it. -/
theorem step_emitBefore {m next : Machine} {byte : UInt8} {token : Token}
    (h : m.step byte = .emitBefore token next) :
    m.unfinished ≠ .nothing ∧ next.unfinished = .nothing := by
  rw [step] at h
  cases unfinished : m.unfinished with
  | nothing =>
    rw [unfinished] at h
    dsimp only at h
    simp only [stepStructure, stepArray, stepObject, stepValue] at h
    repeat' split at h
    all_goals contradiction
  | keyword keyword missing =>
    rw [unfinished] at h
    dsimp only at h
    simp only [stepKeyword] at h
    repeat' split at h
    all_goals first
      | contradiction
      | (injection h with _ h; exact ⟨nofun, h ▸ m.unfinished_endScalar⟩)
  | number phase fractional literal =>
    rw [unfinished] at h
    dsimp only at h
    rw [stepNumber] at h
    repeat' split at h
    all_goals first
      | contradiction
      | (injection h with _ h
         exact ⟨nofun, h ▸ (endNumber_eq_ok ‹_›).1 ▸ m.unfinished_endScalar⟩)
  | text utf8 content =>
    rw [unfinished] at h
    dsimp only at h
    rw [stepText, stepUtf8] at h
    repeat' split at h
    all_goals contradiction
  | escape state content =>
    rw [unfinished] at h
    dsimp only at h
    simp only [stepEscape, pushEscaped] at h
    repeat' split at h
    all_goals contradiction

theorem inFlight_of_emitBefore {m next : Machine} {byte : UInt8} {token : Token}
    (h : m.step byte = .emitBefore token next) : next.inFlight < m.inFlight := by
  obtain ⟨before, after⟩ := step_emitBefore h
  rw [inFlight, inFlight, if_pos after, if_neg before]
  exact Nat.zero_lt_one

/-- Stops at a refused byte. -/
def refuse (m : Machine) (p : Position) (code : ErrorCode) : Reading :=
  { machine := m.goOn .nothing, position := p, failure := some code }

/-- Reads a run of bytes from a place in the input. -/
def read (m : Machine) (p : Position) (input : Bytes) : Reading :=
  match input with
  | [] => { machine := m, position := p }
  | byte :: rest =>
    match _h : m.step byte with
    | .advance next => next.read (p.advance byte) rest
    | .emit token next => (next.read (p.advance byte) rest).report token (p.advance byte)
    | .emitBefore token next => (next.read p (byte :: rest)).report token p
    | .fail code => m.refuse p code
termination_by 2 * input.length + m.inFlight
decreasing_by
  · have := next.inFlight_le_one
    simp only [List.length_cons]
    omega
  · have := next.inFlight_le_one
    simp only [List.length_cons]
    omega
  · have := inFlight_of_emitBefore _h
    omega

section
variable {m next : Machine} {p : Position} {byte : UInt8} {rest : Bytes} {token : Token}

@[simp] theorem read_nil (m : Machine) (p : Position) :
    m.read p [] = { machine := m, position := p } := by
  rw [read]

theorem read_advance (h : m.step byte = .advance next) :
    m.read p (byte :: rest) = next.read (p.advance byte) rest := by
  rw [read]
  split <;> simp_all

theorem read_emit (h : m.step byte = .emit token next) :
    m.read p (byte :: rest) = (next.read (p.advance byte) rest).report token (p.advance byte) := by
  rw [read]
  split <;> simp_all

theorem read_emitBefore (h : m.step byte = .emitBefore token next) :
    m.read p (byte :: rest) = (next.read p (byte :: rest)).report token p := by
  rw [read]
  split <;> simp_all

theorem read_fail {code : ErrorCode} (h : m.step byte = .fail code) :
    m.read p (byte :: rest) = m.refuse p code := by
  rw [read]
  split <;> simp_all

end

/-- **Reading two runs in turn is reading them as one.** -/
theorem read_append (m : Machine) (p : Position) (first second : Bytes) :
    m.read p (first ++ second) = (m.read p first).andThen fun m p => m.read p second := by
  induction m, p, first using read.induct with
  | case1 m p => rw [List.nil_append, read_nil]; rfl
  | case2 m p byte rest next h ih => rw [List.cons_append, read_advance h, ih, read_advance h]
  | case3 m p byte rest token next h ih =>
    rw [List.cons_append, read_emit h, ih, read_emit h, Reading.report_andThen]
  | case4 m p byte rest token next h ih =>
    rw [List.cons_append, read_emitBefore h, ← List.cons_append, ih, read_emitBefore h,
      Reading.report_andThen]
  | case5 m p byte rest code h => rw [List.cons_append, read_fail h, read_fail h]; rfl

/-- Bytes that are not refused move the place on. -/
theorem position_read {m : Machine} {p : Position} {bytes : Bytes}
    (accepted : (m.read p bytes).failure = none) :
    (m.read p bytes).position = p.after bytes := by
  induction m, p, bytes using read.induct with
  | case1 m p => rw [read_nil, p.after_nil]
  | case2 m p byte rest next step ih =>
    rw [read_advance step] at accepted ⊢
    exact ih accepted
  | case3 m p byte rest token next step ih =>
    rw [read_emit step] at accepted ⊢
    exact ih accepted
  | case4 m p byte rest token next step ih =>
    rw [read_emitBefore step] at accepted ⊢
    exact ih accepted
  | case5 m p byte rest code step =>
    rw [read_fail step] at accepted
    contradiction

/-! ### The end of input -/

/-- The end of input, between tokens: it completes the document. -/
def documentEnd (m : Machine) (p : Position) : Reading :=
  if m.frames = [] ∧ m.root = .afterValue then
    { tokens := [(.done, p)], machine := { m with root := .done }, position := p }
  else m.refuse p .unexpectedEnd

/-- The end of input: it completes a scalar that may end here, and then the document. -/
def finish (m : Machine) (p : Position) : Reading :=
  match m.unfinished with
  | .nothing => m.documentEnd p
  | .keyword keyword [] => (m.endScalar.documentEnd p).report (.ofKeyword keyword) p
  | .number phase fractional literal =>
    if phase.isComplete then
      match m.endNumber fractional literal with
      | .ok (token, next) => (next.documentEnd p).report token p
      | .error code => m.refuse p code
    else m.refuse p .unexpectedEnd
  | .keyword .. | .text .. | .escape .. => m.refuse p .unexpectedEnd

/-- Reads all that is left of the input. -/
def readAll (m : Machine) (p : Position) (input : Bytes) : Reading :=
  (m.read p input).andThen finish

end Machine

/-- The tokens of what has been read, if nothing was refused. -/
def Reading.accepted? (x : Reading) : Option (List Token) :=
  match x.failure with
  | some _ => none
  | none => some (x.tokens.map Prod.fst)

theorem Reading.accepted?_report (x : Reading) (token : Token) (p : Position) :
    (x.report token p).accepted? = x.accepted?.map (token :: ·) := by
  obtain ⟨tokens, machine, position, _ | code⟩ := x <;> rfl

theorem Reading.accepted?_andThen {x : Reading} (h : x.failure = none)
    (next : Machine → Position → Reading) :
    (x.andThen next).accepted? =
      (next x.machine x.position).accepted?.map (x.tokens.map Prod.fst ++ ·) := by
  rw [andThen_eq h, accepted?, accepted?]
  dsimp only
  cases (next x.machine x.position).failure with
  | some code => rfl
  | none => rw [List.map_append, Option.map_some]

namespace Machine

/-- The tokens of all that is left of the input, if it completes the document. -/
def tokens? (m : Machine) (input : Bytes) : Option (List Token) :=
  (m.readAll {} input).accepted?

section
variable {m next : Machine} {p : Position} {byte : UInt8} {rest : Bytes} {token : Token}

theorem readAll_nil (m : Machine) (p : Position) : m.readAll p [] = m.finish p := by
  rw [readAll, read_nil, Reading.andThen_eq rfl]
  rfl

theorem readAll_advance (h : m.step byte = .advance next) :
    m.readAll p (byte :: rest) = next.readAll (p.advance byte) rest := by
  rw [readAll, read_advance h, readAll]

theorem readAll_emit (h : m.step byte = .emit token next) :
    m.readAll p (byte :: rest) =
      (next.readAll (p.advance byte) rest).report token (p.advance byte) := by
  rw [readAll, read_emit h, readAll, Reading.report_andThen]

theorem readAll_emitBefore (h : m.step byte = .emitBefore token next) :
    m.readAll p (byte :: rest) = (next.readAll p (byte :: rest)).report token p := by
  rw [readAll, read_emitBefore h, readAll, Reading.report_andThen]

theorem readAll_fail {code : ErrorCode} (h : m.step byte = .fail code) :
    m.readAll p (byte :: rest) = m.refuse p code := by
  rw [readAll, read_fail h]
  rfl

theorem accepted?_documentEnd (m : Machine) (p q : Position) :
    (m.documentEnd p).accepted? = (m.documentEnd q).accepted? := by
  simp only [documentEnd]
  split <;> rfl

theorem accepted?_finish (m : Machine) (p q : Position) :
    (m.finish p).accepted? = (m.finish q).accepted? := by
  simp only [finish]
  split
  · exact m.accepted?_documentEnd p q
  · rw [Reading.accepted?_report, Reading.accepted?_report, m.endScalar.accepted?_documentEnd p q]
  · split
    · split
      · rename_i next _
        rw [Reading.accepted?_report, Reading.accepted?_report, next.accepted?_documentEnd p q]
      · rfl
    · rfl
  all_goals rfl

/-- Where the input starts makes no difference to its tokens. -/
theorem accepted?_readAll (m : Machine) (p : Position) (input : Bytes) :
    (m.readAll p input).accepted? = m.tokens? input := by
  have anywhere : ∀ q, (m.readAll p input).accepted? = (m.readAll q input).accepted? := by
    induction m, p, input using read.induct with
    | case1 m p =>
      intro q
      rw [readAll_nil, readAll_nil, m.accepted?_finish p q]
    | case2 m p byte rest next h ih =>
      intro q
      rw [readAll_advance h, readAll_advance h, ih]
    | case3 m p byte rest token next h ih =>
      intro q
      rw [readAll_emit h, readAll_emit h, Reading.accepted?_report, Reading.accepted?_report, ih]
    | case4 m p byte rest token next h ih =>
      intro q
      rw [readAll_emitBefore h, readAll_emitBefore h, Reading.accepted?_report,
        Reading.accepted?_report, ih]
    | case5 m p byte rest code h =>
      intro q
      rw [readAll_fail h, readAll_fail h]
      rfl
  exact anywhere {}

theorem tokens?_advance (h : m.step byte = .advance next) :
    m.tokens? (byte :: rest) = next.tokens? rest := by
  rw [tokens?, readAll_advance h, accepted?_readAll]

theorem tokens?_emit (h : m.step byte = .emit token next) :
    m.tokens? (byte :: rest) = (next.tokens? rest).map (token :: ·) := by
  rw [tokens?, readAll_emit h, Reading.accepted?_report, accepted?_readAll]

theorem tokens?_emitBefore (h : m.step byte = .emitBefore token next) :
    m.tokens? (byte :: rest) = (next.tokens? (byte :: rest)).map (token :: ·) := by
  rw [tokens?, readAll_emitBefore h, Reading.accepted?_report, accepted?_readAll]

theorem tokens?_fail {code : ErrorCode} (h : m.step byte = .fail code) :
    m.tokens? (byte :: rest) = none := by
  rw [tokens?, readAll_fail h]
  rfl

theorem tokens?_nil (m : Machine) : m.tokens? [] = (m.finish {}).accepted? := by
  rw [tokens?, readAll_nil]

end

end Machine

/-- The tokens of a step on `byte` and of what is left after it. -/
def Step.tokens? (step : Step Machine) (byte : UInt8) (rest : Bytes) : Option (List Token) :=
  match step with
  | .advance next => next.tokens? rest
  | .emit token next => (next.tokens? rest).map (token :: ·)
  | .emitBefore token next => (next.tokens? (byte :: rest)).map (token :: ·)
  | .fail _ => none

namespace Machine

theorem tokens?_cons (m : Machine) (byte : UInt8) (rest : Bytes) :
    m.tokens? (byte :: rest) = (m.step byte).tokens? byte rest := by
  cases step : m.step byte with
  | advance next => exact tokens?_advance step
  | emit token next => exact tokens?_emit step
  | emitBefore token next => exact tokens?_emitBefore step
  | fail code => exact tokens?_fail step

/-! ### Bytes that are taken in silence -/

/-- The machine takes the bytes, reports nothing and is `next` then. -/
def Absorbs (m : Machine) (bytes : Bytes) (next : Machine) : Prop :=
  ∀ p, m.read p bytes = { machine := next, position := p.after bytes }

namespace Absorbs

variable {m next last : Machine} {bytes : Bytes}

theorem nil (m : Machine) : m.Absorbs [] m :=
  fun p => read_nil m p

theorem cons {byte : UInt8} (step : m.step byte = .advance next) (more : next.Absorbs bytes last) :
    m.Absorbs (byte :: bytes) last :=
  fun p => (read_advance step).trans (more (p.advance byte))

theorem read_eq (h : m.Absorbs bytes next) (p : Position) (rest : Bytes) :
    m.read p (bytes ++ rest) = next.read (p.after bytes) rest := by
  rw [read_append, h p, Reading.andThen_eq rfl]
  rfl

theorem append {more : Bytes} (first : m.Absorbs bytes next) (second : next.Absorbs more last) :
    m.Absorbs (bytes ++ more) last := by
  intro p
  rw [first.read_eq, second, p.after_append]

/-- One more byte that is taken. -/
theorem snoc {byte : UInt8} (first : m.Absorbs bytes next) (step : next.step byte = .advance last) :
    m.Absorbs (bytes ++ [byte]) last :=
  first.append (cons step (nil last))

theorem tokens?_eq (h : m.Absorbs bytes next) (rest : Bytes) :
    m.tokens? (bytes ++ rest) = next.tokens? rest := by
  rw [tokens?, readAll, h.read_eq]
  exact accepted?_readAll next _ rest

end Absorbs

end Machine

end JsonStream
