import JsonStream.Proofs.Machine.Spelled
import JsonStream.Proofs.Machine.View

/-!
# What is in progress can be completed

As long as no byte is refused, the bytes of the scalar in progress are the start of a scalar: those
of a number have led to its phase, those of a string are text once the open sequence is completed,
and only a high surrogate waits for a second escape.

* `Machine.step_viable`: one byte.
* `Machine.read_all`: a run of bytes keeps what every byte keeps.
-/

namespace JsonStream

/-! ### Texts in progress -/

namespace Utf8.State

/-- However the open sequence is completed, the bytes are text then. -/
def Continues (state : State) (content : Bytes) : Prop :=
  ∀ bytes, state.Completes bytes → ∃ chars, content ++ bytes = encode chars

theorem continues_boundary_iff {content : Bytes} :
    boundary.Continues content ↔ ∃ chars, content = encode chars := by
  constructor
  · intro h
    obtain ⟨chars, same⟩ := h [] completes_nil
    rw [List.append_nil] at same
    exact ⟨chars, same⟩
  · rintro ⟨chars, rfl⟩ bytes completes
    rw [eq_of_completes_boundary completes, List.append_nil]
    exact ⟨chars, rfl⟩

theorem continues_push {content : Bytes} (h : ∃ chars, content = encode chars) (c : Char) :
    boundary.Continues (content ++ String.utf8EncodeChar c) := by
  obtain ⟨chars, rfl⟩ := h
  refine continues_boundary_iff.2 ⟨chars ++ [c], ?_⟩
  rw [encode_append, encode_cons, encode_nil, List.append_nil]

theorem Continues.next {state next : State} {content : Bytes} {byte : UInt8}
    (h : state.Continues content) (step : state.step? byte = some next) :
    next.Continues (content ++ [byte]) := by
  intro bytes completes
  rw [List.append_assoc, List.singleton_append]
  by_cases sequence : state = .boundary
  · -- This byte and those that complete its sequence are one more character.
    subst sequence
    obtain ⟨chars, rfl⟩ := continues_boundary_iff.1 h
    obtain ⟨c, encoded⟩ := exists_utf8EncodeChar step completes
    obtain ⟨pushed, same⟩ := continues_boundary_iff.1 (continues_push ⟨chars, rfl⟩ c)
    rw [← encoded]
    exact ⟨pushed, same⟩
  · exact h _ ((completes_cons_iff sequence).2 ⟨next, step, completes⟩)

end Utf8.State

/-! ### Scalars in progress -/

/-- Only a high surrogate waits for a second escape. -/
def EscapeState.Viable : EscapeState → Prop
  | .start | .unit _ => True
  | .needBackslash high | .needMark high | .secondUnit high _ =>
    Utf16.isHighSurrogate high = true

/-- What has been read of a scalar is the start of one. -/
def Unfinished.Viable : Unfinished → Prop
  | .nothing | .keyword .. => True
  | .number phase fractional literal =>
    phase.Spelled literal ∧ fractional = Number.marked literal
  | .text utf8 content => utf8.Continues content
  | .escape state content => state.Viable ∧ ∃ chars, content = Utf8.encode chars

namespace Machine

/-! ### Options -/

@[simp] theorem options_valueStarted (m : Machine) : m.valueStarted.options = m.options := by
  rw [valueStarted]
  split <;> rfl

@[simp] theorem options_valueCompleted (m : Machine) : m.valueCompleted.options = m.options := by
  rw [valueCompleted]
  split <;> rfl

theorem step_options (m : Machine) (byte : UInt8) : (m.step byte).All (·.options = m.options) := by
  have begun : ∀ unfinished, (m.begin unfinished).options = m.options := fun _ =>
    m.options_valueStarted
  have opened : ∀ frame, (m.openContainer frame).options = m.options := fun _ =>
    m.options_valueStarted
  have closed : ∀ outer, (m.closeContainer outer).options = m.options := fun _ =>
    options_valueCompleted _
  have ended : m.endScalar.options = m.options := options_valueCompleted _
  have value : (m.stepValue byte).All (·.options = m.options) := by
    rw [stepValue]
    repeat' split
    all_goals first
      | exact opened _
      | exact begun _
      | trivial
  rw [step]
  cases m.unfinished with
  | nothing =>
    simp only [stepStructure, stepArray, stepObject]
    repeat' split
    all_goals first
      | exact value
      | exact closed _
      | exact begun _
      | rfl
      | trivial
  | keyword word missing =>
    simp only [stepKeyword]
    repeat' split
    all_goals first
      | exact ended
      | rfl
      | trivial
  | number phase fractional literal =>
    simp only [stepNumber]
    repeat' split
    all_goals first
      | exact (endNumber_eq_ok ‹_›).1 ▸ ended
      | rfl
      | trivial
  | text utf8 content =>
    have sequence : (m.stepUtf8 utf8 content byte).All (·.options = m.options) := by
      rw [stepUtf8]
      split
      · rfl
      · trivial
    dsimp only
    rw [stepText]
    split_ifs
    · exact sequence
    · rw [endString]
      cases Utf8.text? content with
      | none => trivial
      | some text => exact ended
    · rfl
    · trivial
    · rfl
    · split
      · exact sequence
      · rfl
  | escape state content =>
    simp only [stepEscape, pushEscaped]
    repeat' split
    all_goals first
      | rfl
      | trivial

/-! ### Viable machines -/

/-- **What is in progress can be completed.** Once the root value is complete, nothing is in
progress. -/
structure Viable (m : Machine) : Prop where
  root : m.root = .value ∨ m.root = .afterValue ∧ m.frames = [] ∧ m.unfinished = .nothing
  unfinished : m.unfinished.Viable

theorem viable_new (options : ReaderOptions) : Viable { options } :=
  ⟨.inl rfl, trivial⟩

variable {m : Machine}

/-- Before a scalar or inside one, the root value is not complete. -/
theorem Viable.root_eq (h : m.Viable) (inside : m.unfinished ≠ .nothing) : m.root = .value :=
  h.root.resolve_right fun after => inside after.2.2

theorem viable_goOn (root : m.root = .value) {unfinished : Unfinished} (h : unfinished.Viable) :
    (m.goOn unfinished).Viable :=
  ⟨.inl root, h⟩

theorem viable_begin (root : m.root = .value) {unfinished : Unfinished} (h : unfinished.Viable) :
    (m.begin unfinished).Viable := by
  refine ⟨.inl ?_, h⟩
  show m.valueStarted.root = .value
  rw [valueStarted]
  split <;> exact root

theorem viable_valueCompleted (root : m.root = .value) (nothing : m.unfinished = .nothing) :
    m.valueCompleted.Viable := by
  rw [valueCompleted]
  split
  · rename_i empty
    exact ⟨.inr ⟨rfl, empty, nothing⟩, nothing ▸ trivial⟩
  · exact ⟨.inl root, nothing ▸ trivial⟩

theorem viable_endScalar (root : m.root = .value) : m.endScalar.Viable :=
  viable_valueCompleted (m := { m with unfinished := .nothing }) root rfl

theorem viable_openContainer (root : m.root = .value) (nothing : m.unfinished = .nothing)
    (frame : Frame) : (m.openContainer frame).Viable := by
  have same : (m.openContainer frame).unfinished = .nothing :=
    m.unfinished_valueStarted.trans nothing
  refine ⟨.inl ?_, same ▸ trivial⟩
  show m.valueStarted.root = .value
  rw [valueStarted]
  split <;> exact root

theorem viable_pushChar (root : m.root = .value) {content : Bytes}
    (h : ∃ chars, content = Utf8.encode chars) (c : Char) : (m.pushChar content c).Viable :=
  viable_goOn root (Utf8.State.continues_push h c)

/-! ### One byte -/

theorem stepValue_viable (root : m.root = .value) (nothing : m.unfinished = .nothing)
    (byte : UInt8) : (m.stepValue byte).All Viable := by
  rw [stepValue]
  split_ifs
  · exact viable_openContainer root nothing _
  · exact viable_openContainer root nothing _
  · exact viable_begin root (Utf8.State.continues_boundary_iff.2 ⟨[], rfl⟩)
  · cases start : Number.Phase.start? byte with
    | some phase =>
      refine viable_begin root ⟨Number.Phase.spelled_start start, ?_⟩
      show false = (Number.Phase.isMarkByte byte || false)
      rw [Number.Phase.isMarkByte_of_start? start, Bool.or_false]
    | none =>
      cases Keyword.ofHead? byte with
      | some word => exact viable_begin root trivial
      | none => trivial

theorem stepArray_viable (root : m.root = .value) (nothing : m.unfinished = .nothing)
    (slot : ArraySlot) (outer : List Frame) (byte : UInt8) :
    (m.stepArray slot outer byte).All Viable := by
  have value := stepValue_viable root nothing byte
  have closed : (m.closeContainer outer).Viable :=
    viable_valueCompleted (m := { m with frames := outer }) root nothing
  cases slot with
  | first =>
    rw [stepArray]
    split_ifs
    · exact closed
    · exact value
  | value => exact value
  | separator =>
    rw [stepArray]
    split_ifs
    · exact ⟨.inl root, nothing ▸ trivial⟩
    · exact closed
    · trivial

theorem stepObject_viable (root : m.root = .value) (nothing : m.unfinished = .nothing)
    (slot : ObjectSlot) (outer : List Frame) (byte : UInt8) :
    (m.stepObject slot outer byte).All Viable := by
  have closed : (m.closeContainer outer).Viable :=
    viable_valueCompleted (m := { m with frames := outer }) root nothing
  have text : (m.begin (.text .boundary [])).Viable :=
    viable_begin root (Utf8.State.continues_boundary_iff.2 ⟨[], rfl⟩)
  have moved : ∀ frames, { m with frames }.Viable := fun _ => ⟨.inl root, nothing ▸ trivial⟩
  cases slot with
  | first =>
    rw [stepObject]
    split_ifs
    · exact text
    · exact closed
    · trivial
  | key =>
    rw [stepObject]
    split_ifs
    · exact text
    · trivial
  | colon =>
    rw [stepObject]
    split_ifs
    · exact moved _
    · trivial
  | value => exact stepValue_viable root nothing byte
  | separator =>
    rw [stepObject]
    split_ifs
    · exact moved _
    · exact closed
    · trivial

theorem stepStructure_viable (h : m.Viable) (nothing : m.unfinished = .nothing) (byte : UInt8) :
    (m.stepStructure byte).All Viable := by
  rw [stepStructure]
  split_ifs
  · exact h
  rcases h.root with root | ⟨root, empty, -⟩
  · rcases m.frames with _ | ⟨slot | slot, outer⟩
    · rw [root]
      exact stepValue_viable root nothing byte
    · exact stepArray_viable root nothing slot outer byte
    · exact stepObject_viable root nothing slot outer byte
  · rw [empty, root]
    trivial

theorem stepKeyword_viable (root : m.root = .value) (word : Keyword) (missing : Bytes)
    (byte : UInt8) : (m.stepKeyword word missing byte).All Viable := by
  cases missing with
  | cons expected missing =>
    rw [stepKeyword]
    split_ifs
    · exact viable_goOn root trivial
    · trivial
  | nil =>
    rw [stepKeyword]
    split_ifs
    · exact viable_endScalar root
    · trivial

theorem stepNumber_viable (root : m.root = .value) {phase : Number.Phase} {literal : Bytes}
    (spelled : phase.Spelled literal) (byte : UInt8) :
    (m.stepNumber phase (Number.marked literal) literal byte).All Viable := by
  rw [stepNumber]
  cases step : phase.next? byte with
  | some next =>
    refine viable_goOn root ⟨spelled.next step, ?_⟩
    rw [marked_append_singleton, Number.Phase.isMark_of_next? step]
  | none =>
    dsimp only
    split_ifs
    · trivial
    · cases ended : m.endNumber (Number.marked literal) literal with
      | error code => trivial
      | ok done =>
        obtain ⟨same, -⟩ := endNumber_eq_ok ended
        show done.2.Viable
        rw [same]
        exact viable_endScalar root
    · trivial

theorem stepUtf8_viable (root : m.root = .value) {utf8 : Utf8.State} {content : Bytes}
    (h : utf8.Continues content) (byte : UInt8) : (m.stepUtf8 utf8 content byte).All Viable := by
  rw [stepUtf8]
  cases step : utf8.step? byte with
  | some next => exact viable_goOn root (h.next step)
  | none => trivial

theorem stepText_viable (root : m.root = .value) {utf8 : Utf8.State} {content : Bytes}
    (h : utf8.Continues content) (byte : UInt8) : (m.stepText utf8 content byte).All Viable := by
  rw [stepText]
  split_ifs with sequence quote backslash space ascii
  · exact stepUtf8_viable root h byte
  · rw [endString]
    cases Utf8.text? content with
    | none => trivial
    | some text => exact viable_endScalar root
  all_goals
    have boundary : utf8 = .boundary := Classical.not_not.1 sequence
    subst boundary
  · exact viable_goOn root ⟨trivial, Utf8.State.continues_boundary_iff.1 h⟩
  · trivial
  · exact viable_goOn root (h.next (if_pos ascii))
  · cases m.options.encoding with
    | utf8 => exact stepUtf8_viable root h byte
    | latin1 => exact viable_pushChar root (Utf8.State.continues_boundary_iff.1 h) _

theorem stepEscape_viable (root : m.root = .value) {state : EscapeState} {content : Bytes}
    (viable : state.Viable) (text : ∃ chars, content = Utf8.encode chars) (byte : UInt8) :
    (m.stepEscape state content byte).All Viable := by
  have goes : ∀ next : EscapeState, next.Viable → (m.goOn (.escape next content)).Viable :=
    fun next h => viable_goOn root ⟨h, text⟩
  have pushed : ∀ c, (m.pushEscaped content c).All Viable := by
    intro c
    cases c with
    | none => trivial
    | some c => exact viable_pushChar root text c
  cases state with
  | start =>
    rw [stepEscape]
    split_ifs
    · exact goes _ trivial
    · cases Escape.short? byte with
      | some c => exact viable_pushChar root text c
      | none => trivial
  | unit digits =>
    rw [stepEscape]
    cases digits.push? byte with
    | none => trivial
    | some digits =>
      dsimp only
      cases digits.unit? with
      | none => exact goes _ trivial
      | some unit =>
        dsimp only
        split_ifs with high
        · exact goes _ high
        · exact pushed _
  | needBackslash high =>
    rw [stepEscape]
    split_ifs
    · exact goes _ viable
    · trivial
  | needMark high =>
    rw [stepEscape]
    split_ifs
    · exact goes _ viable
    · trivial
  | secondUnit high digits =>
    rw [stepEscape]
    cases digits.push? byte with
    | none => trivial
    | some digits =>
      dsimp only
      cases digits.unit? with
      | none => exact goes _ viable
      | some low => exact pushed _

/-- **A byte that is not refused leaves something that can be completed.** -/
theorem step_viable (h : m.Viable) (byte : UInt8) : (m.step byte).All Viable := by
  by_cases nothing : m.unfinished = .nothing
  · rw [step, nothing]
    exact stepStructure_viable h nothing byte
  · have root := h.root_eq nothing
    have viable := h.unfinished
    rw [step]
    cases unfinished : m.unfinished with
    | nothing => exact absurd unfinished nothing
    | keyword word missing => exact stepKeyword_viable root word missing byte
    | number phase fractional literal =>
      rw [unfinished] at viable
      obtain ⟨spelled, rfl⟩ := viable
      exact stepNumber_viable root spelled byte
    | text utf8 content =>
      rw [unfinished] at viable
      exact stepText_viable root viable byte
    | escape state content =>
      rw [unfinished] at viable
      exact stepEscape_viable root viable.1 viable.2 byte

/-! ### Runs of bytes -/

/-- What every byte keeps, a run of bytes keeps, unless one of them is refused. -/
theorem read_all {P : Machine → Prop} (keeps : ∀ m, P m → ∀ byte, (m.step byte).All P)
    {m : Machine} (h : P m) {p : Position} {input : Bytes}
    (accepted : (m.read p input).failure = none) : P (m.read p input).machine := by
  induction m, p, input using read.induct with
  | case1 m p =>
    rw [read_nil]
    exact h
  | case2 m p byte rest next step ih =>
    have kept := keeps m h byte
    rw [step] at kept
    rw [read_advance step] at accepted ⊢
    exact ih kept accepted
  | case3 m p byte rest token next step ih =>
    have kept := keeps m h byte
    rw [step] at kept
    rw [read_emit step] at accepted ⊢
    exact ih kept accepted
  | case4 m p byte rest token next step ih =>
    have kept := keeps m h byte
    rw [step] at kept
    rw [read_emitBefore step] at accepted ⊢
    exact ih kept accepted
  | case5 m p byte rest code step =>
    rw [read_fail step] at accepted
    contradiction

theorem options_read {m : Machine} {p : Position} {input : Bytes}
    (accepted : (m.read p input).failure = none) :
    (m.read p input).machine.options = m.options :=
  read_all (P := (·.options = m.options)) (fun n kept byte => kept ▸ n.step_options byte) rfl
    accepted

end Machine

end JsonStream
