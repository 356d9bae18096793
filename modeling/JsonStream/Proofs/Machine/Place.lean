import JsonStream.Proofs.Machine.Calls
import JsonStream.Proofs.Machine.Viable

/-!
# A reader in its place

What has been read since the last token is whitespace, commas and colons, and then the bytes of the
token in progress. They tell whether it is a number, and which.

* `Machine.step_since`: one byte, for machines.
* `Reader.InPlace.step_all`, `Reader.InPlace.endScalar`: one byte and the end of a scalar, for
  readers.
* `Reader.InPlace.inWholeNumber_iff`: a complete number in progress.
-/

namespace JsonStream

/-! ### The token in progress -/

/-- Whether a byte may stand between two tokens. -/
def Byte.isGap (byte : UInt8) : Bool :=
  isWhitespace byte || byte == comma || byte == colon

/-- The bytes of the token in progress, out of all those since the last token. -/
def tokenPart (since : Bytes) : Bytes :=
  since.dropWhile Byte.isGap

theorem tokenPart_gap {since : Bytes} (h : tokenPart since = []) {byte : UInt8}
    (gap : Byte.isGap byte = true) : tokenPart (since ++ [byte]) = [] := by
  rw [tokenPart] at h
  rw [tokenPart, List.dropWhile_append, h, List.isEmpty_nil, if_pos rfl]
  exact List.dropWhile_cons_of_pos gap

theorem tokenPart_first {since : Bytes} (h : tokenPart since = []) {byte : UInt8}
    (begins : Byte.isGap byte = false) : tokenPart (since ++ [byte]) = [byte] := by
  rw [tokenPart] at h
  rw [tokenPart, List.dropWhile_append, h, List.isEmpty_nil, if_pos rfl]
  exact List.dropWhile_cons_of_neg (Bool.eq_false_iff.1 begins)

theorem tokenPart_next {since : Bytes} {first : UInt8} {more : Bytes}
    (h : tokenPart since = first :: more) (byte : UInt8) :
    tokenPart (since ++ [byte]) = first :: (more ++ [byte]) := by
  rw [tokenPart] at h
  rw [tokenPart, List.dropWhile_append, h]
  rfl

theorem isGap_of_start? {byte : UInt8} {phase : Number.Phase}
    (h : Number.Phase.start? byte = some phase) : Byte.isGap byte = false := by
  rw [Bool.eq_false_iff]
  intro gap
  have named : ((((byte = Byte.space ∨ byte = Byte.tab) ∨ byte = Byte.lineFeed) ∨
      byte = Byte.carriageReturn) ∨ byte = Byte.comma) ∨ byte = Byte.colon := by
    simpa [Byte.isGap, Byte.isWhitespace] using gap
  rcases named with ((((rfl | rfl) | rfl) | rfl) | rfl) | rfl <;> contradiction

/-- The token in progress has begun with a byte that begins no number. -/
def NoNumber (since : Bytes) : Prop :=
  ∃ first more, tokenPart since = first :: more ∧ Number.Phase.start? first = none

theorem NoNumber.next {since : Bytes} (h : NoNumber since) (byte : UInt8) :
    NoNumber (since ++ [byte]) := by
  obtain ⟨first, more, same, other⟩ := h
  exact ⟨first, more ++ [byte], tokenPart_next same byte, other⟩

theorem noNumber_first {since : Bytes} (h : tokenPart since = []) {byte : UInt8}
    (begins : Byte.isGap byte = false) (other : Number.Phase.start? byte = none) :
    NoNumber (since ++ [byte]) :=
  ⟨byte, [], tokenPart_first h begins, other⟩

/-- What has been read since the last token leaves this unfinished. -/
def Unfinished.Since (since : Bytes) : Unfinished → Prop
  | .nothing => tokenPart since = []
  | .number _ _ literal => tokenPart since = literal
  | .keyword .. | .text .. | .escape .. => NoNumber since

/-- What a step on `byte` leaves unfinished: after a token, nothing. A token that ends with this byte
is no number. -/
def Step.Since (since : Bytes) (byte : UInt8) : Step Machine → Prop
  | .advance next => next.unfinished.Since (since ++ [byte])
  | .emit _ next => next.unfinished = .nothing ∧ NoNumber (since ++ [byte])
  | .emitBefore _ next => next.unfinished = .nothing
  | .fail _ => True

namespace Machine

variable {m : Machine} {since : Bytes}

theorem stepValue_since (nothing : m.unfinished = .nothing) (h : tokenPart since = [])
    (byte : UInt8) : (m.stepValue byte).Since since byte := by
  have opened : ∀ frame, (m.openContainer frame).unfinished = .nothing := fun _ =>
    m.unfinished_valueStarted.trans nothing
  rw [stepValue]
  split_ifs with bracket brace quote
  · exact ⟨opened _, noNumber_first h (bracket ▸ rfl) (bracket ▸ rfl)⟩
  · exact ⟨opened _, noNumber_first h (brace ▸ rfl) (brace ▸ rfl)⟩
  · exact noNumber_first h (quote ▸ rfl) (quote ▸ rfl)
  · cases start : Number.Phase.start? byte with
    | some phase => exact tokenPart_first h (isGap_of_start? start)
    | none =>
      cases head : Keyword.ofHead? byte with
      | some word =>
        have same := Keyword.ofHead?_eq_some_iff.1 head
        have begins : Byte.isGap byte = false := by
          rw [same]
          cases word <;> rfl
        exact noNumber_first h begins start
      | none => trivial

theorem stepStructure_since (nothing : m.unfinished = .nothing) (h : tokenPart since = [])
    (byte : UInt8) : (m.stepStructure byte).Since since byte := by
  have value := stepValue_since nothing h byte
  have stay : ∀ frames, Byte.isGap byte = true →
      { m with frames }.unfinished.Since (since ++ [byte]) := fun frames gap => by
    have same : { m with frames }.unfinished = .nothing := nothing
    rw [same]
    exact tokenPart_gap h gap
  have closed : ∀ outer, byte = Byte.closeBracket ∨ byte = Byte.closeBrace →
      (m.closeContainer outer).unfinished = .nothing ∧ NoNumber (since ++ [byte]) := by
    intro outer closing
    refine ⟨(unfinished_valueCompleted { m with frames := outer }).trans nothing, ?_⟩
    rcases closing with rfl | rfl
    · exact noNumber_first h rfl rfl
    · exact noNumber_first h rfl rfl
  have quoted : byte = Byte.quote → NoNumber (since ++ [byte]) :=
    fun quote => noNumber_first h (quote ▸ rfl) (quote ▸ rfl)
  rw [stepStructure]
  split_ifs with blank
  · exact stay m.frames (by rw [Byte.isGap, blank]; rfl)
  rcases m.frames with _ | ⟨slot | slot, outer⟩
  · cases m.root with
    | value => exact value
    | afterValue => trivial
    | done => trivial
  · simp only [stepArray]
    cases slot with
    | first =>
      dsimp only
      split_ifs with bracket
      · exact closed outer (.inl bracket)
      · exact value
    | value => exact value
    | separator =>
      dsimp only
      split_ifs with comma bracket
      · exact stay _ (comma ▸ rfl)
      · exact closed outer (.inl bracket)
      · trivial
  · simp only [stepObject]
    cases slot with
    | first =>
      dsimp only
      split_ifs with quote brace
      · exact quoted quote
      · exact closed outer (.inr brace)
      · trivial
    | key =>
      dsimp only
      split_ifs with quote
      · exact quoted quote
      · trivial
    | colon =>
      dsimp only
      split_ifs with colon
      · exact stay _ (colon ▸ rfl)
      · trivial
    | value => exact value
    | separator =>
      dsimp only
      split_ifs with comma brace
      · exact stay _ (comma ▸ rfl)
      · exact closed outer (.inr brace)
      · trivial

theorem stepKeyword_since (h : NoNumber since) (word : Keyword) (missing : Bytes) (byte : UInt8) :
    (m.stepKeyword word missing byte).Since since byte := by
  cases missing with
  | cons expected missing =>
    rw [stepKeyword]
    split_ifs
    · exact h.next byte
    · trivial
  | nil =>
    rw [stepKeyword]
    split_ifs
    · exact m.unfinished_endScalar
    · trivial

theorem stepNumber_since {phase : Number.Phase} {literal : Bytes} (h : tokenPart since = literal)
    (spelled : phase.Spelled literal) (fractional : Bool) (byte : UInt8) :
    (m.stepNumber phase fractional literal byte).Since since byte := by
  rw [stepNumber]
  cases phase.next? byte with
  | some next =>
    -- A literal in progress has a first byte, so this one goes to the end of the token.
    obtain ⟨first, more, -, rfl, -, -⟩ := spelled
    exact tokenPart_next h byte
  | none =>
    dsimp only
    split_ifs
    · trivial
    · cases ended : m.endNumber fractional literal with
      | error code => trivial
      | ok done =>
        obtain ⟨same, -⟩ := endNumber_eq_ok ended
        show done.2.unfinished = .nothing
        rw [same]
        exact m.unfinished_endScalar
    · trivial

/-- **What is in progress is told by the bytes since the last token.** -/
theorem step_since (viable : m.Viable) (h : m.unfinished.Since since) (byte : UInt8) :
    (m.step byte).Since since byte := by
  have viable := viable.unfinished
  rw [step]
  cases unfinished : m.unfinished with
  | nothing =>
    rw [unfinished] at h
    exact stepStructure_since unfinished h byte
  | keyword word missing =>
    rw [unfinished] at h
    exact stepKeyword_since h word missing byte
  | number phase fractional literal =>
    rw [unfinished] at h viable
    exact stepNumber_since h viable.1 fractional byte
  | text utf8 content =>
    rw [unfinished] at h
    have goesOn : NoNumber (since ++ [byte]) := NoNumber.next h byte
    dsimp only
    rw [stepText, stepUtf8]
    split_ifs
    · split
      · exact goesOn
      · trivial
    · rw [endString]
      cases Utf8.text? content with
      | none => trivial
      | some text => exact ⟨m.unfinished_endScalar, goesOn⟩
    · exact goesOn
    · trivial
    · exact goesOn
    · repeat' split
      all_goals first
        | exact goesOn
        | trivial
  | escape state content =>
    rw [unfinished] at h
    have goesOn : NoNumber (since ++ [byte]) := NoNumber.next h byte
    dsimp only
    simp only [stepEscape, pushEscaped]
    repeat' split
    all_goals first
      | exact goesOn
      | trivial

end Machine

/-! ### A reader in its place -/

namespace Reader

/-- The reader has read `past`, up to the last token, and `since`. What it has not read of the chunk
is `unread`. -/
structure InPlace (o : ReaderOptions) (r : Reader) (past since unread : Bytes) : Prop where
  options : r.options = o
  live : r.Live unread
  position : r.position = Position.after {} (past ++ since)
  viable : r.machine.Viable
  since : r.machine.unfinished.Since since

variable {o o' : ReaderOptions} {r next : Reader} {past since rest : Bytes} {byte : UInt8}

theorem InPlace.moveOver {past' since' : Bytes} (options : next.options = o)
    (continues : next.Continues r rest) (position : r.position = Position.after {} (past ++ since))
    (viable : next.machine.Viable) (read : past' ++ since' = past ++ since ++ [byte])
    (follows : next.machine.unfinished.Since since') :
    InPlace o (next.moveOver byte) past' since' rest where
  options := options
  live := continues.live_moveOver
  position := by
    rw [read, Position.after_append, ← position, ← continues.position]
    rfl
  viable := viable
  since := follows

theorem since_nil {unfinished : Unfinished} (nothing : unfinished = .nothing) :
    unfinished.Since [] := by
  rw [nothing]
  rfl

/-- Where a step leads to. -/
def StepInPlace (o : ReaderOptions) (past since : Bytes) (byte : UInt8) (rest : Bytes) :
    Step Reader → Prop
  | .advance next => InPlace o (next.moveOver byte) past (since ++ [byte]) rest
  | .emit token next =>
    token.isOngoing = true ∧ NoNumber (since ++ [byte]) ∧
      InPlace o (next.moveOver byte) (past ++ (since ++ [byte])) [] rest
  | .emitBefore token next =>
    token.isOngoing = true ∧ InPlace o next (past ++ since) [] (byte :: rest)
  | .fail _ => True

theorem InPlace.step_all (h : InPlace o r past since (byte :: rest)) :
    StepInPlace o past since byte rest (r.step byte rest) := by
  have machine := machine_step h.live.aligned
  have all := h.live.step_all
  have goesOn := Machine.step_goesOn (m := r.machine) h.live.root byte
  have viable := Machine.step_viable h.viable byte
  have follows := Machine.step_since h.viable h.since byte
  have options := r.machine.step_options byte
  have same : r.machine.options = o := h.options
  rw [same] at options
  rw [← machine] at goesOn viable follows options
  cases step : r.step byte rest with
  | advance next =>
    rw [step] at all viable follows options
    exact InPlace.moveOver options all h.position viable (List.append_assoc ..).symm follows
  | emit token next =>
    rw [step] at all goesOn viable follows options
    exact ⟨goesOn.1, follows.2, InPlace.moveOver options all h.position viable
      (by rw [List.append_nil, List.append_assoc]) (since_nil follows.1)⟩
  | emitBefore token next =>
    rw [step] at all goesOn viable follows options
    have live : next.Live (byte :: rest) :=
      ⟨aligned_of_unfinished follows _, all.live.failure, all.live.root⟩
    refine ⟨goesOn.1, options, live, ?_, viable, since_nil follows⟩
    rw [List.append_nil]
    exact all.position.trans h.position
  | fail code => trivial

/-- The reader after a complete scalar is in the same place. -/
theorem InPlace.endScalar (h : InPlace o r past since rest)
    (inside : r.machine.unfinished ≠ .nothing) : InPlace o r.endScalar (past ++ since) [] rest := by
  have machine := r.machine_endScalar
  have follows := r.follows_endScalar rest
  have root := Machine.root_endScalar (m := r.machine) h.live.root
  have viable := Machine.viable_endScalar (h.viable.root_eq inside)
  have nothing := r.machine.unfinished_endScalar
  have options : r.machine.endScalar.options = r.machine.options :=
    Machine.options_valueCompleted _
  rw [← machine] at root viable options nothing
  have continues := follows.continues h.live.failure root
  refine ⟨options.trans h.options, continues.live, ?_, viable, since_nil nothing⟩
  rw [List.append_nil]
  exact continues.position.trans h.position

theorem inPlace_suspend (h : InPlace o r past since []) : InPlace o r.suspend past since [] where
  options := by
    have same : r.suspend.machine.options = r.machine.options := by rw [machine_suspend]
    exact same.trans h.options
  live := live_suspend h.live
  position := (congrArg Prod.fst r.place_suspend).trans h.position
  viable := r.machine_suspend ▸ h.viable
  since := r.machine_suspend ▸ h.since

theorem inPlace_new (o : ReaderOptions) : InPlace o { options := o } [] [] [] where
  options := rfl
  live := ⟨trivial, rfl, nofun⟩
  position := rfl
  viable := Machine.viable_new o
  since := rfl

end Reader

end JsonStream
