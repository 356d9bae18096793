import Mathlib.Tactic.SplitIfs
import JsonStream.Proofs.Outline.Frames

/-!
# Readers keep to outlines

A reader stands at the outline of the document that it has reported: its frames show it, and a
scalar in progress stands where a value or a key may come next. Every step keeps it so, whatever the
bytes are and however they are cut, and the token that it reports is one that the outline takes.

* `Reader.step_keeps`: one byte.
* `Reader.atEnd_keeps`: the end of input.
* `Feed.next_keeps`: one call.
-/

namespace JsonStream

namespace Reader

/-- A scalar in progress stands where a value is read, or a key if it is a string. -/
def Fits (r : Reader) : Prop :=
  match r.lexeme with
  | .none => True
  | .keyword .. | .number .. => r.TakesValue
  | .text .. | .escape _ => r.TakesValue ∨ r.takesKey = true

/-- **The reader has reported the document up to an outline.** -/
structure At (r : Reader) (o : Outline) : Prop where
  shows : Shows r.frames r.root o
  fits : r.Fits
  failure : ∀ e ∈ r.failure, e.code ≠ .stackEmpty

variable {r : Reader} {o : Outline}

theorem failure_valueStarted (r : Reader) : r.valueStarted.failure = r.failure :=
  congrArg (fun place => place.2.2.2) r.place_valueStarted

theorem failure_valueCompleted (r : Reader) : r.valueCompleted.failure = r.failure :=
  congrArg (fun place => place.2.2.2) r.place_valueCompleted

theorem fits_of_lexeme_eq_none (h : r.lexeme = .none) : r.Fits := by
  rw [Fits, h]
  trivial

/-- After a value or a key the containers around it go on. -/
theorem at_valueCompleted {slots : List Slot} (failure : ∀ e ∈ r.failure, e.code ≠ .stackEmpty)
    (idle : r.lexeme = .none) (root : r.root = .value) (outer : Enclose r.frames slots) :
    r.valueCompleted.At (.around slots) where
  shows := shows_valueCompleted root outer
  fits := fits_of_lexeme_eq_none (r.lexeme_valueCompleted.trans idle)
  failure := by
    rw [failure_valueCompleted]
    exact failure

end Reader

/-! ### What steps do -/

/-- What a step reports, the outline takes; and no container is closed that has not been opened. -/
def Step.Keeps (o : Outline) : Step Reader → Prop
  | .advance next => next.At o
  | .emit token next | .emitBefore token next => ∃ after, o.Takes token after ∧ next.At after
  | .fail code => code ≠ .stackEmpty

theorem Step.keeps_fail {o : Outline} {code : ErrorCode} (other : code ≠ .stackEmpty) :
    (Step.fail code).Keeps o :=
  other

namespace Reader

variable {r : Reader} {o : Outline}

/-- A scalar starts. -/
theorem At.begin {lexeme : Lexeme} {carry : Bytes} (h : r.At o)
    (fits : { r.valueStarted with lexeme, carry }.Fits) :
    { r.valueStarted with lexeme, carry }.At o where
  shows := shows_valueStarted h.shows
  fits := fits
  failure := by
    show ∀ e ∈ r.valueStarted.failure, _
    rw [failure_valueStarted]
    exact h.failure

/-- A container is opened where a value is due. -/
theorem At.openContainer {frame : Frame} {slot : Slot} (h : r.At o) (idle : r.lexeme = .none)
    (takes : r.TakesValue) (first : frame.Shows slot) :
    (r.openContainer frame).At (.inside slot o.filled) := by
  obtain ⟨root, -, outer⟩ := Shows.value (shows_valueStarted h.shows) (takesValue_valueStarted takes)
  refine ⟨?_, ?_, ?_⟩
  · show Shows (frame :: r.valueStarted.frames) r.valueStarted.root _
    rw [root]
    exact .inside first outer
  · exact fits_of_lexeme_eq_none (r.lexeme_valueStarted.trans idle)
  · show ∀ e ∈ r.valueStarted.failure, _
    rw [failure_valueStarted]
    exact h.failure

theorem stepValue_keeps (h : r.At o) (idle : r.lexeme = .none) (takes : r.TakesValue)
    (byte : UInt8) (rest : Bytes) : (r.stepValue byte rest).Keeps o := by
  have due := (Shows.value h.shows takes).2.1
  have started := takesValue_valueStarted takes
  rw [stepValue]
  split_ifs
  · exact ⟨_, .beginArray due, h.openContainer idle takes rfl⟩
  · exact ⟨_, .beginObject due, h.openContainer idle takes rfl⟩
  · exact h.begin (.inl started)
  · cases Number.Phase.start? byte with
    | some phase => exact h.begin started
    | none =>
      cases Keyword.ofHead? byte with
      | some keyword => exact h.begin started
      | none => exact Step.keeps_fail (by decide)

/-- Between tokens the innermost container goes on, or it is closed. -/
theorem At.goOn {frame : Frame} {slot : Slot} {frames : List Frame} {slots : List Slot}
    (h : r.At (.inside slot slots)) (idle : r.lexeme = .none) (root : r.root = .value)
    (innermost : frame.Shows slot) (outer : Enclose frames slots) :
    { r with frames := frame :: frames }.At (.inside slot slots) where
  shows := by
    show Shows _ r.root _
    rw [root]
    exact .inside innermost outer
  fits := fits_of_lexeme_eq_none idle
  failure := h.failure

theorem At.closeContainer {frames : List Frame} {slots : List Slot} (h : r.At o)
    (idle : r.lexeme = .none) (root : r.root = .value) (outer : Enclose frames slots) :
    (r.closeContainer frames).At (.around slots) :=
  at_valueCompleted (r := { r with frames }) h.failure idle root outer

section
variable {slot : Slot} {slots : List Slot} {frames : List Frame}

theorem stepArray_keeps {next : ArraySlot} (h : r.At (.inside slot slots)) (idle : r.lexeme = .none)
    (root : r.root = .value) (top : r.frames = .array next :: frames)
    (innermost : (Frame.array next).Shows slot) (outer : Enclose frames slots) (byte : UInt8)
    (rest : Bytes) : (r.stepArray next frames byte rest).Keeps (.inside slot slots) := by
  have value : (Frame.array next).takesValue = true →
      (r.stepValue byte rest).Keeps (.inside slot slots) := by
    intro takes
    refine stepValue_keeps h idle ?_ byte rest
    rw [TakesValue, top]
    exact takes
  have closed : slot.inArray = true → r.close.Keeps (.inside slot slots) := by
    intro array
    rw [close_of_frames top]
    exact ⟨_, .endArray array, h.closeContainer idle root outer⟩
  cases next with
  | first =>
    cases innermost
    rw [stepArray]
    split_ifs
    · exact closed rfl
    · exact value rfl
  | value => exact value rfl
  | separator =>
    cases innermost
    rw [stepArray]
    split_ifs
    · exact h.goOn idle root rfl outer
    · exact closed rfl
    · exact Step.keeps_fail (by decide)

theorem stepObject_keeps {next : ObjectSlot} (h : r.At (.inside slot slots))
    (idle : r.lexeme = .none) (root : r.root = .value) (top : r.frames = .object next :: frames)
    (innermost : (Frame.object next).Shows slot) (outer : Enclose frames slots) (byte : UInt8)
    (rest : Bytes) : (r.stepObject next frames byte rest).Keeps (.inside slot slots) := by
  have key : (Frame.object next).takesKey = true →
      (Step.advance (r.beginString rest)).Keeps (.inside slot slots) := by
    intro takes
    refine h.begin (.inr (takesKey_valueStarted ?_))
    rw [takesKey, top]
    exact takes
  have closed : slot.filled = .memberValue → r.close.Keeps (.inside slot slots) := by
    intro place
    rw [close_of_frames top]
    exact ⟨_, .endObject place, h.closeContainer idle root outer⟩
  cases next with
  | first =>
    cases innermost
    rw [stepObject]
    split_ifs
    · exact key rfl
    · exact closed rfl
    · exact Step.keeps_fail (by decide)
  | key =>
    rw [stepObject]
    split_ifs
    · exact key rfl
    · exact Step.keeps_fail (by decide)
  | colon =>
    cases innermost
    rw [stepObject]
    split_ifs
    · exact h.goOn idle root rfl outer
    · exact Step.keeps_fail (by decide)
  | value =>
    refine stepValue_keeps h idle ?_ byte rest
    rw [TakesValue, top]
    rfl
  | separator =>
    cases innermost
    rw [stepObject]
    split_ifs
    · exact h.goOn idle root rfl outer
    · exact closed rfl
    · exact Step.keeps_fail (by decide)

end

theorem stepStructure_keeps (h : r.At o) (idle : r.lexeme = .none) (byte : UInt8) (rest : Bytes) :
    (r.stepStructure byte rest).Keeps o := by
  have shows := h.shows
  rw [stepStructure]
  split_ifs
  · exact h
  · cases frames : r.frames with
    | nil =>
      dsimp only
      cases root : r.root with
      | value =>
        refine stepValue_keeps h idle ?_ byte rest
        rw [TakesValue, frames]
        exact root
      | afterValue | done => exact Step.keeps_fail (by decide)
    | cons frame outer =>
      rw [frames] at shows
      generalize root : r.root = found at shows
      cases shows with
      | inside innermost enclosed =>
        cases frame with
        | array next => exact stepArray_keeps h idle root frames innermost enclosed byte rest
        | object next => exact stepObject_keeps h idle root frames innermost enclosed byte rest

/-! ### Scalars -/

/-- A complete value is one that the outline takes. -/
theorem At.endScalar {token : Token} {v : Value} (h : r.At o) (takes : r.TakesValue)
    (alone : token.scalar? = some v) : ∃ after, o.Takes token after ∧ r.endScalar.At after := by
  obtain ⟨root, due, outer⟩ := Shows.value h.shows takes
  have after := at_valueCompleted (r := { r with lexeme := .none }) h.failure rfl root outer
  exact ⟨_, .scalar due alone, after⟩

/-- A complete key is one that the outline takes. -/
theorem At.endKey (h : r.At o) (takes : r.takesKey = true) (text : String) :
    ∃ after, o.Takes (.key text) after ∧ r.endScalar.At after := by
  obtain ⟨root, slot, outer, rfl, place, enclosed⟩ := Shows.key h.shows takes
  have after := at_valueCompleted (r := { r with lexeme := .none }) h.failure rfl root enclosed
  rw [Outline.filled, place] at after
  exact ⟨_, .key place, after⟩

theorem scalar?_ofKeyword (word : Keyword) : ∃ v, (Token.ofKeyword word).scalar? = some v := by
  cases word <;> exact ⟨_, rfl⟩

theorem stepKeyword_keeps (h : r.At o) (takes : r.TakesValue) (word : Keyword) (missing : Bytes)
    (byte : UInt8) : (r.stepKeyword word missing byte).Keeps o := by
  cases missing with
  | cons expected missing =>
    rw [stepKeyword]
    split_ifs
    · exact ⟨h.shows, takes, h.failure⟩
    · exact Step.keeps_fail (by decide)
  | nil =>
    obtain ⟨v, alone⟩ := scalar?_ofKeyword word
    rw [stepKeyword]
    split_ifs
    · exact h.endScalar takes alone
    · exact Step.keeps_fail (by decide)

/-- What completing a scalar gives is taken by the outline, or there is a reason for it. -/
def EndKeeps (o : Outline) (ended : Except ErrorCode (Token × Reader)) : Prop :=
  match ended with
  | .ok (token, next) => ∃ after, o.Takes token after ∧ next.At after
  | .error code => code ≠ .stackEmpty

theorem endKeeps_error {code : ErrorCode} (other : code ≠ .stackEmpty) :
    EndKeeps o (.error code) :=
  other

theorem ofLiteral_ne_stackEmpty (options : ReaderOptions) (fractional : Bool) (literal : String) :
    Token.ofLiteral options fractional literal ≠ .error .stackEmpty := by
  unfold Token.ofLiteral
  dsimp only
  repeat' split
  all_goals
    intro h
    cases h

theorem scalarText_ne_stackEmpty (r : Reader) (segment : Segment) :
    r.scalarText segment ≠ .error .stackEmpty := by
  rw [scalarText]
  split <;> intro h <;> cases h

theorem endNumber_keeps (h : r.At o) (takes : r.TakesValue) (fractional : Bool)
    (segment : Segment) : EndKeeps o (r.endNumber fractional segment) := by
  rw [endNumber]
  cases text : r.scalarText segment with
  | error code =>
    rintro rfl
    exact r.scalarText_ne_stackEmpty segment text
  | ok literal =>
    simp only [bind, Except.bind, pure, Except.pure]
    cases read : Token.ofLiteral r.options fractional literal with
    | error code =>
      rintro rfl
      exact ofLiteral_ne_stackEmpty _ _ _ read
    | ok token =>
      obtain ⟨n, rfl⟩ := Machine.exists_numeral read
      exact h.endScalar takes (Value.scalar?_token n)

theorem endString_keeps (h : r.At o) (takes : r.TakesValue ∨ r.takesKey = true)
    (segment : Segment) : EndKeeps o (r.endString segment) := by
  rw [endString]
  cases text : r.scalarText segment with
  | error code =>
    rintro rfl
    exact r.scalarText_ne_stackEmpty segment text
  | ok decoded =>
    simp only [bind, Except.bind, pure, Except.pure]
    by_cases key : r.takesKey = true
    · rw [if_pos key]
      exact h.endKey key decoded
    · rw [if_neg key]
      exact h.endScalar (takes.resolve_right key) rfl

theorem stepNumber_keeps (h : r.At o) (takes : r.TakesValue) (phase : Number.Phase)
    (fractional : Bool) (segment : Segment) (byte : UInt8) :
    (r.stepNumber phase fractional segment byte).Keeps o := by
  rw [stepNumber]
  cases phase.next? byte with
  | some next => exact ⟨h.shows, takes, h.failure⟩
  | none =>
    dsimp only
    split_ifs
    · exact Step.keeps_fail (by decide)
    · have ended := endNumber_keeps h takes fractional segment
      cases result : r.endNumber fractional segment with
      | error code =>
        rw [result] at ended
        exact ended
      | ok done =>
        rw [result] at ended
        exact ended
    · exact Step.keeps_fail (by decide)

theorem stepUtf8_keeps (h : r.At o) (takes : r.TakesValue ∨ r.takesKey = true) (utf8 : Utf8.State)
    (segment : Segment) (byte : UInt8) : (r.stepUtf8 utf8 segment byte).Keeps o := by
  rw [stepUtf8]
  cases utf8.step? byte with
  | some next => exact ⟨h.shows, takes, h.failure⟩
  | none => exact Step.keeps_fail (by decide)

theorem stepText_keeps (h : r.At o) (takes : r.TakesValue ∨ r.takesKey = true) (utf8 : Utf8.State)
    (segment : Segment) (byte : UInt8) (rest : Bytes) :
    (r.stepText utf8 segment byte rest).Keeps o := by
  rw [stepText]
  split_ifs
  · exact stepUtf8_keeps h takes utf8 segment byte
  · have ended := endString_keeps h takes segment
    cases result : r.endString segment with
    | error code =>
      rw [result] at ended
      exact ended
    | ok done =>
      rw [result] at ended
      exact ended
  · exact ⟨h.shows, takes, h.failure⟩
  · exact Step.keeps_fail (by decide)
  · exact ⟨h.shows, takes, h.failure⟩
  · cases r.options.encoding with
    | utf8 => exact stepUtf8_keeps h takes utf8 segment byte
    | latin1 => exact ⟨h.shows, takes, h.failure⟩

theorem pushEscaped_keeps (h : r.At o) (takes : r.TakesValue ∨ r.takesKey = true) (c : Option Char)
    (rest : Bytes) : (r.pushEscaped c rest).Keeps o := by
  cases c with
  | some c => exact ⟨h.shows, takes, h.failure⟩
  | none => exact Step.keeps_fail (by decide)

theorem stepEscape_keeps (h : r.At o) (takes : r.TakesValue ∨ r.takesKey = true)
    (state : EscapeState) (byte : UInt8) (rest : Bytes) :
    (r.stepEscape state byte rest).Keeps o := by
  have inside : ∀ state, (r.inEscape state).At o := fun _ => ⟨h.shows, takes, h.failure⟩
  simp only [stepEscape]
  repeat' split
  all_goals first
    | exact inside _
    | exact pushEscaped_keeps h takes _ rest
    | exact ⟨h.shows, takes, h.failure⟩
    | exact Step.keeps_fail (by decide)

/-- **Every step keeps to the outline.** -/
theorem step_keeps (h : r.At o) (byte : UInt8) (rest : Bytes) : (r.step byte rest).Keeps o := by
  have fits := h.fits
  rw [Fits] at fits
  rw [step]
  cases lexeme : r.lexeme with
  | none => exact stepStructure_keeps h lexeme byte rest
  | keyword word missing =>
    rw [lexeme] at fits
    exact stepKeyword_keeps h fits word missing byte
  | number phase fractional segment =>
    rw [lexeme] at fits
    exact stepNumber_keeps h fits phase fractional segment byte
  | text utf8 segment =>
    rw [lexeme] at fits
    exact stepText_keeps h fits utf8 segment byte rest
  | escape state =>
    rw [lexeme] at fits
    exact stepEscape_keeps h fits state byte rest

/-! ### The end of a chunk and of input -/

theorem At.suspend (h : r.At o) : r.suspend.At o := by
  have fits := h.fits
  rw [Fits] at fits
  rw [Reader.suspend]
  cases lexeme : r.lexeme with
  | number phase fractional segment =>
    rw [lexeme] at fits
    exact ⟨h.shows, fits, h.failure⟩
  | text utf8 segment =>
    rw [lexeme] at fits
    exact ⟨h.shows, fits, h.failure⟩
  | _ => exact h

/-- Attaching a chunk keeps to the outline. -/
theorem At.feed {chunk : Bytes} {f : Feed} (h : r.At o) (fed : r.feed chunk = .ok f) :
    f.reader.At o := by
  have fits := h.fits
  rw [Fits] at fits
  rw [Reader.feed] at fed
  split at fed
  · contradiction
  · split_ifs at fed
    cases fed
    refine ⟨h.shows, ?_, h.failure⟩
    rw [Fits]
    cases lexeme : r.lexeme <;> rw [lexeme] at fits <;> exact fits

/-- Detaching one does as well. -/
theorem At.release {f : Feed} (h : f.reader.At o) : f.release.At o :=
  ⟨h.shows, h.fits, h.failure⟩

/-- A chunk is refused for a failure of the reader only if it has failed before. -/
theorem At.feed_failed {chunk : Bytes} {e : ParseError} (h : r.At o)
    (refused : r.feed chunk = .error (.failed e)) : e.code ≠ .stackEmpty := by
  rw [Reader.feed] at refused
  split at refused
  · cases refused
    exact h.failure _ ‹_›
  · split_ifs at refused <;> cases refused

/-- The end of input keeps to the outline. -/
theorem atEnd_keeps (h : r.At o) : EndKeeps o r.atEnd := by
  have fits := h.fits
  rw [Fits] at fits
  rw [atEnd]
  cases lexeme : r.lexeme with
  | none =>
    dsimp only
    split_ifs with complete
    · have shows := h.shows
      rw [complete.1, complete.2] at shows
      cases shows
      refine ⟨_, .done, ?_, ?_, h.failure⟩
      · show Shows r.frames .done .complete
        rw [complete.1]
        exact .complete (by decide)
      · exact fits_of_lexeme_eq_none rfl
    · exact endKeeps_error (by decide)
  | keyword word missing =>
    rw [lexeme] at fits
    cases missing with
    | nil =>
      obtain ⟨v, alone⟩ := scalar?_ofKeyword word
      exact h.endScalar fits alone
    | cons => exact endKeeps_error (by decide)
  | number phase fractional segment =>
    rw [lexeme] at fits
    dsimp only
    split_ifs
    · exact endNumber_keeps h fits fractional segment
    · exact endKeeps_error (by decide)
  | text | escape => exact endKeeps_error (by decide)

end Reader

/-! ### Calls -/

/-- What a call reports, the outline takes. A request for more input and a failure leave it as it
is. -/
def Call.Keeps (o : Outline) : Call → Prop
  | (.ok .needMore, f) => f.reader.At o
  | (.ok token, f) => ∃ after, o.Takes token after ∧ f.reader.At after
  | (.error e, f) => e.code ≠ .stackEmpty ∧ f.reader.At o

theorem Call.keeps_of_takes {o after : Outline} {token : Token} {f : Feed}
    (takes : o.Takes token after) (stands : f.reader.At after) : Call.Keeps o (.ok token, f) := by
  cases token with
  | needMore =>
    cases takes with
    | scalar _ alone => contradiction
  | _ => exact ⟨after, takes, stands⟩

namespace Reader

variable {r : Reader} {o : Outline}

theorem failWith_keeps (h : r.At o) {code : ErrorCode} (other : code ≠ .stackEmpty)
    (rest : Bytes) : Call.Keeps o ((r.failWith code).1, ⟨(r.failWith code).2, rest⟩) := by
  refine ⟨other, h.shows, trivial, ?_⟩
  rintro e ⟨⟩
  exact other

/-- **One call keeps to the outline**, whatever is left of the chunk. -/
theorem scan_keeps (h : r.At o) (input : Bytes) : Call.Keeps o (r.scan input) := by
  induction input generalizing r with
  | nil =>
    rw [scan]
    split_ifs
    · have ended := atEnd_keeps h
      cases result : r.atEnd with
      | error code =>
        rw [result] at ended
        exact failWith_keeps h ended []
      | ok done =>
        rw [result] at ended
        obtain ⟨after, takes, stands⟩ := ended
        exact Call.keeps_of_takes (f := ⟨done.2, []⟩) takes stands
    · exact h.suspend
  | cons byte rest ih =>
    have keeps := step_keeps h byte rest
    rw [scan]
    cases step : r.step byte rest with
    | advance next =>
      rw [step] at keeps
      exact ih (r := next.moveOver byte) ⟨keeps.shows, keeps.fits, keeps.failure⟩
    | emit token next =>
      rw [step] at keeps
      obtain ⟨after, takes, stands⟩ := keeps
      exact Call.keeps_of_takes (f := ⟨next.moveOver byte, rest⟩) takes
        ⟨stands.shows, stands.fits, stands.failure⟩
    | emitBefore token next =>
      rw [step] at keeps
      obtain ⟨after, takes, stands⟩ := keeps
      exact Call.keeps_of_takes (f := ⟨next, byte :: rest⟩) takes stands
    | fail code =>
      rw [step] at keeps
      exact failWith_keeps h keeps (byte :: rest)

/-- A new reader has reported nothing. -/
theorem at_start (options : ReaderOptions) : At { options } .start :=
  ⟨.start, trivial, nofun⟩

/-- The depth of a reader is that of the document. -/
theorem At.depth_eq (h : r.At o) : r.depth = o.slots.length := by
  have shows := h.shows
  rw [depth]
  generalize r.frames = frames, r.root = root at shows ⊢
  cases shows with
  | start | complete => rfl
  | inside innermost outer => exact congrArg (· + 1) outer.length_eq

end Reader

/-- **Every call keeps to the outline**, also after a failure and after the end. -/
theorem Feed.next_keeps {f : Feed} {o : Outline} (h : f.reader.At o) : Call.Keeps o f.next := by
  rw [next]
  cases failure : f.reader.failure with
  | some e => exact ⟨h.failure e failure, h⟩
  | none =>
    dsimp only
    cases root : f.reader.root with
    | value | afterValue => exact Reader.scan_keeps h f.rest
    | done =>
      have shows := h.shows
      rw [root] at shows
      generalize f.reader.frames = frames at shows
      cases shows
      exact ⟨_, .done, h⟩

end JsonStream
