import JsonStream.Proofs.Machine.Spelled
import JsonStream.Proofs.Machine.View

/-!
# What depends on the options

A reader looks at its options in two places only: where a number ends, and at a byte of a string
outside ASCII. Anywhere else a reader with other options (`Reader.under`) does the same.

* `Reader.step_under`, `Reader.atEnd_under`: one byte, and the end of input.
* `Machine.step_under`: one byte for machines, each of which is the machine of a reader.
* `Reader.step_plain`, `Reader.atEnd_plain`: where no number ends, none is reported.
-/

namespace JsonStream

/-- Both options make the same of every number literal. -/
structure ReaderOptions.SameNumbers (o o' : ReaderOptions) : Prop where
  integers : o.integers = o'.integers
  numbers : o.numbers = o'.numbers

theorem ReaderOptions.SameNumbers.ofLiteral_eq {o o' : ReaderOptions} (h : o.SameNumbers o')
    (fractional : Bool) (literal : String) :
    Token.ofLiteral o fractional literal = Token.ofLiteral o' fractional literal := by
  unfold Token.ofLiteral
  rw [h.integers, h.numbers]

namespace Reader

/-- The reader with other options. -/
def under (options : ReaderOptions) (r : Reader) : Reader :=
  { r with options }

variable {o : ReaderOptions} {r : Reader} {byte : UInt8} {rest : Bytes}

@[simp] theorem options_under (o : ReaderOptions) (r : Reader) : (r.under o).options = o := rfl

@[simp] theorem frames_under (o : ReaderOptions) (r : Reader) :
    (r.under o).frames = r.frames := rfl

@[simp] theorem root_under (o : ReaderOptions) (r : Reader) : (r.under o).root = r.root := rfl

@[simp] theorem lexeme_under (o : ReaderOptions) (r : Reader) :
    (r.under o).lexeme = r.lexeme := rfl

@[simp] theorem takesKey_under (o : ReaderOptions) (r : Reader) :
    (r.under o).takesKey = r.takesKey := rfl

@[simp] theorem scalarText_under (o : ReaderOptions) (r : Reader) (segment : Segment) :
    (r.under o).scalarText segment = r.scalarText segment := rfl

/-! ### Values -/

theorem valueStarted_under (o : ReaderOptions) (r : Reader) :
    (r.under o).valueStarted = r.valueStarted.under o := by
  obtain ⟨_, _ | ⟨_, _⟩, _, _, _, _, _, _, _⟩ := r <;> rfl

theorem valueCompleted_under (o : ReaderOptions) (r : Reader) :
    (r.under o).valueCompleted = r.valueCompleted.under o := by
  obtain ⟨_, _ | ⟨_, _⟩, _, _, _, _, _, _, _⟩ := r <;> rfl

theorem endScalar_under (o : ReaderOptions) (r : Reader) :
    (r.under o).endScalar = r.endScalar.under o :=
  valueCompleted_under o { r with lexeme := .none }

theorem openContainer_under (o : ReaderOptions) (r : Reader) (frame : Frame) :
    (r.under o).openContainer frame = (r.openContainer frame).under o := by
  rw [openContainer, valueStarted_under]
  rfl

theorem beginString_under (o : ReaderOptions) (r : Reader) (rest : Bytes) :
    (r.under o).beginString rest = (r.beginString rest).under o := by
  rw [beginString, valueStarted_under]
  rfl

theorem beginNumber_under (o : ReaderOptions) (r : Reader) (phase : Number.Phase) (byte : UInt8)
    (rest : Bytes) :
    (r.under o).beginNumber phase byte rest = (r.beginNumber phase byte rest).under o := by
  rw [beginNumber, valueStarted_under]
  rfl

theorem beginKeyword_under (o : ReaderOptions) (r : Reader) (word : Keyword) :
    (r.under o).beginKeyword word = (r.beginKeyword word).under o := by
  rw [beginKeyword, valueStarted_under]
  rfl

theorem stepValue_under (o : ReaderOptions) (r : Reader) (byte : UInt8) (rest : Bytes) :
    (r.under o).stepValue byte rest = (r.stepValue byte rest).map (under o) := by
  rw [stepValue, stepValue]
  split_ifs
  · rw [Step.map, openContainer_under]
  · rw [Step.map, openContainer_under]
  · rw [Step.map, beginString_under]
  · cases Number.Phase.start? byte with
    | some phase => exact congrArg Step.advance (beginNumber_under o r phase byte rest)
    | none =>
      cases Keyword.ofHead? byte with
      | some word => exact congrArg Step.advance (beginKeyword_under o r word)
      | none => rfl

/-! ### Structure -/

theorem close_under (o : ReaderOptions) (r : Reader) :
    (r.under o).close = r.close.map (under o) := by
  rw [close, close, frames_under]
  cases r.frames with
  | nil => rfl
  | cons frame outer =>
    exact congrArg (Step.emit frame.closing) (valueCompleted_under o { r with frames := outer })

theorem stepArray_under (o : ReaderOptions) (r : Reader) (slot : ArraySlot) (outer : List Frame)
    (byte : UInt8) (rest : Bytes) :
    (r.under o).stepArray slot outer byte rest =
      (r.stepArray slot outer byte rest).map (under o) := by
  cases slot with
  | first =>
    rw [stepArray, stepArray]
    split_ifs
    · exact close_under o r
    · exact stepValue_under o r byte rest
  | value => exact stepValue_under o r byte rest
  | separator =>
    rw [stepArray, stepArray]
    split_ifs
    · rfl
    · exact close_under o r
    · rfl

theorem stepObject_under (o : ReaderOptions) (r : Reader) (slot : ObjectSlot) (outer : List Frame)
    (byte : UInt8) (rest : Bytes) :
    (r.under o).stepObject slot outer byte rest =
      (r.stepObject slot outer byte rest).map (under o) := by
  have text : Step.advance ((r.under o).beginString rest) =
      (Step.advance (r.beginString rest)).map (under o) :=
    congrArg Step.advance (beginString_under o r rest)
  cases slot with
  | first =>
    rw [stepObject, stepObject]
    split_ifs
    · exact text
    · exact close_under o r
    · rfl
  | key =>
    rw [stepObject, stepObject]
    split_ifs
    · exact text
    · rfl
  | colon =>
    rw [stepObject, stepObject]
    split_ifs <;> rfl
  | value => exact stepValue_under o r byte rest
  | separator =>
    rw [stepObject, stepObject]
    split_ifs
    · rfl
    · exact close_under o r
    · rfl

theorem stepStructure_under (o : ReaderOptions) (r : Reader) (byte : UInt8) (rest : Bytes) :
    (r.under o).stepStructure byte rest = (r.stepStructure byte rest).map (under o) := by
  rw [stepStructure, stepStructure, frames_under, root_under]
  split_ifs
  · rfl
  · rcases r.frames with _ | ⟨slot | slot, outer⟩
    · cases r.root with
      | value => exact stepValue_under o r byte rest
      | afterValue => rfl
      | done => rfl
    · exact stepArray_under o r slot outer byte rest
    · exact stepObject_under o r slot outer byte rest

/-! ### Scalars -/

theorem stepKeyword_under (o : ReaderOptions) (r : Reader) (word : Keyword) (missing : Bytes)
    (byte : UInt8) : (r.under o).stepKeyword word missing byte =
      (r.stepKeyword word missing byte).map (under o) := by
  cases missing with
  | nil =>
    rw [stepKeyword, stepKeyword]
    split_ifs
    · rw [Step.map, endScalar_under]
    · rfl
  | cons expected missing =>
    rw [stepKeyword, stepKeyword]
    split_ifs <;> rfl

/-- Completing a number is what looks at the options. -/
theorem endNumber_under (same : o.SameNumbers r.options) (fractional : Bool) (segment : Segment) :
    (r.under o).endNumber fractional segment =
      (r.endNumber fractional segment).map fun done => (done.1, done.2.under o) := by
  rw [endNumber, endNumber, scalarText_under, options_under, endScalar_under]
  cases r.scalarText segment with
  | error code => rfl
  | ok literal =>
    simp only [bind, Except.bind, pure, Except.pure]
    rw [same.ofLiteral_eq]
    cases Token.ofLiteral r.options fractional literal <;> rfl

theorem stepNumber_under {phase : Number.Phase}
    (number : phase.isComplete = true → Byte.endsScalar byte = true → o.SameNumbers r.options)
    (fractional : Bool) (segment : Segment) :
    (r.under o).stepNumber phase fractional segment byte =
      (r.stepNumber phase fractional segment byte).map (under o) := by
  rw [stepNumber, stepNumber]
  cases phase.next? byte with
  | some next => rfl
  | none =>
    dsimp only
    split_ifs with incomplete ends
    · rfl
    · have complete : phase.isComplete = true := by simpa using incomplete
      rw [endNumber_under (number complete ends)]
      cases r.endNumber fractional segment <;> rfl
    · rfl

theorem endString_under (o : ReaderOptions) (r : Reader) (segment : Segment) :
    (r.under o).endString segment =
      (r.endString segment).map fun done => (done.1, done.2.under o) := by
  rw [endString, endString, scalarText_under, takesKey_under, endScalar_under]
  cases r.scalarText segment <;> rfl

theorem stepUtf8_under (o : ReaderOptions) (r : Reader) (utf8 : Utf8.State) (segment : Segment)
    (byte : UInt8) :
    (r.under o).stepUtf8 utf8 segment byte = (r.stepUtf8 utf8 segment byte).map (under o) := by
  rw [stepUtf8, stepUtf8]
  cases utf8.step? byte <;> rfl

/-- A byte of a string outside ASCII is what looks at the encoding. -/
theorem stepText_under (text : byte < 0x80 ∨ o.encoding = r.options.encoding) (utf8 : Utf8.State)
    (segment : Segment) (rest : Bytes) :
    (r.under o).stepText utf8 segment byte rest =
      (r.stepText utf8 segment byte rest).map (under o) := by
  rw [stepText, stepText, options_under]
  split_ifs with sequence quote backslash space ascii
  · exact stepUtf8_under o r utf8 segment byte
  · rw [endString_under]
    cases r.endString segment <;> rfl
  · rfl
  · rfl
  · rfl
  · rw [text.resolve_left ascii]
    cases r.options.encoding with
    | utf8 => exact stepUtf8_under o r utf8 segment byte
    | latin1 => rfl

theorem pushEscaped_under (o : ReaderOptions) (r : Reader) (c : Option Char) (rest : Bytes) :
    (r.under o).pushEscaped c rest = (r.pushEscaped c rest).map (under o) := by
  cases c <;> rfl

theorem stepEscape_under (o : ReaderOptions) (r : Reader) (state : EscapeState) (byte : UInt8)
    (rest : Bytes) :
    (r.under o).stepEscape state byte rest = (r.stepEscape state byte rest).map (under o) := by
  cases state with
  | start =>
    rw [stepEscape, stepEscape]
    split_ifs
    · rfl
    · cases Escape.short? byte <;> rfl
  | unit digits =>
    rw [stepEscape, stepEscape]
    cases digits.push? byte with
    | none => rfl
    | some digits =>
      dsimp only
      cases digits.unit? with
      | none => rfl
      | some unit =>
        dsimp only
        split_ifs
        · rfl
        · exact pushEscaped_under o r _ rest
  | needBackslash high =>
    rw [stepEscape, stepEscape]
    split_ifs <;> rfl
  | needMark high =>
    rw [stepEscape, stepEscape]
    split_ifs <;> rfl
  | secondUnit high digits =>
    rw [stepEscape, stepEscape]
    cases digits.push? byte with
    | none => rfl
    | some digits =>
      dsimp only
      cases digits.unit? with
      | none => rfl
      | some low => exact pushEscaped_under o r _ rest

/-! ### Any byte and the end of input -/

/-- The reader is in a number that may end where it stands. -/
def InWholeNumber (r : Reader) : Prop :=
  match r.lexeme with
  | .number phase _ _ => phase.isComplete = true
  | .none | .keyword .. | .text .. | .escape _ => False

/-- **Only the end of a number and a byte outside ASCII look at the options.** -/
theorem step_under (text : byte < 0x80 ∨ o.encoding = r.options.encoding)
    (number : r.InWholeNumber → Byte.endsScalar byte = true → o.SameNumbers r.options)
    (rest : Bytes) : (r.under o).step byte rest = (r.step byte rest).map (under o) := by
  rw [step, step, lexeme_under]
  rw [InWholeNumber] at number
  cases lexeme : r.lexeme with
  | none => exact stepStructure_under o r byte rest
  | keyword word missing => exact stepKeyword_under o r word missing byte
  | number phase fractional segment =>
    rw [lexeme] at number
    exact stepNumber_under number fractional segment
  | text utf8 segment => exact stepText_under text utf8 segment rest
  | escape state => exact stepEscape_under o r state byte rest

theorem suspend_under (o : ReaderOptions) (r : Reader) :
    (r.under o).suspend = r.suspend.under o := by
  obtain ⟨_, _, _, _ | _ | _ | _ | _, _, _, _, _, _⟩ := r <;> rfl

theorem atEnd_under (number : r.InWholeNumber → o.SameNumbers r.options) :
    (r.under o).atEnd = r.atEnd.map fun done => (done.1, done.2.under o) := by
  rw [atEnd, atEnd, lexeme_under, frames_under, root_under, endScalar_under]
  rw [InWholeNumber] at number
  cases lexeme : r.lexeme with
  | none =>
    dsimp only
    split_ifs <;> rfl
  | keyword word missing => cases missing <;> rfl
  | number phase fractional segment =>
    rw [lexeme] at number
    dsimp only
    split_ifs with complete
    · exact endNumber_under (number complete) fractional segment
    · rfl
  | text utf8 segment => rfl
  | escape state => rfl

end Reader

/-! ### Tokens that are not numbers -/

/-- What a step reports is no number. -/
def Step.Plain {σ : Type} : Step σ → Prop
  | .emit token _ | .emitBefore token _ => token.isNumber = false
  | .advance _ | .fail _ => True

namespace Reader

variable {o : ReaderOptions} {r : Reader} {byte : UInt8} {rest : Bytes}

theorem stepValue_plain (r : Reader) (byte : UInt8) (rest : Bytes) :
    (r.stepValue byte rest).Plain := by
  rw [stepValue]
  repeat' split
  all_goals first
    | rfl
    | trivial

theorem close_plain (r : Reader) : r.close.Plain := by
  rw [close]
  split
  · trivial
  · rename_i frame _ _
    cases frame <;> rfl

theorem stepStructure_plain (r : Reader) (byte : UInt8) (rest : Bytes) :
    (r.stepStructure byte rest).Plain := by
  simp only [stepStructure, stepArray, stepObject]
  repeat' split
  all_goals first
    | exact r.stepValue_plain byte rest
    | exact r.close_plain
    | trivial

theorem stepText_plain (r : Reader) (utf8 : Utf8.State) (segment : Segment) (byte : UInt8)
    (rest : Bytes) : (r.stepText utf8 segment byte rest).Plain := by
  rw [stepText, stepUtf8]
  split_ifs
  · split <;> trivial
  · rw [endString]
    cases r.scalarText segment with
    | error code => trivial
    | ok text =>
      show (if r.takesKey = true then Token.key text else Token.string text).isNumber = false
      split_ifs <;> rfl
  · trivial
  · trivial
  · trivial
  · repeat' split
    all_goals trivial

/-- Where no number ends, none is reported. -/
theorem step_plain (number : r.InWholeNumber → Byte.endsScalar byte = false) (rest : Bytes) :
    (r.step byte rest).Plain := by
  rw [InWholeNumber] at number
  rw [step]
  cases lexeme : r.lexeme with
  | none => exact r.stepStructure_plain byte rest
  | keyword word missing =>
    dsimp only
    simp only [stepKeyword]
    repeat' split
    all_goals first
      | exact Token.isNumber_ofKeyword word
      | trivial
  | number phase fractional segment =>
    rw [lexeme] at number
    dsimp only
    rw [stepNumber]
    split
    · trivial
    · split_ifs with incomplete ends
      · trivial
      · have complete : phase.isComplete = true := by simpa using incomplete
        rw [number complete] at ends
        contradiction
      · trivial
  | text utf8 segment => exact r.stepText_plain utf8 segment byte rest
  | escape state =>
    dsimp only
    simp only [stepEscape, pushEscaped]
    repeat' split
    all_goals trivial

theorem atEnd_plain (number : ¬r.InWholeNumber) {token : Token} {next : Reader}
    (h : r.atEnd = .ok (token, next)) : token.isNumber = false := by
  rw [InWholeNumber] at number
  rw [atEnd] at h
  cases lexeme : r.lexeme with
  | none =>
    rw [lexeme] at h
    dsimp only at h
    split_ifs at h
    cases h
    rfl
  | keyword word missing =>
    rw [lexeme] at h
    cases missing with
    | nil =>
      cases h
      exact Token.isNumber_ofKeyword word
    | cons => contradiction
  | number phase fractional segment =>
    rw [lexeme] at h number
    dsimp only at h
    rw [if_neg number] at h
    contradiction
  | text =>
    rw [lexeme] at h
    contradiction
  | escape =>
    rw [lexeme] at h
    contradiction

end Reader

/-! ### Machines and readers -/

theorem Step.map_map {ρ σ τ : Type} (step : Step ρ) (f : ρ → σ) (g : σ → τ) :
    (step.map f).map g = step.map fun next => g (f next) := by
  cases step <;> rfl

namespace Machine

/-- The machine with other options. -/
def under (options : ReaderOptions) (m : Machine) : Machine :=
  { m with options }

@[simp] theorem options_under (o : ReaderOptions) (m : Machine) : (m.under o).options = o := rfl

@[simp] theorem frames_under (o : ReaderOptions) (m : Machine) :
    (m.under o).frames = m.frames := rfl

@[simp] theorem root_under (o : ReaderOptions) (m : Machine) : (m.under o).root = m.root := rfl

@[simp] theorem unfinished_under (o : ReaderOptions) (m : Machine) :
    (m.under o).unfinished = m.unfinished := rfl

/-- A reader that has carried over all bytes of the scalar in progress. -/
def reader (m : Machine) (unread : Bytes) : Reader where
  options := m.options
  frames := m.frames
  root := m.root
  lexeme :=
    match m.unfinished with
    | .nothing => .none
    | .keyword word missing => .keyword word missing
    | .number phase fractional _ => .number phase fractional (.resume unread)
    | .text utf8 _ => .text utf8 (.resume unread)
    | .escape state _ => .escape state
  carry :=
    match m.unfinished with
    | .number _ _ bytes | .text _ bytes | .escape _ bytes => bytes.reverse
    | .nothing | .keyword .. => []

theorem machine_reader (m : Machine) (unread : Bytes) : (m.reader unread).machine = m := by
  obtain ⟨options, frames, root, unfinished⟩ := m
  cases unfinished with
  | nothing => rfl
  | keyword word missing => rfl
  | number phase fractional literal =>
    simp [Reader.machine, reader, Lexeme.unfinished, Reader.carried]
  | text utf8 content => simp [Reader.machine, reader, Lexeme.unfinished, Reader.carried]
  | escape state content => simp [Reader.machine, reader, Lexeme.unfinished, Reader.carried]

theorem aligned_reader (m : Machine) (unread : Bytes) : (m.reader unread).Aligned unread := by
  obtain ⟨options, frames, root, unfinished⟩ := m
  cases unfinished with
  | number phase fractional literal => exact Segment.aligned_resume _ unread
  | text utf8 content => exact Segment.aligned_resume _ unread
  | _ => trivial

/-- Only the end of a number and a byte outside ASCII look at the options. -/
theorem step_under {m : Machine} {o : ReaderOptions} {byte : UInt8} (ascii : byte < 0x80)
    (same : o.SameNumbers m.options) : (m.under o).step byte = (m.step byte).map (under o) := by
  have step := Reader.machine_step (m.aligned_reader [byte])
  have step' := Reader.machine_step ((m.under o).aligned_reader [byte])
  have under := Reader.step_under (r := m.reader [byte]) (.inl ascii) (fun _ _ => same) []
  have reader : (m.under o).reader [byte] = (m.reader [byte]).under o := rfl
  rw [machine_reader] at step step'
  rw [reader, under, Step.map_map] at step'
  rw [← step, ← step', Step.map_map]
  rfl

end Machine

end JsonStream
