import Mathlib.Tactic.SplitIfs
import JsonStream.Proofs.Machine

/-!
# The machine of a reader

A reader shows its machine once the carried bytes of the scalar in progress and its raw bytes are
put together. They are put together rightly as long as the segment lies right before the unread
bytes (`Reader.Aligned`), and every step keeps it there.

* `Reader.machine_step`: an aligned reader steps like its machine.
* `Reader.step_all`: it stays aligned, and a step changes neither the position nor what is known of
  the chunk.
-/

namespace JsonStream

/-! ### Segments -/

namespace Segment

/-- The segment lies right before the unread bytes, and nothing is carried unless it says so. -/
structure Aligned (segment : Segment) (carry unread : Bytes) : Prop where
  drop_start : segment.start.drop segment.length = unread
  carry_eq_nil : segment.carried = false → carry = []

theorem raw_extend {segment : Segment} {byte : UInt8} {rest : Bytes}
    (h : segment.start.drop segment.length = byte :: rest) :
    segment.extend.raw = segment.raw ++ [byte] := by
  have head : segment.start[segment.length]? = some byte := by
    rw [← Nat.add_zero segment.length, ← List.getElem?_drop, h, List.getElem?_cons_zero]
  show segment.start.take (segment.length + 1) = segment.start.take segment.length ++ [byte]
  rw [List.take_add_one, head, Option.toList_some]

theorem Aligned.extend {segment : Segment} {carry rest : Bytes} {byte : UInt8}
    (h : segment.Aligned carry (byte :: rest)) : segment.extend.Aligned carry rest where
  drop_start := by
    show segment.start.drop (segment.length + 1) = rest
    rw [← List.drop_drop, h.drop_start, List.drop_succ_cons, List.drop_zero]
  carry_eq_nil := h.carry_eq_nil

@[simp] theorem raw_resume (rest : Bytes) : (resume rest).raw = [] := rfl

theorem aligned_resume (carry rest : Bytes) : (resume rest).Aligned carry rest where
  drop_start := rfl
  carry_eq_nil := nofun

end Segment

/-- The scalar in progress, given the bytes carried for it. -/
def Lexeme.unfinished (carried : Bytes) : Lexeme → Unfinished
  | .none => .nothing
  | .keyword word missing => .keyword word missing
  | .number phase fractional segment => .number phase fractional (carried ++ segment.raw)
  | .text utf8 segment => .text utf8 (carried ++ segment.raw)
  | .escape state => .escape state carried

/-- The raw bytes of the scalar in progress lie right before the unread bytes. -/
def Lexeme.Aligned (carry unread : Bytes) : Lexeme → Prop
  | .number _ _ segment | .text _ segment => segment.Aligned carry unread
  | .none | .keyword .. | .escape _ => True

/-- What holds of every state that a step may lead to. -/
def Step.All {σ : Type} (P : σ → Prop) : Step σ → Prop
  | .advance next | .emit _ next | .emitBefore _ next => P next
  | .fail _ => True

namespace Reader

/-- The reader without its buffers. -/
def machine (r : Reader) : Machine :=
  { options := r.options, frames := r.frames, root := r.root,
    unfinished := r.lexeme.unfinished r.carried }

/-- The raw bytes of the scalar in progress lie right before the unread bytes. -/
def Aligned (r : Reader) (unread : Bytes) : Prop :=
  r.lexeme.Aligned r.carry unread

/-- What a reader knows of its place in the input: no step changes it. -/
def place (r : Reader) : Position × Bool × Nat × Option ParseError :=
  (r.position, r.closed, r.unread, r.failure)

/-- What is unfinished of the lexeme in progress. -/
theorem unfinished_of_lexeme_eq {r : Reader} {lexeme : Lexeme} (h : r.lexeme = lexeme) :
    r.machine.unfinished = lexeme.unfinished r.carried :=
  congrArg (Lexeme.unfinished r.carried) h

theorem aligned_of_lexeme_eq_none {r : Reader} (h : r.lexeme = .none) (unread : Bytes) :
    r.Aligned unread := by
  rw [Aligned, h]
  trivial

/-- The bytes of a scalar are the carried ones and then the raw ones. -/
theorem scalarBytes_eq {r : Reader} {segment : Segment} {unread : Bytes}
    (h : segment.Aligned r.carry unread) :
    r.scalarBytes segment = r.carried ++ segment.raw := by
  rw [scalarBytes]
  split
  · rfl
  · rename_i kept
    rw [carried, h.carry_eq_nil (Bool.eq_false_iff.2 kept)]
    rfl

/-! ### Values -/

theorem machine_valueStarted (r : Reader) : r.valueStarted.machine = r.machine.valueStarted := by
  obtain ⟨_, _ | ⟨_, _⟩, _, _, _, _, _, _, _⟩ := r <;> rfl

theorem machine_valueCompleted (r : Reader) :
    r.valueCompleted.machine = r.machine.valueCompleted := by
  obtain ⟨_, _ | ⟨_, _⟩, _, _, _, _, _, _, _⟩ := r <;> rfl

theorem machine_takesKey (r : Reader) : r.machine.takesKey = r.takesKey := rfl

theorem machine_openContainer (r : Reader) (frame : Frame) :
    (r.openContainer frame).machine = r.machine.openContainer frame := by
  rw [Machine.openContainer]
  rw [← machine_valueStarted]
  rfl

theorem machine_closeContainer (r : Reader) (outer : List Frame) :
    (r.closeContainer outer).machine = r.machine.closeContainer outer :=
  machine_valueCompleted _

theorem machine_endScalar (r : Reader) : r.endScalar.machine = r.machine.endScalar :=
  machine_valueCompleted _

theorem machine_beginString (r : Reader) (rest : Bytes) :
    (r.beginString rest).machine = r.machine.begin (.text .boundary []) := by
  rw [Machine.begin]
  rw [← machine_valueStarted]
  rfl

theorem machine_beginNumber (r : Reader) (phase : Number.Phase) (byte : UInt8) (rest : Bytes) :
    (r.beginNumber phase byte rest).machine = r.machine.begin (.number phase false [byte]) := by
  rw [Machine.begin]
  rw [← machine_valueStarted]
  rfl

theorem machine_beginKeyword (r : Reader) (keyword : Keyword) :
    (r.beginKeyword keyword).machine = r.machine.begin (.keyword keyword keyword.tail) := by
  rw [Machine.begin]
  rw [← machine_valueStarted]
  rfl

theorem machine_stepValue (r : Reader) (byte : UInt8) (rest : Bytes) :
    (r.stepValue byte rest).map machine = r.machine.stepValue byte := by
  rw [stepValue, Machine.stepValue]
  split_ifs
  · rw [Step.map, machine_openContainer]
  · rw [Step.map, machine_openContainer]
  · rw [Step.map, machine_beginString]
  · cases Number.Phase.start? byte with
    | some phase => exact congrArg Step.advance (r.machine_beginNumber phase byte rest)
    | none =>
      cases Keyword.ofHead? byte with
      | some keyword => exact congrArg Step.advance (r.machine_beginKeyword keyword)
      | none => rfl

/-! ### Structure -/

/-- The innermost container is closed. -/
theorem close_of_frames {r : Reader} {frame : Frame} {outer : List Frame}
    (top : r.frames = frame :: outer) :
    r.close = .emit frame.closing (r.closeContainer outer) := by
  rw [close, top]

theorem machine_close {r : Reader} {frame : Frame} {outer : List Frame}
    (top : r.frames = frame :: outer) :
    r.close.map machine = .emit frame.closing (r.machine.closeContainer outer) := by
  rw [close_of_frames top, Step.map, machine_closeContainer]

theorem machine_stepArray {r : Reader} {slot : ArraySlot} {outer : List Frame}
    (top : r.frames = .array slot :: outer) (byte : UInt8) (rest : Bytes) :
    (r.stepArray slot outer byte rest).map machine = r.machine.stepArray slot outer byte := by
  cases slot with
  | first =>
    simp only [stepArray, Machine.stepArray]
    split_ifs
    · exact machine_close top
    · exact r.machine_stepValue byte rest
  | value => exact r.machine_stepValue byte rest
  | separator =>
    simp only [stepArray, Machine.stepArray]
    split_ifs
    · rfl
    · exact machine_close top
    · rfl

theorem machine_stepObject {r : Reader} {slot : ObjectSlot} {outer : List Frame}
    (top : r.frames = .object slot :: outer) (byte : UInt8) (rest : Bytes) :
    (r.stepObject slot outer byte rest).map machine = r.machine.stepObject slot outer byte := by
  cases slot with
  | first =>
    simp only [stepObject, Machine.stepObject]
    split_ifs
    · rw [Step.map, machine_beginString]
    · exact machine_close top
    · rfl
  | key =>
    simp only [stepObject, Machine.stepObject]
    split_ifs
    · rw [Step.map, machine_beginString]
    · rfl
  | colon =>
    simp only [stepObject, Machine.stepObject]
    split_ifs <;> rfl
  | value => exact r.machine_stepValue byte rest
  | separator =>
    simp only [stepObject, Machine.stepObject]
    split_ifs
    · rfl
    · exact machine_close top
    · rfl

theorem machine_stepStructure (r : Reader) (byte : UInt8) (rest : Bytes) :
    (r.stepStructure byte rest).map machine = r.machine.stepStructure byte := by
  rw [stepStructure, Machine.stepStructure]
  split_ifs
  · rfl
  · have frames : r.machine.frames = r.frames := rfl
    have root : r.machine.root = r.root := rfl
    rw [frames, root]
    rcases top : r.frames with _ | ⟨slot | slot, outer⟩
    · cases r.root with
      | value => exact r.machine_stepValue byte rest
      | afterValue => rfl
      | done => rfl
    · exact machine_stepArray top byte rest
    · exact machine_stepObject top byte rest

/-! ### Scalars -/

theorem machine_stepKeyword (r : Reader) (keyword : Keyword) (missing : Bytes) (byte : UInt8) :
    (r.stepKeyword keyword missing byte).map machine =
      r.machine.stepKeyword keyword missing byte := by
  simp only [stepKeyword, Machine.stepKeyword]
  cases missing with
  | nil =>
    dsimp only
    split_ifs
    · rw [Step.map, machine_endScalar]
    · rfl
  | cons expected missing =>
    dsimp only
    split_ifs <;> rfl

/-- Completing a scalar gives the same token and the same machine. -/
theorem machine_endNumber {r : Reader} {segment : Segment} {unread : Bytes}
    (h : segment.Aligned r.carry unread) (fractional : Bool) :
    (r.endNumber fractional segment).map (fun done => (done.1, done.2.machine)) =
      r.machine.endNumber fractional (r.carried ++ segment.raw) := by
  have options : r.machine.options = r.options := rfl
  rw [endNumber, Machine.endNumber, scalarText]
  rw [scalarBytes_eq h, options]
  cases Utf8.text? (r.carried ++ segment.raw) with
  | none => rfl
  | some text =>
    simp only [bind, Except.bind, pure, Except.pure]
    cases Token.ofLiteral r.options fractional text with
    | error code => rfl
    | ok token => rw [Except.map, machine_endScalar]

theorem machine_endString {r : Reader} {segment : Segment} {unread : Bytes}
    (h : segment.Aligned r.carry unread) :
    (r.endString segment).map (fun done => (done.1, done.2.machine)) =
      r.machine.endString (r.carried ++ segment.raw) := by
  rw [endString, Machine.endString, scalarText]
  rw [scalarBytes_eq h, machine_takesKey]
  cases Utf8.text? (r.carried ++ segment.raw) with
  | none => rfl
  | some text =>
    simp only [bind, Except.bind, pure, Except.pure]
    rw [Except.map, machine_endScalar]

theorem machine_stepNumber {r : Reader} {phase : Number.Phase} {fractional : Bool}
    {segment : Segment} {byte : UInt8} {rest : Bytes}
    (h : segment.Aligned r.carry (byte :: rest)) :
    (r.stepNumber phase fractional segment byte).map machine =
      r.machine.stepNumber phase fractional (r.carried ++ segment.raw) byte := by
  rw [stepNumber, Machine.stepNumber]
  cases phase.next? byte with
  | some next =>
    show Step.advance (Machine.mk ..) = Step.advance (Machine.mk ..)
    simp only [Lexeme.unfinished, Segment.raw_extend h.drop_start, carried, List.append_assoc]
    rfl
  | none =>
    dsimp only
    split_ifs
    · rfl
    · rw [← machine_endNumber h]
      cases r.endNumber fractional segment <;> rfl
    · rfl

theorem machine_stepUtf8 {r : Reader} {utf8 : Utf8.State} {segment : Segment} {byte : UInt8}
    {rest : Bytes} (h : segment.Aligned r.carry (byte :: rest)) :
    (r.stepUtf8 utf8 segment byte).map machine =
      r.machine.stepUtf8 utf8 (r.carried ++ segment.raw) byte := by
  rw [stepUtf8, Machine.stepUtf8]
  cases utf8.step? byte with
  | none => rfl
  | some next =>
    show Step.advance (Machine.mk ..) = Step.advance (Machine.mk ..)
    simp only [Lexeme.unfinished, Segment.raw_extend h.drop_start, carried, List.append_assoc]
    rfl

theorem carried_spill (r : Reader) (segment : Segment) :
    (r.spill segment).carried = r.carried ++ segment.raw :=
  r.carried_carryOver segment.raw

theorem machine_pushChar (r : Reader) (c : Char) (rest : Bytes) :
    (r.pushChar c rest).machine = r.machine.pushChar r.carried c := by
  have content : (r.pushChar c rest).carried ++ [] = r.carried ++ String.utf8EncodeChar c := by
    rw [List.append_nil]
    exact r.carried_carryOver _
  rw [Machine.pushChar]
  rw [← content]
  rfl

theorem machine_pushEscaped (r : Reader) (c : Option Char) (rest : Bytes) :
    (r.pushEscaped c rest).map machine = r.machine.pushEscaped r.carried c := by
  cases c with
  | none => rfl
  | some c => exact congrArg Step.advance (r.machine_pushChar c rest)

theorem machine_stepText {r : Reader} {utf8 : Utf8.State} {segment : Segment} {byte : UInt8}
    {rest : Bytes} (h : segment.Aligned r.carry (byte :: rest)) :
    (r.stepText utf8 segment byte rest).map machine =
      r.machine.stepText utf8 (r.carried ++ segment.raw) byte := by
  have options : r.machine.options = r.options := rfl
  rw [stepText, Machine.stepText]
  rw [options]
  split_ifs
  · exact machine_stepUtf8 h
  · rw [← machine_endString h]
    cases r.endString segment <;> rfl
  · show Step.advance (Machine.mk ..) = Step.advance (Machine.mk ..)
    simp only [Lexeme.unfinished, ← carried_spill]
    rfl
  · rfl
  · show Step.advance (Machine.mk ..) = Step.advance (Machine.mk ..)
    simp only [Lexeme.unfinished, Segment.raw_extend h.drop_start, carried, List.append_assoc]
    rfl
  · cases r.options.encoding with
    | utf8 => exact machine_stepUtf8 h
    | latin1 =>
      have spilled := (r.spill segment).machine_pushChar (Latin1.char byte) rest
      rw [carried_spill] at spilled
      exact congrArg Step.advance spilled

theorem machine_stepEscape (r : Reader) (state : EscapeState) (byte : UInt8) (rest : Bytes) :
    (r.stepEscape state byte rest).map machine =
      r.machine.stepEscape state r.carried byte := by
  cases state with
  | start =>
    simp only [stepEscape, Machine.stepEscape]
    split_ifs
    · rfl
    · cases Escape.short? byte with
      | none => rfl
      | some c => exact congrArg Step.advance (r.machine_pushChar c rest)
  | unit digits =>
    simp only [stepEscape, Machine.stepEscape]
    cases digits.push? byte with
    | none => rfl
    | some digits =>
      dsimp only
      cases digits.unit? with
      | none => rfl
      | some unit =>
        dsimp only
        split_ifs
        · rfl
        · exact r.machine_pushEscaped _ rest
  | needBackslash high =>
    simp only [stepEscape, Machine.stepEscape]
    split_ifs <;> rfl
  | needMark high =>
    simp only [stepEscape, Machine.stepEscape]
    split_ifs <;> rfl
  | secondUnit high digits =>
    simp only [stepEscape, Machine.stepEscape]
    cases digits.push? byte with
    | none => rfl
    | some digits =>
      dsimp only
      cases digits.unit? with
      | none => rfl
      | some low => exact r.machine_pushEscaped _ rest

/-- **An aligned reader steps like its machine.** -/
theorem machine_step {r : Reader} {byte : UInt8} {rest : Bytes} (h : r.Aligned (byte :: rest)) :
    (r.step byte rest).map machine = r.machine.step byte := by
  have unfinished : r.machine.unfinished = r.lexeme.unfinished r.carried := rfl
  rw [step, Machine.step]
  rw [unfinished]
  rw [Aligned] at h
  cases lexeme : r.lexeme with
  | none => exact r.machine_stepStructure byte rest
  | keyword keyword missing => exact r.machine_stepKeyword keyword missing byte
  | number phase fractional segment =>
    rw [lexeme] at h
    exact machine_stepNumber h
  | text utf8 segment =>
    rw [lexeme] at h
    exact machine_stepText h
  | escape state => exact r.machine_stepEscape state byte rest

/-! ### What steps keep -/

/-- The raw bytes of `next` lie right before `rest`, and it is at the same place as `r`. -/
structure Follows (next r : Reader) (rest : Bytes) : Prop where
  aligned : next.Aligned rest
  place : next.place = r.place

theorem place_valueStarted (r : Reader) : r.valueStarted.place = r.place := by
  obtain ⟨_, _ | ⟨_, _⟩, _, _, _, _, _, _, _⟩ := r <;> rfl

theorem place_valueCompleted (r : Reader) : r.valueCompleted.place = r.place := by
  obtain ⟨_, _ | ⟨_, _⟩, _, _, _, _, _, _, _⟩ := r <;> rfl

theorem lexeme_valueStarted (r : Reader) : r.valueStarted.lexeme = r.lexeme := by
  obtain ⟨_, _ | ⟨_, _⟩, _, _, _, _, _, _, _⟩ := r <;> rfl

theorem lexeme_valueCompleted (r : Reader) : r.valueCompleted.lexeme = r.lexeme := by
  obtain ⟨_, _ | ⟨_, _⟩, _, _, _, _, _, _, _⟩ := r <;> rfl

theorem follows_endScalar (r : Reader) (rest : Bytes) : r.endScalar.Follows r rest where
  aligned := aligned_of_lexeme_eq_none (lexeme_valueCompleted _) rest
  place := place_valueCompleted _

theorem follows_closeContainer {r : Reader} (h : r.lexeme = .none) (outer : List Frame)
    (rest : Bytes) : (r.closeContainer outer).Follows r rest where
  aligned := by
    have lexeme := lexeme_valueCompleted { r with frames := outer }
    exact aligned_of_lexeme_eq_none (lexeme.trans h) rest
  place := place_valueCompleted _

theorem close_all {r : Reader} (h : r.lexeme = .none) (rest : Bytes) :
    r.close.All (·.Follows r rest) := by
  rw [close]
  cases r.frames with
  | nil => trivial
  | cons frame outer => exact follows_closeContainer h outer rest

theorem follows_openContainer {r : Reader} (h : r.lexeme = .none) (frame : Frame)
    (rest : Bytes) : (r.openContainer frame).Follows r rest where
  aligned := aligned_of_lexeme_eq_none (r.lexeme_valueStarted.trans h) rest
  place := r.place_valueStarted

theorem follows_beginString (r : Reader) (rest : Bytes) : (r.beginString rest).Follows r rest where
  aligned := ⟨rfl, fun _ => rfl⟩
  place := r.place_valueStarted

theorem stepValue_all {r : Reader} (h : r.lexeme = .none) (byte : UInt8) (rest : Bytes) :
    (r.stepValue byte rest).All (·.Follows r rest) := by
  rw [stepValue]
  split_ifs
  · exact follows_openContainer h _ rest
  · exact follows_openContainer h _ rest
  · exact r.follows_beginString rest
  · cases Number.Phase.start? byte with
    | some phase => exact ⟨⟨rfl, fun _ => rfl⟩, r.place_valueStarted⟩
    | none =>
      cases Keyword.ofHead? byte with
      | some keyword => exact ⟨trivial, r.place_valueStarted⟩
      | none => trivial

theorem stepStructure_all {r : Reader} (h : r.lexeme = .none) (byte : UInt8) (rest : Bytes) :
    (r.stepStructure byte rest).All (·.Follows r rest) := by
  have stay : ∀ frames, { r with frames }.Follows r rest :=
    fun _ => ⟨aligned_of_lexeme_eq_none h rest, rfl⟩
  simp only [stepStructure, stepArray, stepObject]
  repeat' split
  all_goals first
    | exact stepValue_all h byte rest
    | exact close_all h rest
    | exact r.follows_beginString rest
    | exact stay _
    | trivial

theorem stepUtf8_all {r : Reader} {utf8 : Utf8.State} {segment : Segment} {byte : UInt8}
    {rest : Bytes} (h : segment.Aligned r.carry (byte :: rest)) :
    (r.stepUtf8 utf8 segment byte).All (·.Follows r rest) := by
  rw [stepUtf8]
  split
  · exact ⟨h.extend, rfl⟩
  · trivial

theorem follows_pushChar (r : Reader) (c : Char) (rest : Bytes) :
    (r.pushChar c rest).Follows r rest where
  aligned := Segment.aligned_resume _ rest
  place := rfl

theorem endNumber_follows {r next : Reader} {fractional : Bool} {segment : Segment} {token : Token}
    (h : r.endNumber fractional segment = .ok (token, next)) (rest : Bytes) :
    next.Follows r rest :=
  (endNumber_eq_ok h).1 ▸ r.follows_endScalar rest

theorem endString_follows {r next : Reader} {segment : Segment} {token : Token}
    (h : r.endString segment = .ok (token, next)) (rest : Bytes) : next.Follows r rest :=
  (endString_eq_ok h).1 ▸ r.follows_endScalar rest

theorem stepText_all {r : Reader} {utf8 : Utf8.State} {segment : Segment} {byte : UInt8}
    {rest : Bytes} (h : segment.Aligned r.carry (byte :: rest)) :
    (r.stepText utf8 segment byte rest).All (·.Follows r rest) := by
  rw [stepText]
  split_ifs
  · exact stepUtf8_all h
  · cases done : r.endString segment with
    | error code => trivial
    | ok done => exact endString_follows ‹_› rest
  · exact ⟨trivial, rfl⟩
  · trivial
  · exact ⟨h.extend, rfl⟩
  · cases r.options.encoding with
    | utf8 => exact stepUtf8_all h
    | latin1 =>
      have pushed := (r.spill segment).follows_pushChar (Latin1.char byte) rest
      exact ⟨pushed.aligned, pushed.place⟩

theorem stepEscape_all (r : Reader) (state : EscapeState) (byte : UInt8) (rest : Bytes) :
    (r.stepEscape state byte rest).All (·.Follows r rest) := by
  simp only [stepEscape, pushEscaped]
  repeat' split
  all_goals first
    | exact r.follows_pushChar _ rest
    | exact ⟨trivial, rfl⟩
    | trivial

/-- **Every step keeps a reader aligned and in its place.** -/
theorem step_all {r : Reader} {byte : UInt8} {rest : Bytes} (h : r.Aligned (byte :: rest)) :
    (r.step byte rest).All (·.Follows r rest) := by
  rw [step]
  rw [Aligned] at h
  cases lexeme : r.lexeme with
  | none => exact stepStructure_all lexeme byte rest
  | keyword keyword missing =>
    dsimp only
    simp only [stepKeyword]
    repeat' split
    all_goals first
      | exact r.follows_endScalar rest
      | exact ⟨trivial, rfl⟩
      | trivial
  | number phase fractional segment =>
    rw [lexeme] at h
    dsimp only
    rw [stepNumber]
    repeat' split
    all_goals first
      | exact ⟨h.extend, rfl⟩
      | exact endNumber_follows ‹_› rest
      | trivial
  | text utf8 segment =>
    rw [lexeme] at h
    exact stepText_all h
  | escape state => exact r.stepEscape_all state byte rest

end Reader

end JsonStream
