import JsonStream.Error
import JsonStream.Options
import JsonStream.Token
import JsonStream.Reader.Frame
import JsonStream.Reader.Lexeme

/-!
# Readers

A reader holds all that must outlive a chunk: the open containers, the scalar in progress, the
bytes carried over for it, and the position. Chunks are attached one after another, an empty one
standing for the end of input. A failure lasts until the reader is reset.
-/

namespace JsonStream

/-- The state of reading one document. -/
structure Reader where
  options : ReaderOptions := {}
  /-- The open containers, the innermost first. -/
  frames : List Frame := []
  root : Root := .value
  lexeme : Lexeme := .none
  /-- The bytes carried over for the scalar in progress, the last one first. -/
  carry : Bytes := []
  position : Position := {}
  /-- Whether the end of input has been signalled. -/
  closed : Bool := false
  /-- How many bytes of the last chunk were unread when it was released. -/
  unread : Nat := 0
  failure : Option ParseError := none
deriving Repr, DecidableEq, Inhabited

/-- A reader with a chunk attached, of which `rest` is unread. -/
structure Feed where
  reader : Reader
  rest : Bytes
deriving Repr, DecidableEq, Inhabited

namespace Reader

/-- The greatest size of a buffer, in bytes. -/
def maxCapacity : Nat := 0x7fffffffffffffff

/-- What an open container takes up in a buffer, in bytes: one for its kind, one for what it accepts
next and one for whether it is empty. -/
def frameSize : Nat := 3

/-- A reader with room for `depth` open containers and `text` carried bytes. Room is only a
request: the reader behaves like any other. One that no buffer can meet is refused. -/
def withCapacity (options : ReaderOptions) (depth text : Nat) : Except ParseError Reader :=
  if depth * frameSize ≤ maxCapacity ∧ text ≤ maxCapacity then .ok { options }
  else .error ⟨.outOfMemory, {}⟩

/-- How many containers are open. -/
def depth (r : Reader) : Nat :=
  r.frames.length

/-- The reader for a new document with the same options. -/
def reset (r : Reader) : Reader :=
  { options := r.options }

/-- Attaches the next chunk; the empty one signals the end of input. A failed reader takes none,
nor one whose last chunk was released unread in part, nor one whose input has ended. -/
def feed (r : Reader) (chunk : Bytes) : Except FeedError Feed :=
  match r.failure with
  | some e => .error (.failed e)
  | none =>
    if 0 < r.unread then .error (.unconsumed r.unread)
    else if r.closed then .error .closed
    else .ok ⟨{ r with closed := chunk.isEmpty, lexeme := r.lexeme.attach chunk }, chunk⟩

/-- Signals the end of input. -/
def finish (r : Reader) : Except FeedError Feed :=
  r.feed []

/-- A value has started: the container around it is not empty. -/
def valueStarted (r : Reader) : Reader :=
  match r.frames with
  | [] => r
  | frame :: outer => { r with frames := frame.started :: outer }

/-- A value or a key is complete: what is around it moves on. -/
def valueCompleted (r : Reader) : Reader :=
  match r.frames with
  | [] => { r with root := .afterValue }
  | frame :: outer => { r with frames := frame.completed :: outer }

/-- Whether a string that is read now is a key. -/
def takesKey (r : Reader) : Bool :=
  match r.frames with
  | [] => false
  | frame :: _ => frame.takesKey

/-- Carries bytes over. -/
def carryOver (r : Reader) (bytes : Bytes) : Reader :=
  { r with carry := bytes.reverse ++ r.carry }

/-- The bytes carried over, in order. -/
def carried (r : Reader) : Bytes :=
  r.carry.reverse

@[simp] theorem carried_carryOver (r : Reader) (bytes : Bytes) :
    (r.carryOver bytes).carried = r.carried ++ bytes := by
  simp [carryOver, carried]

/-- All bytes of the scalar of which `segment` is the raw part. -/
def scalarBytes (r : Reader) (segment : Segment) : Bytes :=
  if segment.carried then r.carried ++ segment.raw else segment.raw

/-- The text of the scalar of which `segment` is the raw part. -/
def scalarText (r : Reader) (segment : Segment) : Except ErrorCode String :=
  match Utf8.text? (r.scalarBytes segment) with
  | some text => .ok text
  | none => .error .illegalUnicode

end Reader

namespace Feed

/-- How many bytes of the chunk are unread. -/
def remaining (f : Feed) : Nat :=
  f.rest.length

/-- The place of the next unread byte. -/
def position (f : Feed) : Position :=
  f.reader.position

/-- Detaches the chunk. Unread bytes are lost, and the reader remembers their number. -/
def release (f : Feed) : Reader :=
  { f.reader with unread := f.rest.length }

end Feed

end JsonStream
