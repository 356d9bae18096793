import JsonStream.Text.Escape
import JsonStream.Number.Phase
import JsonStream.Keyword

/-!
# The scalar in progress

A chunk may end anywhere, so a scalar that has started is part of the state of a reader. Its raw
bytes are not copied while the chunk at hand holds all of them: a segment only marks where they
start and how many there are. What cannot be taken from the chunk, decoded escapes and bytes of
earlier chunks, is carried by the reader.
-/

namespace JsonStream

/-- The raw bytes of a scalar that have not been carried over: the first `length` bytes of
`start`, the part of the chunk that begins with them. -/
structure Segment where
  start : Bytes
  length : Nat := 0
  /-- Whether earlier bytes of the scalar are carried by the reader. -/
  carried : Bool := false
deriving Repr, DecidableEq, Inhabited

namespace Segment

/-- The raw bytes. -/
def raw (segment : Segment) : Bytes :=
  segment.start.take segment.length

/-- Takes in one more byte of the chunk. -/
def extend (segment : Segment) : Segment :=
  { segment with length := segment.length + 1 }

/-- A segment that goes on at `rest` after all earlier bytes were carried over. -/
def resume (rest : Bytes) : Segment :=
  { start := rest, carried := true }

end Segment

/-- The part of an escape that has been read, after its backslash. -/
inductive EscapeState where
  /-- Nothing yet. -/
  | start
  /-- Digits of a code unit. -/
  | unit (digits : HexDigits)
  /-- A high surrogate, which a second escape must follow. -/
  | needBackslash (high : Nat)
  /-- A high surrogate and the backslash of the second escape. -/
  | needMark (high : Nat)
  /-- A high surrogate and digits of the second code unit. -/
  | secondUnit (high : Nat) (digits : HexDigits)
deriving Repr, DecidableEq, Inhabited

/-- The scalar that is being read. -/
inductive Lexeme where
  /-- None: the reader stands between tokens. -/
  | none
  /-- A keyword, with the bytes that are still missing. -/
  | keyword (keyword : Keyword) (missing : Bytes)
  /-- A number; `fractional` tells whether a point or an exponent has been read. -/
  | number (phase : Number.Phase) (fractional : Bool) (segment : Segment)
  /-- A string, outside escapes. -/
  | text (utf8 : Utf8.State) (segment : Segment)
  /-- A string, inside an escape. All that comes before it is carried by the reader. -/
  | escape (state : EscapeState)
deriving Repr, DecidableEq, Inhabited

/-- Continues the scalar in a new chunk: its raw bytes go on where the chunk starts. -/
def Lexeme.attach (chunk : Bytes) : Lexeme → Lexeme
  | .number phase fractional segment =>
    .number phase fractional { segment with start := chunk, length := 0 }
  | .text utf8 segment => .text utf8 { segment with start := chunk, length := 0 }
  | lexeme => lexeme

end JsonStream
