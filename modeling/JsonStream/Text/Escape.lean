import JsonStream.Text.Utf8
import JsonStream.Text.Utf16
import JsonStream.Text.Hex

/-!
# Escapes of a string literal

`Escape.short?` gives the characters that a backslash and one more byte stand for. A quoted
string is written with the shortest form of each character: a short escape where there is one, a
`\uXXXX` escape for every other control character, and the character itself otherwise. On request
everything outside ASCII is escaped as well, so that the output is readable in any encoding that
extends ASCII.
-/

namespace JsonStream

namespace Escape

/-- The character that the byte after a backslash stands for. -/
def short? : UInt8 → Option Char
  | Byte.quote => some '"'
  | Byte.backslash => some '\\'
  | Byte.slash => some '/'
  | Byte.lowerB => some '\x08'
  | Byte.lowerF => some '\x0c'
  | Byte.lowerN => some '\n'
  | Byte.lowerR => some '\r'
  | Byte.lowerT => some '\t'
  | _ => none

/-- The byte that stands after a backslash for a character written in that way. -/
def shortOf? : Char → Option UInt8
  | '"' => some Byte.quote
  | '\\' => some Byte.backslash
  | '\x08' => some Byte.lowerB
  | '\x0c' => some Byte.lowerF
  | '\n' => some Byte.lowerN
  | '\r' => some Byte.lowerR
  | '\t' => some Byte.lowerT
  | _ => none

/-- The control characters: those below the space, and the block from DEL to U+009F. -/
def isControl (c : Char) : Bool :=
  c.toNat ≤ 0x1f || (0x7f ≤ c.toNat && c.toNat ≤ 0x9f)

/-- A code unit as an escape. -/
def ofUnit (unit : Nat) : Bytes :=
  Byte.backslash :: Byte.lowerU :: Hex.ofUnit unit

/-- A character inside a quoted string. -/
def ofChar (asciiOnly : Bool) (c : Char) : Bytes :=
  match shortOf? c with
  | some byte => [Byte.backslash, byte]
  | none =>
    if isControl c || (asciiOnly && 0x80 ≤ c.toNat) then (Utf16.units c).flatMap ofUnit
    else String.utf8EncodeChar c

/-- The short escapes that are written are read back as the same character. -/
theorem short?_of_shortOf? {c : Char} {byte : UInt8} (h : shortOf? c = some byte) :
    short? byte = some c := by
  unfold shortOf? at h
  split at h <;> first | (injection h with h; subst h; rfl) | exact absurd h (by simp)

end Escape

/-- A text as a string literal. -/
def quoted (asciiOnly : Bool) (text : String) : Bytes :=
  Byte.quote :: (text.toList.flatMap (Escape.ofChar asciiOnly) ++ [Byte.quote])

end JsonStream
