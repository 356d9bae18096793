import JsonStream.Byte

/-!
# Keywords

The three values that are written as words. The first byte of a word tells which one it is.
-/

namespace JsonStream

/-- A value written as a word. -/
inductive Keyword where
  | null
  | true
  | false
deriving Repr, DecidableEq, Inhabited

namespace Keyword

/-- The first byte of the word. -/
def head : Keyword → UInt8
  | .null => Byte.lowerN
  | .true => Byte.lowerT
  | .false => Byte.lowerF

/-- The bytes after the first one. -/
def tail : Keyword → Bytes
  | .null => [Byte.lowerU, Byte.lowerL, Byte.lowerL]
  | .true => [Byte.lowerR, Byte.lowerU, Byte.lowerE]
  | .false => [Byte.lowerA, Byte.lowerL, Byte.lowerS, Byte.lowerE]

/-- The whole word. -/
def spelling (keyword : Keyword) : Bytes :=
  keyword.head :: keyword.tail

/-- The word that starts with a byte. -/
def ofHead? : UInt8 → Option Keyword
  | Byte.lowerN => some .null
  | Byte.lowerT => some .true
  | Byte.lowerF => some .false
  | _ => none

/-- The word of a truth value. -/
def ofBool : Bool → Keyword
  | Bool.true => .true
  | Bool.false => .false

theorem ofHead?_eq_some_iff {byte : UInt8} {keyword : Keyword} :
    ofHead? byte = some keyword ↔ byte = keyword.head := by
  unfold ofHead?
  split <;> cases keyword <;> simp_all [head] <;> decide

end Keyword

end JsonStream
