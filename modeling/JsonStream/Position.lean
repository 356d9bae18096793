import JsonStream.Byte

/-!
# Positions

Lines and columns count from one. A column counts bytes, so a character of several bytes takes
several columns, and only a line feed ends a line.
-/

namespace JsonStream

/-- The place of the next unread byte. -/
structure Position where
  line : Nat := 1
  column : Nat := 1
deriving Repr, DecidableEq, Inhabited

namespace Position

/-- The place after `byte`. -/
def advance (p : Position) (byte : UInt8) : Position :=
  if byte = Byte.lineFeed then ⟨p.line + 1, 1⟩ else ⟨p.line, p.column + 1⟩

/-- The place after a run of bytes. -/
def after (p : Position) (bytes : Bytes) : Position :=
  bytes.foldl advance p

@[simp] theorem after_nil (p : Position) : p.after [] = p := rfl

@[simp] theorem after_cons (p : Position) (byte : UInt8) (bytes : Bytes) :
    p.after (byte :: bytes) = (p.advance byte).after bytes := rfl

theorem after_append (p : Position) (first second : Bytes) :
    p.after (first ++ second) = (p.after first).after second := by
  simp [after]

end Position

end JsonStream
