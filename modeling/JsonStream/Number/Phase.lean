import JsonStream.Byte

/-!
# The number automaton

How far a number literal has been read. A literal is an optional minus sign, an integer part
without leading zeros, an optional fraction and an optional exponent; every phase but the complete
ones still needs a digit.
-/

namespace JsonStream

namespace Number

/-- The part of a number literal that its last byte belongs to. -/
inductive Phase where
  /-- The minus sign in front. -/
  | sign
  /-- An integer part that is zero, and so takes no more digits. -/
  | zero
  /-- The digits of another integer part. -/
  | integer
  /-- The decimal point. -/
  | point
  /-- The digits after the point. -/
  | fraction
  /-- The letter that starts the exponent. -/
  | exponentMark
  /-- The sign of the exponent. -/
  | exponentSign
  /-- The digits of the exponent. -/
  | exponent
deriving Repr, DecidableEq, Inhabited

namespace Phase

/-- The phase after the first byte of a literal. -/
def start? (byte : UInt8) : Option Phase :=
  if byte = Byte.minus then some .sign
  else if byte = Byte.zero then some .zero
  else if Byte.isDigit byte then some .integer
  else none

/-- Whether a byte announces an exponent. -/
def isExponentMark (byte : UInt8) : Bool :=
  byte == Byte.lowerE || byte == Byte.upperE

/-- Goes on after an integer part: a point or an exponent may follow. -/
def afterInteger? (byte : UInt8) : Option Phase :=
  if byte = Byte.point then some .point
  else if isExponentMark byte then some .exponentMark
  else none

/-- The phase after one more byte, or nothing if the literal cannot be continued by it. -/
def next? (phase : Phase) (byte : UInt8) : Option Phase :=
  match phase with
  | .sign =>
    if byte = Byte.zero then some .zero
    else if Byte.isDigit byte then some .integer
    else none
  | .zero => afterInteger? byte
  | .integer => if Byte.isDigit byte then some .integer else afterInteger? byte
  | .point => if Byte.isDigit byte then some .fraction else none
  | .fraction =>
    if Byte.isDigit byte then some .fraction
    else if isExponentMark byte then some .exponentMark
    else none
  | .exponentMark =>
    if byte = Byte.plus ∨ byte = Byte.minus then some .exponentSign
    else if Byte.isDigit byte then some .exponent
    else none
  | .exponentSign => if Byte.isDigit byte then some .exponent else none
  | .exponent => if Byte.isDigit byte then some .exponent else none

/-- Whether the literal may end here. -/
def isComplete : Phase → Bool
  | .zero | .integer | .fraction | .exponent => true
  | .sign | .point | .exponentMark | .exponentSign => false

/-- Whether the last byte makes the literal something else than a plain integer. -/
def isMark : Phase → Bool
  | .point | .exponentMark => true
  | _ => false

/-- The phase after a run of bytes, or nothing if one of them does not continue the literal. -/
def run? : Phase → Bytes → Option Phase
  | phase, [] => some phase
  | phase, byte :: rest => (phase.next? byte).bind fun next => next.run? rest

@[simp] theorem run?_nil (phase : Phase) : phase.run? [] = some phase := rfl

theorem run?_cons (phase : Phase) (byte : UInt8) (rest : Bytes) :
    phase.run? (byte :: rest) = (phase.next? byte).bind fun next => next.run? rest := rfl

end Phase

end Number

end JsonStream
