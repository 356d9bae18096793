import JsonStream.Number.Decimal

/-!
# Number literals

A complete literal taken apart: sign, integer digits, fraction digits and exponent. `ofBytes?`
accepts a byte string exactly if all of it is one literal, and `bytes_of_ofBytes?` says that the
parts put together are the literal, so nothing is lost in taking it apart.
-/

namespace JsonStream

namespace Number

/-- The exponent of a literal. -/
structure Exponent where
  /-- The letter `e`, in either case. -/
  mark : UInt8
  /-- The sign, if one is written. -/
  sign : Option UInt8
  digits : Bytes
deriving Repr, DecidableEq

/-- The parts of a number literal. -/
structure Literal where
  /-- Whether a minus sign stands in front. -/
  negative : Bool
  /-- The digits before the point. -/
  integer : Bytes
  /-- The digits after the point, if there is one. -/
  fraction : Option Bytes
  exponent : Option Exponent
deriving Repr, DecidableEq

/-- The leading digits of a byte string. -/
def leadingDigits (input : Bytes) : Bytes :=
  input.takeWhile Byte.isDigit

/-- What follows the leading digits. -/
def afterDigits (input : Bytes) : Bytes :=
  input.dropWhile Byte.isDigit

theorem leadingDigits_append_afterDigits (input : Bytes) :
    leadingDigits input ++ afterDigits input = input :=
  List.takeWhile_append_dropWhile

namespace Exponent

/-- Whether the exponent counts downwards. -/
def negative (exponent : Exponent) : Bool :=
  exponent.sign == some Byte.minus

/-- The bytes of an exponent. -/
def bytes (exponent : Exponent) : Bytes :=
  exponent.mark :: (exponent.sign.toList ++ exponent.digits)

end Exponent

namespace Literal

/-- Takes the minus sign, if there is one. -/
def takeSign : Bytes → Bool × Bytes
  | [] => (false, [])
  | byte :: rest => if byte = Byte.minus then (true, rest) else (false, byte :: rest)

/-- Takes the integer part: a zero alone, or digits that start with another one. -/
def takeInteger? : Bytes → Option (Bytes × Bytes)
  | [] => none
  | byte :: rest =>
    if byte = Byte.zero then some ([byte], rest)
    else if Byte.isDigit byte then some (byte :: leadingDigits rest, afterDigits rest)
    else none

/-- Takes one digit or more. -/
def takeDigits? (input : Bytes) : Option (Bytes × Bytes) :=
  if (leadingDigits input).isEmpty then none
  else some (leadingDigits input, afterDigits input)

/-- Takes the fraction, if a point announces one. -/
def takeFraction? : Bytes → Option (Option Bytes × Bytes)
  | [] => some (none, [])
  | byte :: rest =>
    if byte = Byte.point then (takeDigits? rest).map fun taken => (some taken.1, taken.2)
    else some (none, byte :: rest)

/-- Takes the sign of an exponent, if there is one. -/
def takeExponentSign : Bytes → Option UInt8 × Bytes
  | [] => (none, [])
  | byte :: rest =>
    if byte = Byte.plus ∨ byte = Byte.minus then (some byte, rest) else (none, byte :: rest)

/-- Takes the exponent, if a letter announces one. -/
def takeExponent? : Bytes → Option (Option Exponent × Bytes)
  | [] => some (none, [])
  | byte :: rest =>
    if byte = Byte.lowerE ∨ byte = Byte.upperE then
      (takeDigits? (takeExponentSign rest).2).map fun taken =>
        (some ⟨byte, (takeExponentSign rest).1, taken.1⟩, taken.2)
    else some (none, byte :: rest)

/-- Takes a complete literal apart. -/
def ofBytes? (input : Bytes) : Option Literal :=
  (takeInteger? (takeSign input).2).bind fun integer =>
    (takeFraction? integer.2).bind fun fraction =>
      (takeExponent? fraction.2).bind fun exponent =>
        if exponent.2 = [] then some ⟨(takeSign input).1, integer.1, fraction.1, exponent.1⟩
        else none

/-- The bytes of a fraction. -/
def fractionBytes : Option Bytes → Bytes
  | some digits => Byte.point :: digits
  | none => []

/-- The bytes of an exponent, if there is one. -/
def exponentBytes : Option Exponent → Bytes
  | some exponent => exponent.bytes
  | none => []

/-- The bytes of a literal. -/
def bytes (literal : Literal) : Bytes :=
  (if literal.negative then [Byte.minus] else []) ++
    (literal.integer ++ (fractionBytes literal.fraction ++ exponentBytes literal.exponent))

/-- The digits before and after the point as one run. -/
def digits (literal : Literal) : Bytes :=
  literal.integer ++ literal.fraction.getD []

/-- The digits of the exponent; none if there is no exponent. -/
def exponentDigits (literal : Literal) : Bytes :=
  literal.exponent.elim [] Exponent.digits

/-- Whether the exponent counts downwards. -/
def exponentNegative (literal : Literal) : Bool :=
  literal.exponent.any Exponent.negative

/-- The power of ten by which the digits, read as one integer, are to be multiplied if the exponent
has the given magnitude. -/
def scaleOf (literal : Literal) (magnitude : Nat) : Int :=
  (if literal.exponentNegative then -(magnitude : Int) else magnitude) -
    ((literal.fraction.getD []).length : Int)

/-- The power of ten by which the digits, read as one integer, are to be multiplied. -/
def scale (literal : Literal) : Int :=
  literal.scaleOf (Decimal.value literal.exponentDigits)

theorem takeSign_bytes (input : Bytes) :
    (if (takeSign input).1 then [Byte.minus] else []) ++ (takeSign input).2 = input := by
  unfold takeSign
  split
  · rfl
  · split
    · rename_i h; rw [h]; rfl
    · rfl

theorem takeInteger?_bytes {input digits rest : Bytes}
    (h : takeInteger? input = some (digits, rest)) : digits ++ rest = input := by
  unfold takeInteger? at h
  split at h
  · exact absurd h (by simp)
  · split at h
    · simp only [Option.some.injEq, Prod.mk.injEq] at h
      obtain ⟨rfl, rfl⟩ := h
      rfl
    · split at h
      · simp only [Option.some.injEq, Prod.mk.injEq] at h
        obtain ⟨rfl, rfl⟩ := h
        rw [List.cons_append, leadingDigits_append_afterDigits]
      · exact absurd h (by simp)

theorem takeDigits?_bytes {input digits rest : Bytes}
    (h : takeDigits? input = some (digits, rest)) : digits ++ rest = input := by
  unfold takeDigits? at h
  split at h
  · exact absurd h (by simp)
  · simp only [Option.some.injEq, Prod.mk.injEq] at h
    obtain ⟨rfl, rfl⟩ := h
    exact leadingDigits_append_afterDigits input

theorem takeFraction?_bytes {input : Bytes} {fraction : Option Bytes} {rest : Bytes}
    (h : takeFraction? input = some (fraction, rest)) : fractionBytes fraction ++ rest = input := by
  unfold takeFraction? at h
  split at h
  · simp only [Option.some.injEq, Prod.mk.injEq] at h
    obtain ⟨rfl, rfl⟩ := h
    rfl
  · split at h
    · rename_i point
      obtain ⟨taken, found, h⟩ := Option.map_eq_some_iff.1 h
      simp only [Prod.mk.injEq] at h
      obtain ⟨rfl, rfl⟩ := h
      rw [fractionBytes, List.cons_append, takeDigits?_bytes found, point]
    · simp only [Option.some.injEq, Prod.mk.injEq] at h
      obtain ⟨rfl, rfl⟩ := h
      rfl

theorem takeExponentSign_bytes (input : Bytes) :
    (takeExponentSign input).1.toList ++ (takeExponentSign input).2 = input := by
  unfold takeExponentSign
  split
  · rfl
  · split <;> rfl

theorem takeExponent?_bytes {input : Bytes} {exponent : Option Exponent} {rest : Bytes}
    (h : takeExponent? input = some (exponent, rest)) : exponentBytes exponent ++ rest = input := by
  unfold takeExponent? at h
  split at h
  · simp only [Option.some.injEq, Prod.mk.injEq] at h
    obtain ⟨rfl, rfl⟩ := h
    rfl
  · split at h
    · obtain ⟨taken, found, h⟩ := Option.map_eq_some_iff.1 h
      simp only [Prod.mk.injEq] at h
      obtain ⟨rfl, rfl⟩ := h
      simp only [exponentBytes, Exponent.bytes, List.cons_append, List.append_assoc,
        takeDigits?_bytes found, takeExponentSign_bytes]
    · simp only [Option.some.injEq, Prod.mk.injEq] at h
      obtain ⟨rfl, rfl⟩ := h
      rfl

/-- Nothing is lost in taking a literal apart. -/
theorem bytes_of_ofBytes? {input : Bytes} {literal : Literal} (h : ofBytes? input = some literal) :
    literal.bytes = input := by
  obtain ⟨integer, hi, h⟩ := Option.bind_eq_some_iff.1 h
  obtain ⟨fraction, hf, h⟩ := Option.bind_eq_some_iff.1 h
  obtain ⟨exponent, he, h⟩ := Option.bind_eq_some_iff.1 h
  split at h
  · rename_i nothing
    rw [Option.some.injEq] at h
    have hexp := takeExponent?_bytes he
    rw [nothing, List.append_nil] at hexp
    rw [← h, bytes, hexp, takeFraction?_bytes hf, takeInteger?_bytes hi, takeSign_bytes]
  · contradiction

end Literal

/-- Whether a byte string is one complete number literal. -/
def isLiteral (input : Bytes) : Bool :=
  (Literal.ofBytes? input).isSome

/-- The value of a literal without fraction and exponent, if it is a 64-bit integer. -/
def int64? (literal : Bytes) : Option Int64 :=
  if literal.any fun b => b == Byte.point || b == Byte.lowerE || b == Byte.upperE then none
  else
    let digits := (Literal.takeSign literal).2
    if digits = [] ∨ digits.all Byte.isDigit = false then none
    else
      let magnitude : Int := Decimal.value digits
      let value := if (Literal.takeSign literal).1 then -magnitude else magnitude
      if Int64.minValue.toInt ≤ value ∧ value ≤ Int64.maxValue.toInt then some (Int64.ofInt value)
      else none

end Number

end JsonStream
