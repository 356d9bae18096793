/-!
# UTF-16 code units

An escape of the form `\uXXXX` names a code unit of UTF-16. A character beyond the basic plane
takes two of them, a high surrogate and a low one, and no surrogate stands for a character alone.
Units are natural numbers below `0x10000`.
-/

namespace JsonStream

namespace Utf16

/-- Whether a unit is the first half of a pair. -/
def isHighSurrogate (unit : Nat) : Bool :=
  0xd800 ≤ unit && unit ≤ 0xdbff

/-- Whether a unit is the second half of a pair. -/
def isLowSurrogate (unit : Nat) : Bool :=
  0xdc00 ≤ unit && unit ≤ 0xdfff

/-- The character with a given code point; surrogates and numbers above U+10FFFF have none. -/
def char? (point : Nat) : Option Char :=
  if h : point.isValidChar then some (Char.ofNatAux point h) else none

/-- The code point that a high and a low surrogate name together. -/
def pairPoint (high low : Nat) : Nat :=
  0x10000 + (high - 0xd800) * 0x400 + (low - 0xdc00)

/-- The character that two units name together, if the second is a low surrogate. -/
def pairChar? (high low : Nat) : Option Char :=
  if isLowSurrogate low then char? (pairPoint high low) else none

/-- The units of a character: itself, or a pair beyond the basic plane. -/
def units (c : Char) : List Nat :=
  if c.toNat < 0x10000 then [c.toNat]
  else [0xd800 + (c.toNat - 0x10000) / 0x400, 0xdc00 + (c.toNat - 0x10000) % 0x400]

theorem toNat_of_char? {point : Nat} {c : Char} (h : char? point = some c) : c.toNat = point := by
  by_cases valid : point.isValidChar
  · rw [char?, dif_pos valid] at h
    cases h
    rfl
  · rw [char?, dif_neg valid] at h
    contradiction

theorem char?_toNat (c : Char) : char? c.toNat = some c := by
  have valid : c.toNat.isValidChar := c.valid
  rw [char?, dif_pos valid]
  exact congrArg some (Char.ext (UInt32.toNat_inj.1 rfl))

/-- A pair of surrogates always names a character. -/
theorem exists_pairChar? {high low : Nat} (hh : isHighSurrogate high = true)
    (hl : isLowSurrogate low = true) : ∃ c, pairChar? high low = some c := by
  simp only [isHighSurrogate, isLowSurrogate, Bool.and_eq_true, decide_eq_true_eq] at hh hl
  have valid : (pairPoint high low).isValidChar := by
    unfold pairPoint Nat.isValidChar; omega
  refine ⟨Char.ofNatAux _ valid, ?_⟩
  rw [pairChar?, if_pos (by simp [isLowSurrogate, hl.1, hl.2]), char?, dif_pos valid]

end Utf16

end JsonStream
