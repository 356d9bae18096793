import JsonStream.Byte

/-!
# Decimal digits

Numbers are read from and written to runs of decimal digits, without sign and in either case most
significant digit first. Main statement: `value_digits`, reading undoes writing.
-/

namespace JsonStream

namespace Decimal

/-- The number that a run of digits stands for, continuing a number read before it. -/
def valueFrom (start : Nat) (digits : Bytes) : Nat :=
  digits.foldl (fun n d => 10 * n + Byte.digitValue d) start

/-- The number that a run of digits stands for. -/
def value (digits : Bytes) : Nat :=
  valueFrom 0 digits

/-- The digits of a number, without leading zeros; zero has one digit. -/
def digits (n : Nat) : Bytes :=
  if n < 10 then [Byte.ofDigit n] else digits (n / 10) ++ [Byte.ofDigit (n % 10)]
termination_by n

/-- The digits of a number, with zeros in front up to a given width. -/
def padded (width n : Nat) : Bytes :=
  List.replicate (width - (digits n).length) Byte.zero ++ digits n

/-- How many digits a number has; zero has none. -/
def length (n : Nat) : Nat :=
  if n = 0 then 0 else (digits n).length

/-- The number as a 64-bit word, if it fits. -/
def word? (n : Nat) : Option UInt64 :=
  if n < UInt64.size then some (UInt64.ofNat n) else none

@[simp] theorem valueFrom_nil (start : Nat) : valueFrom start [] = start := List.foldl_nil

@[simp] theorem valueFrom_cons (start : Nat) (d : UInt8) (rest : Bytes) :
    valueFrom start (d :: rest) = valueFrom (10 * start + Byte.digitValue d) rest := by
  rw [valueFrom, List.foldl_cons, valueFrom]

theorem valueFrom_append (start : Nat) (first second : Bytes) :
    valueFrom start (first ++ second) = valueFrom (valueFrom start first) second := by
  simp [valueFrom]

theorem value_append_singleton (first : Bytes) (d : UInt8) :
    value (first ++ [d]) = 10 * value first + Byte.digitValue d := by
  rw [value, valueFrom_append, valueFrom_cons, valueFrom_nil, value]

theorem le_valueFrom (start : Nat) (digits : Bytes) : start ≤ valueFrom start digits := by
  induction digits generalizing start with
  | nil => exact Nat.le_refl start
  | cons d rest ih =>
    have := ih (10 * start + Byte.digitValue d)
    rw [valueFrom_cons]
    omega

/-- Reading undoes writing. -/
theorem value_digits (n : Nat) : value (digits n) = n := by
  induction n using digits.induct with
  | case1 n h =>
    rw [digits, if_pos h, value, valueFrom_cons, valueFrom_nil, Byte.digitValue_ofDigit h]
    omega
  | case2 n h ih =>
    rw [digits, if_neg h, value_append_singleton, ih,
      Byte.digitValue_ofDigit (Nat.mod_lt n (by omega))]
    omega

theorem isDigit_of_mem_digits {n : Nat} {d : UInt8} (h : d ∈ digits n) : Byte.isDigit d = true := by
  induction n using digits.induct with
  | case1 n hn =>
    rw [digits, if_pos hn, List.mem_singleton] at h
    exact h ▸ Byte.isDigit_ofDigit hn
  | case2 n hn ih =>
    rw [digits, if_neg hn, List.mem_append, List.mem_singleton] at h
    rcases h with h | rfl
    · exact ih h
    · exact Byte.isDigit_ofDigit (Nat.mod_lt n (by omega))

theorem digits_ne_nil (n : Nat) : digits n ≠ [] := by
  rw [digits]; split <;> simp

end Decimal

end JsonStream
