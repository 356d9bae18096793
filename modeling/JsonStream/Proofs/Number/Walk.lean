import Mathlib.Tactic.SplitIfs
import JsonStream.Number.Components

/-!
# Components taken along the way

Components can also be taken from a literal in one walk over its bytes, each digit being added to
its part as it comes. The walk checks the grammar on its way. On a literal it finds no fault, so a
walk after the check that the bytes are a literal gives the same as taking the literal apart, and
fails only for a part that is out of range.

* `Number.Components.walk`: the walk.
* `Number.Components.walk_eq`: on a literal it gives the components.
* `Number.Components.ofBytes_eq_walk`: the check and then the walk.
-/

namespace JsonStream

namespace Number

namespace Components

/-! ### The walk -/

/-- Adds one more digit to a word. -/
def pushDigit? (n : UInt64) (d : UInt8) : Option UInt64 :=
  Decimal.word? (10 * n.toNat + Byte.digitValue d)

/-- Takes the digits in front one after another, as long as there is room for each. -/
def takeEach {σ : Type} (push? : σ → UInt8 → Option σ) (s : σ) :
    Bytes → Except DecomposeError (σ × Bytes)
  | [] => .ok (s, [])
  | byte :: rest =>
    if Byte.isDigit byte then
      match push? s byte with
      | some next => takeEach push? next rest
      | none => .error .outOfRange
    else .ok (s, byte :: rest)

/-- Takes the digits in front, of which there must be one. -/
def takeSome {σ : Type} (push? : σ → UInt8 → Option σ) (s : σ) (input : Bytes) :
    Except DecomposeError (σ × Bytes) := do
  let taken ← takeEach push? s input
  if taken.2.length = input.length then .error .malformed else .ok taken

/-- Takes the integer part. -/
def walkInteger : Bytes → Except DecomposeError (UInt64 × Bytes)
  | [] => .error .malformed
  | byte :: rest =>
    if byte = Byte.zero then .ok (0, rest)
    else if Byte.isDigit byte then takeEach pushDigit? 0 (byte :: rest)
    else .error .malformed

/-- Takes the fraction, if a point announces one. -/
def walkFraction : Bytes → Except DecomposeError (FractionScan × Bytes)
  | [] => .ok ({}, [])
  | byte :: rest =>
    if byte = Byte.point then takeSome FractionScan.push? {} rest else .ok ({}, byte :: rest)

/-- Takes the exponent with its sign, if a letter announces one. -/
def walkExponent : Bytes → Except DecomposeError ((Bool × UInt64) × Bytes)
  | [] => .ok ((false, 0), [])
  | byte :: rest =>
    if byte = Byte.lowerE ∨ byte = Byte.upperE then do
      let (sign, digits) := Literal.takeExponentSign rest
      let (n, after) ← takeSome pushDigit? 0 digits
      return ((sign == some Byte.minus, n), after)
    else .ok ((false, 0), byte :: rest)

/-- Takes the components from the bytes of a literal. -/
def walk (input : Bytes) : Except DecomposeError Components := do
  let (integer, rest) ← walkInteger (Literal.takeSign input).2
  let (fraction, rest) ← walkFraction rest
  let (exponent, rest) ← walkExponent rest
  if rest = [] then
    return {
      negative := (Literal.takeSign input).1
      integer := integer
      fraction := fraction.digits
      places := fraction.places
      exponentNegative := exponent.1
      exponent := exponent.2 }
  else throw .malformed

/-! ### Runs of digits -/

theorem word?_fold (digits : Bytes) : word? digits = digits.foldlM pushDigit? 0 := rfl

/-- What does not fit is out of range. -/
def inRange {α : Type} : Option α → Except DecomposeError α
  | some value => .ok value
  | none => .error .outOfRange

section
variable {σ : Type} (push? : σ → UInt8 → Option σ) (s : σ)

theorem takeEach_eq (input : Bytes) :
    takeEach push? s input =
      (inRange ((leadingDigits input).foldlM push? s)).map (·, afterDigits input) := by
  induction input generalizing s with
  | nil => rfl
  | cons byte rest ih =>
    rw [takeEach, leadingDigits, afterDigits]
    by_cases digit : Byte.isDigit byte = true
    · rw [if_pos digit, List.takeWhile_cons_of_pos digit, List.dropWhile_cons_of_pos digit,
        List.foldlM_cons]
      cases push? s byte with
      | none => rfl
      | some next => exact ih next
    · rw [if_neg digit, List.takeWhile_cons_of_neg digit, List.dropWhile_cons_of_neg digit]
      rfl

/-- Some digits are taken as a run, and none are a fault. -/
theorem takeSome_eq (input : Bytes) :
    takeSome push? s input =
      match Literal.takeDigits? input with
      | none => .error .malformed
      | some (digits, rest) => (inRange (digits.foldlM push? s)).map (·, rest) := by
  have parts := congrArg List.length (leadingDigits_append_afterDigits input)
  rw [List.length_append] at parts
  rw [takeSome, takeEach_eq, Literal.takeDigits?]
  cases digits : leadingDigits input with
  | nil =>
    have all : (afterDigits input).length = input.length := by simpa [digits] using parts
    simp [inRange, Except.map, bind, Except.bind, pure, all]
  | cons d more =>
    have shorter : (afterDigits input).length ≠ input.length := by
      rw [digits, List.length_cons] at parts
      omega
    cases fold : (d :: more).foldlM push? s <;>
      simp [inRange, Except.map, bind, Except.bind, fold, shorter]

end

/-! ### The parts of a literal -/

section
variable {input digits rest : Bytes}

theorem walkInteger_eq (taken : Literal.takeInteger? input = some (digits, rest)) :
    walkInteger input = (inRange (word? digits)).map (·, rest) := by
  cases input with
  | nil => contradiction
  | cons byte more =>
    rw [Literal.takeInteger?] at taken
    rw [walkInteger]
    split_ifs at taken ⊢ with zero digit
    · cases taken
      rw [zero]
      rfl
    · cases taken
      rw [takeEach_eq, leadingDigits, afterDigits, List.takeWhile_cons_of_pos digit,
        List.dropWhile_cons_of_pos digit]
      rfl

theorem walkFraction_eq {fraction : Option Bytes}
    (taken : Literal.takeFraction? input = some (fraction, rest)) :
    walkFraction input = (inRange (fractionScan? (fraction.getD []))).map (·, rest) := by
  cases input with
  | nil =>
    cases taken
    rfl
  | cons byte more =>
    rw [Literal.takeFraction?] at taken
    rw [walkFraction]
    split_ifs at taken ⊢ with point
    · obtain ⟨⟨digits, after⟩, found, same⟩ := Option.map_eq_some_iff.1 taken
      cases same
      rw [takeSome_eq, found]
      rfl
    · cases taken
      rfl

theorem walkExponent_eq {exponent : Option Exponent}
    (taken : Literal.takeExponent? input = some (exponent, rest)) :
    walkExponent input =
      (inRange (word? (exponent.elim [] Exponent.digits))).map fun n =>
        ((exponent.any Exponent.negative, n), rest) := by
  cases input with
  | nil =>
    cases taken
    rfl
  | cons byte more =>
    rw [Literal.takeExponent?] at taken
    rw [walkExponent]
    split_ifs at taken ⊢ with mark
    · obtain ⟨⟨digits, after⟩, found, same⟩ := Option.map_eq_some_iff.1 taken
      cases same
      simp only [takeSome_eq, found, Option.elim_some, Option.any_some, Exponent.negative]
      rw [← word?_fold]
      cases word? digits <;> rfl
    · cases taken
      rfl

end

/-- **On a literal the walk gives the components.** -/
theorem walk_eq {input : Bytes} {literal : Literal} (taken : Literal.ofBytes? input = some literal) :
    walk input = ofBytes input := by
  rw [ofBytes, taken]
  obtain ⟨⟨integer, afterInteger⟩, hi, taken⟩ := Option.bind_eq_some_iff.1 taken
  obtain ⟨⟨fraction, afterFraction⟩, hf, taken⟩ := Option.bind_eq_some_iff.1 taken
  obtain ⟨⟨exponent, rest⟩, he, taken⟩ := Option.bind_eq_some_iff.1 taken
  split_ifs at taken with last
  cases taken
  obtain rfl : rest = [] := last
  have walked : walk input = do
      let i ← inRange (word? integer)
      let f ← inRange (fractionScan? (fraction.getD []))
      let e ← inRange (word? (exponent.elim [] Exponent.digits))
      return ⟨(Literal.takeSign input).1, i, f.digits, f.places,
        exponent.any Exponent.negative, e⟩ := by
    rw [walk, walkInteger_eq hi]
    cases word? integer with
    | none => rfl
    | some i =>
      simp only [inRange, Except.map, bind, Except.bind]
      rw [walkFraction_eq hf]
      cases fractionScan? (fraction.getD []) with
      | none => rfl
      | some f =>
        simp only [inRange, Except.map]
        rw [walkExponent_eq he]
        cases word? (exponent.elim [] Exponent.digits) <;> rfl
  rw [walked]
  simp only [ofLiteral?, Literal.exponentDigits, Literal.exponentNegative]
  cases word? integer with
  | none => rfl
  | some i =>
    cases fractionScan? (fraction.getD []) with
    | none => rfl
    | some f => cases word? (exponent.elim [] Exponent.digits) <;> rfl

/-- **The check that the bytes are a literal, and then the walk**, which finds no fault. -/
theorem ofBytes_eq_walk (input : Bytes) :
    ofBytes input = if isLiteral input then walk input else .error .malformed := by
  rw [isLiteral]
  cases taken : Literal.ofBytes? input with
  | none => rw [ofBytes, taken]; rfl
  | some literal => exact (walk_eq taken).symm

theorem walk_ne_malformed {input : Bytes} (literal : isLiteral input = true) :
    walk input ≠ .error .malformed := by
  obtain ⟨l, taken⟩ := Option.isSome_iff_exists.1 literal
  rw [walk_eq taken, ofBytes, taken]
  dsimp only
  cases ofLiteral? l <;> simp

end Components

end Number

end JsonStream
