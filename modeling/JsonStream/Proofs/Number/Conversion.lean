import JsonStream.Proofs.Grammar.Numerals

/-!
# Converting literals

What the options make of a number literal, and when they cannot: a float is out of range if the
literal rounds to infinity, and components are if a part of it does not fit a 64-bit word. Texts are
never out of range, nor are integers, as a literal that is none is converted in another way.

* `ReaderOptions.ofLiteral_eq_ok_iff`, `ReaderOptions.ofLiteral_eq_error_iff`: a literal is
  converted unless it is out of range, and no other failure is possible.
-/

namespace JsonStream

/-! ### Floats -/

namespace Binary64

/-- The number is an infinity of either sign. -/
def IsInfinite (x : Binary64) : Prop :=
  x.magnitudeBits = infinityBits

theorem magnitudeBits_ofMagnitude (negative : Bool) {magnitude : Nat} (h : magnitude < signBit) :
    (ofMagnitude negative magnitude).magnitudeBits = magnitude := by
  have sign : signBit = 9223372036854775808 := rfl
  rw [sign] at h
  rw [magnitudeBits, ofMagnitude, UInt64.toNat_ofNat', sign]
  cases negative with
  | true =>
    rw [if_pos rfl]
    omega
  | false =>
    rw [if_neg Bool.false_ne_true]
    omega

theorem nearestMagnitude_le (num den : Nat) : nearestMagnitude num den ≤ infinityBits :=
  Nat.min_le_right _ _

theorem exists_magnitude (negative : Bool) (coefficient : Nat) (exponent : Int) :
    ∃ magnitude ≤ infinityBits,
      ofDecimal negative coefficient exponent = ofMagnitude negative magnitude := by
  rw [ofDecimal]
  split_ifs
  · exact ⟨0, Nat.zero_le _, rfl⟩
  · exact ⟨infinityBits, Nat.le_refl _, rfl⟩
  · exact ⟨0, Nat.zero_le _, rfl⟩
  · exact ⟨_, nearestMagnitude_le _ _, rfl⟩
  · exact ⟨_, nearestMagnitude_le _ _, rfl⟩

/-- A decimal is read as a finite number unless it rounds to infinity. -/
theorem isFinite_ofLiteral_iff (l : Number.Literal) :
    (ofLiteral l).isFinite = true ↔ ¬(ofLiteral l).IsInfinite := by
  obtain ⟨magnitude, bound, same⟩ := exists_magnitude l.negative (Decimal.value l.digits)
    (l.scaleOf (readExponent l.exponentDigits))
  have below : infinityBits < signBit := by decide
  rw [ofLiteral, same, isFinite, IsInfinite, magnitudeBits_ofMagnitude _ (by omega),
    decide_eq_true_iff]
  omega

theorem ofBytes?_bytes {l : Number.Literal} (wellFormed : l.WellFormed) :
    ofBytes? l.bytes = some (ofLiteral l) := by
  rw [ofBytes?, Number.Literal.ofBytes?_eq_some_iff.2 ⟨wellFormed, rfl⟩]
  rfl

end Binary64

/-! ### Components -/

namespace Number

/-- Every part of the literal fits a 64-bit word; of the fraction only the digits up to the last one
that is not a zero count. -/
structure Literal.Fits (l : Literal) : Prop where
  integer : Decimal.value l.integer < UInt64.size
  fraction : Decimal.value (Components.significant (l.fraction.getD [])) < UInt64.size
  exponent : Decimal.value l.exponentDigits < UInt64.size

namespace Components

theorem isSome_word? (n : Nat) : (Decimal.word? n).isSome = true ↔ n < UInt64.size := by
  rw [Decimal.word?]
  by_cases fits : n < UInt64.size
  · rw [if_pos fits]
    exact iff_of_true rfl fits
  · rw [if_neg fits]
    exact iff_of_false Bool.false_ne_true fits

theorem word?_eq (digits : Bytes) : word? digits = Decimal.word? (Decimal.value digits) :=
  foldlM_word? digits 0

/-- **A literal has components exactly if every part fits.** -/
theorem isSome_ofLiteral? (l : Literal) : (ofLiteral? l).isSome = true ↔ l.Fits := by
  have parts : l.Fits ↔ (word? l.integer).isSome = true ∧
      (fractionScan? (l.fraction.getD [])).isSome = true ∧
        (word? l.exponentDigits).isSome = true := by
    rw [word?_eq, word?_eq, fractionScan?_eq, Option.isSome_map, isSome_word?, isSome_word?,
      isSome_word?]
    exact ⟨fun h => ⟨h.integer, h.fraction, h.exponent⟩, fun h => ⟨h.1, h.2.1, h.2.2⟩⟩
  rw [parts, ofLiteral?]
  cases word? l.integer with
  | none => simp
  | some integer =>
    cases fractionScan? (l.fraction.getD []) with
    | none => simp
    | some fraction => cases word? l.exponentDigits <;> simp

end Components

end Number

/-! ### Conversion -/

namespace ReaderOptions

/-- The options do not make an integer of the literal. -/
def NoInteger (o : ReaderOptions) (literal : Bytes) : Prop :=
  o.integers = true → Number.int64? literal = none

/-- What the options make of a number literal. -/
inductive Converts (o : ReaderOptions) (literal : String) : Token → Prop where
  | integer {i : Int64} (integers : o.integers = true)
      (read : Number.int64? (Utf8.bytes literal) = some i) : Converts o literal (.integer i)
  | float {x : Binary64} (other : o.NoInteger (Utf8.bytes literal)) (mode : o.numbers = .float)
      (read : Binary64.ofBytes? (Utf8.bytes literal) = some x) (finite : x.isFinite = true) :
      Converts o literal (.number (.float x))
  | components {c : Number.Components} (other : o.NoInteger (Utf8.bytes literal))
      (mode : o.numbers = .components)
      (read : Number.Components.ofBytes (Utf8.bytes literal) = .ok c) :
      Converts o literal (.number (.components c))
  | text (other : o.NoInteger (Utf8.bytes literal)) (mode : o.numbers = .text) :
      Converts o literal (.number (.text literal))

/-- The options cannot convert the literal. -/
def OutOfRange (o : ReaderOptions) (literal : Bytes) : Prop :=
  o.NoInteger literal ∧
    match o.numbers with
    | .float => ∃ x, Binary64.ofBytes? literal = some x ∧ x.IsInfinite
    | .components => ∃ l, Number.Literal.ofBytes? literal = some l ∧ ¬l.Fits
    | .text => False

/-- Texts are never out of range. -/
theorem not_outOfRange_of_text {o : ReaderOptions} (h : o.numbers = .text) (literal : Bytes) :
    ¬o.OutOfRange literal := by
  intro ⟨_, never⟩
  rw [h] at never
  exact never

variable {o : ReaderOptions} {literal : String} {token : Token}

/-- A literal of which the options make no integer is converted as the number mode says. -/
theorem ofLiteral_of_noInteger (h : o.NoInteger (Utf8.bytes literal)) :
    Token.ofLiteral o false literal =
      match o.numbers with
      | .float =>
        match Binary64.ofBytes? (Utf8.bytes literal) with
        | some x => if x.isFinite then .ok (.number (.float x)) else .error .numericRange
        | none => .error .unexpectedCharacter
      | .components =>
        match Number.Components.ofBytes (Utf8.bytes literal) with
        | .ok c => .ok (.number (.components c))
        | .error .outOfRange => .error .numericRange
        | .error .malformed => .error .unexpectedCharacter
      | .text => .ok (.number (.text literal)) := by
  have none :
      (if o.integers && !false then Number.int64? (Utf8.bytes literal) else none) = none := by
    rw [Bool.not_false, Bool.and_true]
    split_ifs with integers
    · exact h integers
    · rfl
  unfold Token.ofLiteral
  dsimp only
  split
  · rename_i some
    rw [none] at some
    contradiction
  · rfl

theorem Converts.ofLiteral_eq (h : o.Converts literal token) :
    Token.ofLiteral o false literal = .ok token := by
  cases h with
  | integer integers read =>
    unfold Token.ofLiteral
    dsimp only
    rw [integers, Bool.not_false, Bool.and_true, if_pos rfl, read]
  | float other mode read finite =>
    rw [ofLiteral_of_noInteger other, mode]
    dsimp only
    rw [read]
    exact if_pos finite
  | components other mode read =>
    rw [ofLiteral_of_noInteger other, mode]
    dsimp only
    rw [read]
  | text other mode => rw [ofLiteral_of_noInteger other, mode]

theorem OutOfRange.ofLiteral_eq (h : o.OutOfRange (Utf8.bytes literal)) :
    Token.ofLiteral o false literal = .error .numericRange := by
  obtain ⟨other, range⟩ := h
  rw [ofLiteral_of_noInteger other]
  cases mode : o.numbers with
  | float =>
    rw [mode] at range
    obtain ⟨x, read, infinite⟩ := range
    obtain ⟨l, taken, rfl⟩ := Option.map_eq_some_iff.1 read
    have finite : ¬(Binary64.ofLiteral l).isFinite = true := fun finite =>
      (Binary64.isFinite_ofLiteral_iff l).1 finite infinite
    dsimp only
    rw [read]
    exact if_neg finite
  | components =>
    rw [mode] at range
    obtain ⟨l, taken, large⟩ := range
    have none : Number.Components.ofLiteral? l = none := by
      rw [← Option.not_isSome_iff_eq_none, Number.Components.isSome_ofLiteral?]
      exact large
    dsimp only
    rw [Number.Components.ofBytes, taken]
    dsimp only
    rw [none]
  | text =>
    rw [mode] at range
    exact range.elim

/-- A literal is converted or out of range. -/
theorem exists_converts_or_outOfRange (o : ReaderOptions)
    (number : NumberText (Utf8.bytes literal)) :
    (∃ token, o.Converts literal token) ∨ o.OutOfRange (Utf8.bytes literal) := by
  obtain ⟨l, wellFormed, same⟩ := number
  have taken := Number.Literal.ofBytes?_eq_some_iff.2 ⟨wellFormed, same⟩
  by_cases other : o.NoInteger (Utf8.bytes literal)
  · cases mode : o.numbers with
    | float =>
      have read : Binary64.ofBytes? (Utf8.bytes literal) = some (Binary64.ofLiteral l) := by
        rw [Binary64.ofBytes?, taken]
        rfl
      by_cases infinite : (Binary64.ofLiteral l).IsInfinite
      · refine .inr ⟨other, ?_⟩
        rw [mode]
        exact ⟨_, read, infinite⟩
      · exact .inl ⟨_, .float other mode read ((Binary64.isFinite_ofLiteral_iff l).2 infinite)⟩
    | components =>
      by_cases fits : l.Fits
      · obtain ⟨c, parts⟩ := Option.isSome_iff_exists.1
          ((Number.Components.isSome_ofLiteral? l).2 fits)
        have read : Number.Components.ofBytes (Utf8.bytes literal) = .ok c := by
          rw [Number.Components.ofBytes, taken]
          dsimp only
          rw [parts]
        exact .inl ⟨_, .components other mode read⟩
      · refine .inr ⟨other, ?_⟩
        rw [mode]
        exact ⟨l, taken, fits⟩
    | text => exact .inl ⟨_, .text other mode⟩
  · obtain ⟨integers, some⟩ := Classical.not_imp.1 other
    obtain ⟨i, read⟩ := Option.ne_none_iff_exists'.1 some
    exact .inl ⟨_, .integer integers read⟩

/-- **A token is made of a literal exactly if it is its conversion.** -/
theorem ofLiteral_eq_ok_iff (number : NumberText (Utf8.bytes literal)) :
    Token.ofLiteral o false literal = .ok token ↔ o.Converts literal token := by
  constructor
  · intro h
    rcases o.exists_converts_or_outOfRange number with ⟨token', converts⟩ | range
    · rw [converts.ofLiteral_eq] at h
      cases h
      exact converts
    · rw [range.ofLiteral_eq] at h
      contradiction
  · exact Converts.ofLiteral_eq

/-- **Out of range is the only way to fail.** -/
theorem ofLiteral_eq_error_iff (number : NumberText (Utf8.bytes literal)) {code : ErrorCode} :
    Token.ofLiteral o false literal = .error code ↔
      code = .numericRange ∧ o.OutOfRange (Utf8.bytes literal) := by
  constructor
  · intro h
    rcases o.exists_converts_or_outOfRange number with ⟨token', converts⟩ | range
    · rw [converts.ofLiteral_eq] at h
      contradiction
    · rw [range.ofLiteral_eq] at h
      cases h
      exact ⟨rfl, range⟩
  · rintro ⟨rfl, range⟩
    exact range.ofLiteral_eq

end ReaderOptions

end JsonStream
