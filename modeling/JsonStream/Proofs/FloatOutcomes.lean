import JsonStream.Proofs.Binary64.Text
import JsonStream.Proofs.NumberOutcomes
import JsonStream.Proofs.Number.Scientific

/-!
# Floats and components agree

A float can be had from a literal in two ways: the literal is read as one, or its components are,
from a text that is made of them. Both give the same bits, as both texts are literals of one number,
with one exponent.

* `Binary64.DependsOnValue`: what a reader of literals is expected to be like. The one that rounds
  the exact value is (`Binary64.dependsOnValue_ofExact?`).
* `Binary64.ofBytes?_eq_ofExact?`: what the reader here does is the same where the exponent is below
  the limit up to which its digits are taken.
* `Binary64.answersLiteral_text`: what is printed for a float is answered with it.
* `Number.Components.toBinary64_exact`: the agreement, also where it is not.
-/

namespace JsonStream

/-! ### Readers of literals -/

namespace Binary64

/-- A reader of literals that looks only at the sign and the value. -/
def DependsOnValue (read : Bytes → Option Binary64) : Prop :=
  ∀ l l' : Number.Literal, l.WellFormed → l'.WellFormed → l.negative = l'.negative →
    l.toRat = l'.toRat → read l.bytes = read l'.bytes

/-- Rounds the exact value of a literal, however large its exponent is. -/
def ofExact? (input : Bytes) : Option Binary64 :=
  (Number.Literal.ofBytes? input).map fun l => ofRatio l.negative l.toRat.num.natAbs l.toRat.den

theorem dependsOnValue_ofExact? : DependsOnValue ofExact? := by
  intro l l' wellFormed wellFormed' negative toRat
  rw [ofExact?, ofExact?, Number.Literal.ofBytes?_eq_some_iff.2 ⟨wellFormed, rfl⟩,
    Number.Literal.ofBytes?_eq_some_iff.2 ⟨wellFormed', rfl⟩, Option.map_some, Option.map_some,
    negative, toRat]

/-- The magnitude of the number that a literal denotes. -/
theorem value_mul_scale_eq (l : Number.Literal) :
    (Decimal.value l.digits : ℚ) * 10 ^ l.scale = (l.toRat.num.natAbs : ℚ) / l.toRat.den := by
  have magnitude : |l.toRat| = Decimal.value l.digits * 10 ^ l.scale := by
    have nonneg : (0 : ℚ) ≤ Decimal.value l.digits * 10 ^ l.scale :=
      mul_nonneg (Nat.cast_nonneg _) (zpow_nonneg (by norm_num) _)
    rw [Number.Literal.toRat, Number.signed]
    split_ifs
    · rw [abs_neg, abs_of_nonneg nonneg]
    · exact abs_of_nonneg nonneg
  rw [← magnitude, Rat.abs_def, Rat.natCast_div_eq_divInt]

/-- Where the digits of the exponent are all taken, the exact value is what is rounded. -/
theorem ofBytes?_eq_ofExact? {l : Number.Literal} (wellFormed : l.WellFormed)
    (small : Decimal.value l.exponentDigits < exponentLimit) :
    ofBytes? l.bytes = ofExact? l.bytes := by
  rw [ofBytes?, ofExact?, Number.Literal.ofBytes?_eq_some_iff.2 ⟨wellFormed, rfl⟩, Option.map_some,
    Option.map_some, ofLiteral_eq_ofDecimal small,
    ofDecimal_eq_ofRatio _ l.toRat.den_pos (value_mul_scale_eq l)]

theorem isNaN_ofLiteral (l : Number.Literal) : (ofLiteral l).isNaN = false := by
  obtain ⟨magnitude, bound, same⟩ := exists_magnitude l.negative (Decimal.value l.digits)
    (l.scaleOf (readExponent l.exponentDigits))
  have below : infinityBits < signBit := by decide
  rw [ofLiteral, same, isNaN, magnitudeBits_ofMagnitude _ (by omega), decide_eq_false_iff_not]
  omega

end Binary64

namespace Number.Components

variable {c : Components} {l : Literal}

theorem toBinary64_eq (c : Components) : c.toBinary64 = Binary64.ofLiteral c.scientific := by
  rw [toBinary64, ← bytes_scientific, Binary64.ofBytes?_bytes c.wellFormed_scientific]
  rfl

/-- The float of components is the one that any literal with these components is read as. -/
theorem Exact.toBinary64_eq (h : c.Exact l) (wellFormed : l.WellFormed) :
    c.toBinary64 = Binary64.ofLiteral l := by
  have agrees := c.scientific_agrees.trans (h.agrees wellFormed).symm
  rw [Components.toBinary64_eq, agrees.ofLiteral_eq c.wellFormed_scientific wellFormed]

end Number.Components

/-- In float mode the answer to a literal is the float that it is read as, unless that is
infinite. -/
theorem NumberMode.answer_float_iff {l : Number.Literal} {literal : String} :
    (∀ v, NumberMode.float.answer l literal = .ok (.number (.float v)) ↔
      Binary64.ofLiteral l = v ∧ v.isFinite = true) ∧
    (NumberMode.float.answer l literal = .error .numericRange ↔
      (Binary64.ofLiteral l).IsInfinite) := by
  have finite := Binary64.isFinite_ofLiteral_iff l
  rw [NumberMode.answer]
  by_cases bounded : (Binary64.ofLiteral l).isFinite = true
  · rw [if_pos bounded]
    refine ⟨fun v => ⟨?_, ?_⟩, iff_of_false (by simp) (finite.1 bounded)⟩
    · rintro ⟨⟩
      exact ⟨rfl, bounded⟩
    · rintro ⟨rfl, -⟩
      rfl
  · rw [if_neg bounded]
    refine ⟨fun v => iff_of_false (by simp) ?_, iff_of_true rfl ?_⟩
    · rintro ⟨rfl, bounded'⟩
      exact bounded bounded'
    · exact Classical.not_not.1 fun other => bounded (finite.2 other)

/-- **In float mode the text of a finite number is answered with the number**, wherever it stands
and as a document of its own, in any chunks. It is never an integer. -/
theorem Binary64.answersLiteral_text {x : Binary64} (finite : x.isFinite = true) {o : ReaderOptions}
    (mode : o.numbers = .float) :
    Reader.AnswersLiteral o x.text (.ok (.number (.float x))) ∧
      Reader.AnswersDocument o x.text (.ok (.number (.float x))) := by
  obtain ⟨l, wellFormed, marks, bytes, float⟩ := exists_text_literal finite
  have number : NumberText x.text := ⟨l, wellFormed, bytes⟩
  obtain ⟨literal, same⟩ := number.exists_text
  have other : o.NoInteger (Utf8.bytes literal) := by
    intro _
    refine Number.int64?_of_marked (Classical.not_not.1 fun unmarked => ?_)
    rw [same, ← bytes] at unmarked
    obtain ⟨fraction, exponent⟩ := Number.eq_none_of_not_marked wellFormed unmarked
    exact marks.elim (· fraction) (· exponent)
  have answer := NumberMode.answer_eq wellFormed (bytes.trans same.symm) other
  rw [mode, (NumberMode.answer_float_iff.1 x).2 ⟨float, finite⟩] at answer
  have answers := Reader.answersLiteral_ofLiteral o literal
  rw [answer, same] at answers
  exact ⟨answers, answers.document number⟩

/-- **Floats and components of a literal agree.** The float that the components of a literal are
converted to is the one that the literal is read as, and it would be for any reader of literals that
depends on the sign and the value alone. So in float mode, where no integers are reported, a literal
that has components is answered with their float if that is finite, and is out of range exactly if
it is infinite. Of any components, also those whose fraction does not fit its places, the text that
the float is read from is a literal, and the printed one is a literal of the same number with the
same sign; so the float is never the one that stands for no value. -/
theorem Number.Components.toBinary64_exact :
    (∀ input c, ofBytes input = .ok c →
      Binary64.ofBytes? input = some c.toBinary64 ∧
      (∀ read, Binary64.DependsOnValue read → read c.scientificText = read input) ∧
      ∀ o : ReaderOptions, o.numbers = .float → o.integers = false →
        ∃ answer, Reader.AnswersLiteral o input answer ∧ Reader.AnswersDocument o input answer ∧
          (∀ v, answer = .ok (.number (.float v)) ↔ c.toBinary64 = v ∧ v.isFinite = true) ∧
          (answer = .error .numericRange ↔ c.toBinary64.IsInfinite)) ∧
    ∀ c : Components, ∃ l l' : Literal,
      (l.WellFormed ∧ l.bytes = c.scientificText) ∧
        (l'.WellFormed ∧ l'.bytes = Utf8.bytes c.display) ∧
        l.negative = l'.negative ∧ l.toRat = l'.toRat ∧
        Binary64.ofBytes? c.scientificText = some c.toBinary64 ∧ c.toBinary64.isNaN = false := by
  constructor
  · intro input c read
    have number : NumberText input := by
      by_contra other
      rw [ofBytes_eq_malformed_iff.2 other] at read
      contradiction
    obtain ⟨l, wellFormed, rfl⟩ := number
    have exact := (ofBytes_eq_ok_iff wellFormed rfl).1 read
    have float := exact.toBinary64_eq wellFormed
    refine ⟨?_, fun reader depends => ?_, fun o mode integers => ?_⟩
    · rw [Binary64.ofBytes?_bytes wellFormed, float]
    · have agrees := c.scientific_agrees.trans (exact.agrees wellFormed).symm
      rw [← bytes_scientific]
      exact depends _ _ c.wellFormed_scientific wellFormed agrees.negative agrees.toRat_eq
    · obtain ⟨literal, same⟩ := NumberText.exists_text ⟨l, wellFormed, rfl⟩
      have other : o.NoInteger (Utf8.bytes literal) := fun some => by
        rw [integers] at some
        contradiction
      have answers := Reader.answersLiteral_ofLiteral o literal
      rw [same, NumberMode.answer_eq wellFormed same.symm other, mode] at answers
      rw [float]
      exact ⟨_, answers, answers.document ⟨l, wellFormed, rfl⟩, NumberMode.answer_float_iff⟩
  · intro c
    refine ⟨c.scientific, c.literal, ⟨c.wellFormed_scientific, c.bytes_scientific⟩,
      ⟨c.wellFormed_literal, c.bytes_literal.trans c.bytes_display.symm⟩,
      c.scientific_agrees.negative, c.scientific_agrees.toRat_eq, ?_, ?_⟩
    · rw [c.toBinary64_eq, ← bytes_scientific, Binary64.ofBytes?_bytes c.wellFormed_scientific]
    · rw [c.toBinary64_eq, Binary64.isNaN_ofLiteral]

/-- Zeros on both sides of a fraction and in front of an exponent, and a literal out of range. -/
theorem Number.Components.toBinary64_exact_zeros :
    (Binary64.ofBytes? (Utf8.bytes "-12.0050300e-007") =
        some (toBinary64 ⟨true, 12, 503, 5, true, 7⟩) ∧
      Binary64.ofExact? (scientificText ⟨true, 12, 503, 5, true, 7⟩) =
        Binary64.ofExact? (Utf8.bytes "-12.0050300e-007")) ∧
    ∃ answer, Reader.AnswersLiteral {} (Utf8.bytes "1e400") answer ∧
      answer = .error .numericRange ∧
      (Call.reports (({} : Reader).run
          ([Utf8.bytes "1e4", Utf8.bytes "00"] ++ [[]])).1.flatten).head?.map Prod.fst =
        some (.error ⟨.numericRange, { column := 6 }⟩) := by
  obtain ⟨agree, -⟩ := toBinary64_exact
  constructor
  · have read : ofBytes (Utf8.bytes "-12.0050300e-007") = .ok ⟨true, 12, 503, 5, true, 7⟩ := by rfl
    obtain ⟨same, exact, -⟩ := agree _ _ read
    exact ⟨same, exact _ Binary64.dependsOnValue_ofExact?⟩
  · have read : ofBytes (Utf8.bytes "1e400") = .ok ⟨false, 1, 0, 0, false, 400⟩ := by rfl
    obtain ⟨same, -, answered⟩ := agree _ _ read
    obtain ⟨answer, everywhere, document, -, range⟩ := answered {} rfl rfl
    have float : Binary64.ofBytes? (Utf8.bytes "1e400") = some ⟨0x7ff0000000000000⟩ := by decide
    have infinite : (toBinary64 ⟨false, 1, 0, 0, false, 400⟩).IsInfinite := by
      rw [← Option.some.inj (float.symm.trans same)]
      rfl
    have refused := range.2 infinite
    have reports := document [Utf8.bytes "1e4", Utf8.bytes "00"] (by decide) (by decide)
    rw [refused] at reports
    exact ⟨answer, everywhere, refused, reports⟩

end JsonStream
