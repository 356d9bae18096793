import JsonStream.Proofs.Number.Scientific
import JsonStream.Proofs.Writer.Encoded

/-!
# Components are written faithfully or not at all

A writer compares the number of digits of a fraction with its places before it writes components.
That is exactly what keeps it from printing another number than the one that the components denote,
which is stated here without digits: the printed text is a literal of that number.

* `Number.Components.faithful_iff`: what the comparison decides.
* `Writer.write_components_iff_faithful`: a ready writer takes components exactly if they are printed
  faithfully.
-/

namespace JsonStream

/-- The components are printed as a literal that denotes what they denote. -/
def Number.Components.Faithful (c : Components) : Prop :=
  ∃ l : Literal, l.WellFormed ∧ l.bytes = Utf8.bytes c.display ∧ l.toRat = c.toRat

/-- **Components are printed faithfully exactly if the digits of their fraction fit its places.** -/
theorem Number.Components.faithful_iff {c : Components} : c.Faithful ↔ c.fractionFits = true := by
  rw [← toRat_literal_eq_iff]
  constructor
  · rintro ⟨l, wellFormed, same, toRat⟩
    rw [bytes_display, ← bytes_literal] at same
    have taken := Literal.ofBytes?_eq_some_iff.2 ⟨wellFormed, same⟩
    have printed := Literal.ofBytes?_eq_some_iff.2 ⟨c.wellFormed_literal, rfl⟩
    cases taken.symm.trans printed
    exact toRat
  · intro toRat
    exact ⟨c.literal, c.wellFormed_literal, c.bytes_literal.trans c.bytes_display.symm, toRat⟩

namespace Writer

variable {w : Writer} {c : Number.Components} {capacity : Nat}

/-- What a ready writer does with components whose fraction fits its places. -/
theorem write_components_of_fits (room : 0 < capacity) (ready : w.pending = [])
    (fits : c.fractionFits = true) :
    ∃ out next, w.write (.scalar (.components c)) capacity = (.ok out, next) ∧
      out ++ next.pending = w.separator ++ Utf8.bytes c.display := by
  rw [write, if_neg (Nat.ne_of_gt room), if_neg (not_not_intro ready), fragment, Scalar.text,
    if_pos fits, Number.Components.bytes_display]
  exact ⟨_, _, rfl, handOut_append _ capacity⟩

/-- What it does with others. -/
theorem write_components_of_not_fits (room : 0 < capacity) (ready : w.pending = [])
    (other : ¬c.fractionFits = true) :
    w.write (.scalar (.components c)) capacity = (.error .invalidNumber, w) := by
  rw [write, if_neg (Nat.ne_of_gt room), if_neg (not_not_intro ready), fragment, Scalar.text,
    if_neg other]
  rfl

/-- **A ready writer refuses exactly the components that it would print as another number.** Where
the printed text is a literal of the number that the components denote, it is written behind what
separates it from the items before it. All other components are refused as an invalid number, and
nothing is written. -/
theorem write_components_iff_faithful (room : 0 < capacity) (ready : w.pending = [])
    (c : Number.Components) :
    ((∃ out next, w.write (.scalar (.components c)) capacity = (.ok out, next)) ↔ c.Faithful) ∧
      (c.Faithful → ∃ out next, w.write (.scalar (.components c)) capacity = (.ok out, next) ∧
        out ++ next.pending = w.separator ++ Utf8.bytes c.display) ∧
      (¬c.Faithful → w.write (.scalar (.components c)) capacity = (.error .invalidNumber, w)) := by
  rw [Number.Components.faithful_iff]
  refine ⟨⟨?_, fun fits => ?_⟩, write_components_of_fits room ready,
    write_components_of_not_fits room ready⟩
  · rintro ⟨out, next, taken⟩
    by_contra other
    rw [write_components_of_not_fits room ready other] at taken
    cases taken
  · obtain ⟨out, next, taken, -⟩ := write_components_of_fits room ready fits
    exact ⟨out, next, taken⟩

/-- A fraction of three digits is written in three places and refused in two. -/
theorem write_components_iff_faithful_places :
    (∃ out next, ({} : Writer).write (.scalar (.components ⟨true, 7, 100, 3, true, 0⟩)) 4 =
        (.ok out, next) ∧
      out ++ next.pending = Utf8.bytes "-7.100e-0") ∧
    ({} : Writer).write (.scalar (.components ⟨false, 7, 100, 2, false, 0⟩)) 4 =
      (.error .invalidNumber, {}) := by
  have room : 0 < 4 := by decide
  obtain ⟨-, taken, -⟩ :=
    write_components_iff_faithful (w := {}) room rfl ⟨true, 7, 100, 3, true, 0⟩
  obtain ⟨-, -, refused⟩ :=
    write_components_iff_faithful (w := {}) room rfl ⟨false, 7, 100, 2, false, 0⟩
  have fits : Number.Components.fractionFits ⟨true, 7, 100, 3, true, 0⟩ = true := by
    simp [Number.Components.fractionFits, Decimal.length, Decimal.digits]
  have large : ¬Number.Components.fractionFits ⟨false, 7, 100, 2, false, 0⟩ = true := by
    simp [Number.Components.fractionFits, Decimal.length, Decimal.digits]
  have text : Number.Components.text ⟨true, 7, 100, 3, true, 0⟩ = Utf8.bytes "-7.100e-0" := by
    simp only [Number.Components.text, Number.Components.integerText,
      Number.Components.fractionText, Number.Components.exponentText, Decimal.padded]
    simp [Decimal.digits]
    decide
  obtain ⟨out, next, written, bytes⟩ := taken (Number.Components.faithful_iff.2 fits)
  rw [Number.Components.bytes_display, text] at bytes
  exact ⟨⟨out, next, written, bytes⟩,
    refused fun faithful => large (Number.Components.faithful_iff.1 faithful)⟩

end Writer

end JsonStream
