import JsonStream.Proofs.Grammar.Strings
import JsonStream.Proofs.Text.Quoting

/-!
# Quoted texts are string literals

What a writer makes of a text is a string literal of the text, with everything outside ASCII escaped
or not.

* `charText_ofChar`: one character.
* `stringText_quoted`: a text.
-/

namespace JsonStream

theorem hexDigit_ofDigit {n : Nat} (h : n < 16) : HexDigit (Hex.ofDigit n) n := by
  have digits : ∀ n < 16, Hex.digit? (Hex.ofDigit n) = some n := by decide
  exact digit?_eq_some_iff.1 (digits n h)

/-- The four digits of a code unit name it. -/
theorem unitText_ofUnit {unit : Nat} (h : unit < 0x10000) : UnitText (Hex.ofUnit unit) unit := by
  refine ⟨_, _, _, _, _, _, _, _, rfl, ⟨hexDigit_ofDigit ?_, hexDigit_ofDigit ?_,
    hexDigit_ofDigit ?_, hexDigit_ofDigit ?_⟩, ?_⟩
  all_goals omega

section
variable {d : Dialect}

/-- A character is spelled by the escapes of its code units. -/
theorem charText_units (d : Dialect) (c : Char) :
    CharText d c ((Utf16.units c).flatMap Escape.ofUnit) := by
  have valid : c.toNat < 0xd800 ∨ 0xdfff < c.toNat ∧ c.toNat < 0x110000 := c.valid
  rw [Utf16.units]
  by_cases basic : c.toNat < 0x10000
  · rw [if_pos basic]
    exact .unit (unitText_ofUnit basic) (not_surrogate_toNat c) rfl
  · rw [if_neg basic]
    have high : 0xd800 + (c.toNat - 0x10000) / 0x400 ≤ 0xdbff := by omega
    have low : 0xdc00 + (c.toNat - 0x10000) % 0x400 ≤ 0xdfff := by omega
    refine .pair (unitText_ofUnit ?_) (unitText_ofUnit ?_) ⟨?_, high⟩ ⟨?_, low⟩ ?_
    all_goals omega

/-- A character that is written as itself may stand for itself. -/
theorem charText_raw {c : Char} (raw : d.raw c (String.utf8EncodeChar c))
    (long : Escape.shortOf? c = none) (printable : Escape.isControl c = false) :
    CharText d c (String.utf8EncodeChar c) := by
  refine .raw raw ?_ ?_ ?_
  · simp only [Escape.isControl, Bool.or_eq_false_iff, decide_eq_false_iff_not] at printable
    omega
  · intro same
    subst same
    contradiction
  · intro same
    subst same
    contradiction

/-- A character is spelled by what is written for it, provided that the characters written as
themselves may stand for themselves. -/
theorem charText_ofChar {asciiOnly : Bool} {c : Char}
    (raw : (asciiOnly = true → c.toNat < 0x80) → d.raw c (String.utf8EncodeChar c)) :
    CharText d c (Escape.ofChar asciiOnly c) := by
  have writes := Escape.writes_ofChar asciiOnly c
  generalize Escape.ofChar asciiOnly c = bytes at writes
  cases writes with
  | short short => exact .short (short?_eq_some_iff.1 (Escape.short?_of_shortOf? short))
  | units => exact charText_units d c
  | raw long visible ascii => exact charText_raw (raw ascii) long visible

/-- **A quoted text is a string literal of the text.** With everything outside ASCII escaped, only
the characters of ASCII have to stand for themselves. -/
theorem stringText_quoted {asciiOnly : Bool}
    (raw : ∀ c : Char, (asciiOnly = true → c.toNat < 0x80) → d.raw c (String.utf8EncodeChar c))
    (text : String) : StringText d text (quoted asciiOnly text) := by
  refine ⟨_, rfl, ?_⟩
  induction text.toList with
  | nil => exact .nil
  | cons c chars ih =>
    rw [List.flatMap_cons]
    exact .cons (charText_ofChar (raw c)) ih

end

end JsonStream
