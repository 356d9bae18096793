import JsonStream.Proofs.Text.Utf8
import JsonStream.Text.Escape

/-!
# Quotes inside a string literal

Whoever reads a string literal skips the byte after a backslash, unless that backslash was skipped
itself, and takes the first quote that is not skipped for the end. What is written for a character
contains no such quote, and leaves nothing to skip behind it. So a quoted text ends with its last
byte.

* `escapesNext`: whether the byte after some bytes of a literal is skipped.
* `Escape.closed_ofChar`: one character.
* `quotesEscaped`: a text.
-/

namespace JsonStream

/-- What holds of no bytes and of bytes in a row holds of a list of pieces. -/
theorem flatMap_induction {α : Type} {P : Bytes → Prop} {f : α → Bytes} {list : List α}
    (nil : P []) (append : ∀ {first second : Bytes}, P first → P second → P (first ++ second))
    (h : ∀ x ∈ list, P (f x)) : P (list.flatMap f) := by
  induction list with
  | nil => exact nil
  | cons x list ih =>
    rw [List.flatMap_cons]
    exact append (h x List.mem_cons_self) (ih fun y mem => h y (List.mem_cons_of_mem x mem))

/-- Takes one more byte: whether the byte after it is skipped, given whether it is. -/
def escapesAfter (escaped : Bool) (byte : UInt8) : Bool :=
  !escaped && byte == Byte.backslash

/-- Whether the byte after some bytes of a string literal is skipped. -/
def escapesNext (bytes : Bytes) : Bool :=
  bytes.foldl escapesAfter false

/-- Every quote is skipped, and the byte that follows is not. -/
structure Closed (bytes : Bytes) : Prop where
  next : escapesNext bytes = false
  quotes : ∀ front back, bytes = front ++ Byte.quote :: back → escapesNext front = true

section
variable {first second bytes : Bytes}

theorem escapesNext_append (h : escapesNext first = false) :
    escapesNext (first ++ second) = escapesNext second := by
  rw [escapesNext, List.foldl_append]
  show second.foldl escapesAfter (escapesNext first) = _
  rw [h, escapesNext]

theorem closed_nil : Closed [] :=
  ⟨rfl, fun front back parts => by simp at parts⟩

theorem Closed.append (h : Closed first) (h' : Closed second) : Closed (first ++ second) where
  next := (escapesNext_append h.next).trans h'.next
  quotes := by
    intro front back parts
    rcases List.append_eq_append_iff.1 parts with ⟨more, rfl, rest⟩ | ⟨more, whole, rest⟩
    · rw [escapesNext_append h.next]
      exact h'.quotes more back rest
    · cases more with
      | nil => exact absurd (h'.quotes [] back rest.symm) Bool.false_ne_true
      | cons byte more =>
        cases rest
        exact h.quotes front more whole

/-- Without quotes and backslashes there is nothing to skip. -/
theorem closed_of_forall (h : ∀ byte ∈ bytes, byte ≠ Byte.quote ∧ byte ≠ Byte.backslash) :
    Closed bytes where
  next := by
    rcases List.eq_nil_or_concat bytes with rfl | ⟨front, last, rfl⟩
    · rfl
    · obtain ⟨-, other⟩ := h last (by simp)
      rw [List.concat_eq_append, escapesNext, List.foldl_append]
      show (_ && last == Byte.backslash) = false
      rw [beq_eq_false_iff_ne.2 other, Bool.and_false]
  quotes := by
    rintro front back rfl
    obtain ⟨other, -⟩ := h Byte.quote (by simp)
    contradiction

/-- A backslash and whatever byte stands behind it. -/
theorem closed_escape (byte : UInt8) : Closed [Byte.backslash, byte] where
  next := rfl
  quotes := by
    intro front back parts
    cases front with
    | nil => cases parts
    | cons first front =>
      cases front with
      | nil =>
        cases parts
        rfl
      | cons second front =>
        have length := congrArg List.length parts
        simp at length

theorem closed_flatMap {α : Type} {f : α → Bytes} {list : List α}
    (h : ∀ x ∈ list, Closed (f x)) : Closed (list.flatMap f) :=
  flatMap_induction closed_nil Closed.append h

end

/-! ### One character -/

/-- A byte of ASCII encodes nothing but its own character. -/
theorem Utf8.toNat_eq_of_mem_utf8EncodeChar {c : Char} {byte : UInt8}
    (mem : byte ∈ String.utf8EncodeChar c) (ascii : byte.toNat < 0x80) : c.toNat = byte.toNat := by
  by_cases one : c.toNat < 0x80
  · rw [utf8EncodeChar_one one, List.mem_singleton] at mem
    rw [mem, UInt8.toNat_ofNat_of_lt' (Nat.lt_trans one (by decide))]
  -- The bytes of a longer sequence are all outside ASCII.
  have outside : 0x80 ≤ byte.toNat := by
    by_cases two : c.toNat < 0x800
    · rw [utf8EncodeChar_two (by omega) two] at mem
      simp only [List.mem_cons, List.not_mem_nil, or_false] at mem
      rcases mem with rfl | rfl <;> rw [UInt8.toNat_ofNat'] <;> omega
    by_cases three : c.toNat < 0x10000
    · rw [utf8EncodeChar_three (by omega) three] at mem
      simp only [List.mem_cons, List.not_mem_nil, or_false] at mem
      rcases mem with rfl | rfl | rfl <;> rw [UInt8.toNat_ofNat'] <;> omega
    · rw [utf8EncodeChar_four (by omega)] at mem
      simp only [List.mem_cons, List.not_mem_nil, or_false] at mem
      rcases mem with rfl | rfl | rfl | rfl <;> rw [UInt8.toNat_ofNat'] <;> omega
  omega

namespace Escape

variable {asciiOnly : Bool} {c : Char}

/-- **How a character is written**: with a short escape, as its code units, or as itself. -/
inductive Writes (asciiOnly : Bool) (c : Char) : Bytes → Prop where
  | short {byte : UInt8} (short : shortOf? c = some byte) : Writes asciiOnly c [Byte.backslash, byte]
  | units (long : shortOf? c = none) : Writes asciiOnly c ((Utf16.units c).flatMap ofUnit)
  | raw (long : shortOf? c = none) (visible : isControl c = false)
      (ascii : asciiOnly = true → c.toNat < 0x80) : Writes asciiOnly c (String.utf8EncodeChar c)

theorem writes_ofChar (asciiOnly : Bool) (c : Char) : Writes asciiOnly c (ofChar asciiOnly c) := by
  rw [ofChar]
  cases long : shortOf? c with
  | some byte => exact .short long
  | none =>
    dsimp only
    by_cases escaped : (isControl c || (asciiOnly && 0x80 ≤ c.toNat)) = true
    · rw [if_pos escaped]
      exact .units long
    · rw [if_neg escaped]
      rw [Bool.not_eq_true, Bool.or_eq_false_iff] at escaped
      refine .raw long escaped.1 fun only => ?_
      have below := escaped.2
      rw [only, Bool.true_and, decide_eq_false_iff_not] at below
      omega

/-- The digits of a code unit. -/
theorem mem_hexOfUnit {unit : Nat} {byte : UInt8} (mem : byte ∈ Hex.ofUnit unit) :
    0x30 ≤ byte.toNat ∧ byte.toNat ≤ 0x39 ∨ 0x61 ≤ byte.toNat ∧ byte.toNat ≤ 0x66 := by
  have digits : ∀ n < 16, 0x30 ≤ (Hex.ofDigit n).toNat ∧ (Hex.ofDigit n).toNat ≤ 0x39 ∨
      0x61 ≤ (Hex.ofDigit n).toNat ∧ (Hex.ofDigit n).toNat ≤ 0x66 := by decide
  simp only [Hex.ofUnit, List.mem_cons, List.not_mem_nil, or_false] at mem
  rcases mem with rfl | rfl | rfl | rfl
  all_goals exact digits _ (by omega)

theorem closed_ofUnit (unit : Nat) : Closed (ofUnit unit) := by
  have digits : Closed (Hex.ofUnit unit) := by
    refine closed_of_forall fun byte mem => ⟨?_, ?_⟩
    · rintro rfl
      exact absurd (mem_hexOfUnit mem) (by decide)
    · rintro rfl
      exact absurd (mem_hexOfUnit mem) (by decide)
  exact (closed_escape Byte.lowerU).append digits

/-- **What is written for a character contains no quote that is not skipped**, and leaves nothing to
skip. -/
theorem closed_ofChar (asciiOnly : Bool) (c : Char) : Closed (ofChar asciiOnly c) := by
  have writes := writes_ofChar asciiOnly c
  generalize ofChar asciiOnly c = bytes at writes
  cases writes with
  | short => exact closed_escape _
  | units => exact closed_flatMap fun unit _ => closed_ofUnit unit
  | raw long =>
    refine closed_of_forall fun byte mem => ?_
    have own : byte.toNat < 0x80 → c = Char.ofNat byte.toNat := fun ascii => by
      rw [← Utf8.toNat_eq_of_mem_utf8EncodeChar mem ascii, Char.ofNat_toNat]
    constructor
    · rintro rfl
      rw [own (by decide)] at long
      contradiction
    · rintro rfl
      rw [own (by decide)] at long
      contradiction

end Escape

/-! ### A text -/

/-- **A quoted text ends at its last byte.** Of the quotes in its literal the first and the last
byte are the only ones that are not skipped. Every quote and every backslash of the text stands
behind a backslash that is not skipped itself. -/
structure QuotesEscaped (asciiOnly : Bool) (text : String) : Prop where
  bare : ∀ front back, quoted asciiOnly text = front ++ Byte.quote :: back →
    (escapesNext front = false ↔ front = [] ∨ back = [])
  source : ∀ before after c byte, text.toList = before ++ c :: after →
    c = '"' ∧ byte = Byte.quote ∨ c = '\\' ∧ byte = Byte.backslash →
      ∃ front back, front = Byte.quote :: before.flatMap (Escape.ofChar asciiOnly) ∧
        quoted asciiOnly text = front ++ Byte.backslash :: byte :: back ∧
        escapesNext front = false

theorem escapesNext_quote_cons (bytes : Bytes) :
    escapesNext (Byte.quote :: bytes) = escapesNext bytes := rfl

theorem quotesEscaped (asciiOnly : Bool) (text : String) : QuotesEscaped asciiOnly text where
  bare := by
    intro front back parts
    have body : Closed (text.toList.flatMap (Escape.ofChar asciiOnly)) :=
      closed_flatMap fun c _ => Escape.closed_ofChar asciiOnly c
    rw [quoted] at parts
    generalize text.toList.flatMap (Escape.ofChar asciiOnly) = inner at body parts
    cases front with
    | nil => exact iff_of_true rfl (.inl rfl)
    | cons first front =>
      rw [List.cons_append, List.cons.injEq] at parts
      obtain ⟨rfl, rest⟩ := parts
      rw [escapesNext_quote_cons]
      rcases List.eq_nil_or_concat back with rfl | ⟨more, last, rfl⟩
      · rw [← List.append_cancel_right rest]
        exact iff_of_true body.next (.inr rfl)
      · rw [List.concat_eq_append, ← List.cons_append, ← List.append_assoc] at rest
        obtain ⟨whole, -⟩ := List.append_inj' rest rfl
        rw [body.quotes front more whole]
        exact iff_of_false Bool.noConfusion (by simp)
  source := by
    rintro before after c byte parts special
    have written : Escape.ofChar asciiOnly c = [Byte.backslash, byte] := by
      rcases special with ⟨rfl, rfl⟩ | ⟨rfl, rfl⟩ <;> rfl
    have front : Closed (before.flatMap (Escape.ofChar asciiOnly)) :=
      closed_flatMap fun c _ => Escape.closed_ofChar asciiOnly c
    refine ⟨_, after.flatMap (Escape.ofChar asciiOnly) ++ [Byte.quote], rfl, ?_, front.next⟩
    rw [quoted, parts, List.flatMap_append, List.flatMap_cons, written]
    simp only [List.append_assoc, List.cons_append, List.nil_append]

/-- A backslash before the last character, which is a quote. -/
example : quoted false "\\\"" = [0x22, 0x5c, 0x5c, 0x5c, 0x22, 0x22] ∧
    escapesNext [0x22, 0x5c, 0x5c, 0x5c] = true ∧
      escapesNext [0x22, 0x5c, 0x5c, 0x5c, 0x22] = false := by
  decide

end JsonStream
