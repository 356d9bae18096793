import JsonStream.Proofs.Reencoding

/-!
# Transcoding twice

What a transcoder has written is transcoded to itself, unless a negative zero without fraction and
exponent has been reported as components where integers are reported: it is written like an
integer, and an integer has no negative zero.

* `Writer.Prints.eq_map_iff`: texts are equal exactly if all numbers in them are written alike.
* `Transcoder.transcode_transcode`: the exact condition.
-/

namespace JsonStream

/-! ### Comparing texts -/

namespace Writer.Prints

variable {w next next' : Writer} {items : List Item} {bytes bytes' : Bytes}

theorem options_eq (h : w.Prints items bytes next) : next.options = w.options := by
  induction h with
  | nil w => rfl
  | cons _ _ ih => exact ih

/-- A printed scalar is its separator and its text. -/
theorem exists_text {s : Scalar} (h : w.Prints [.scalar s] bytes next) :
    ∃ text, s.text w.options.asciiOnly = .ok text ∧ bytes = w.separator ++ text ∧
      next = { w with slots := w.filledSlots } := by
  cases h with
  | cons fragment more =>
    cases more
    rw [List.append_nil]
    unfold Writer.fragment at fragment
    dsimp only at fragment
    cases answer : s.text w.options.asciiOnly with
    | error e =>
      rw [answer] at fragment
      contradiction
    | ok text =>
      rw [answer] at fragment
      cases fragment
      exact ⟨text, rfl, rfl, rfl⟩

end Writer.Prints

/-- A token is that of a number, or it has none to replace. -/
theorem Token.map_cases (f : Numeral → Numeral) (token : Token) :
    (∃ n : Numeral, token = n.token) ∨ token.map f = token ∧ ∀ n : Numeral, n.token ≠ token := by
  cases token with
  | integer value => exact .inl ⟨.integer value, rfl⟩
  | number value => exact .inl ⟨.other value, rfl⟩
  | _ => exact .inr ⟨rfl, fun n => by cases n <;> exact nofun⟩

namespace Writer.Prints

variable {w next next' : Writer} {tokens : List Token} {bytes bytes' : Bytes}

/-- **Texts tell whether numbers are written alike.** If numbers are replaced by some that are not
longer, the text stays the same exactly if every one of them is written as before. -/
theorem eq_map_iff {f : Numeral → Numeral}
    (first : w.Prints (tokens.flatMap Token.items) bytes next)
    (second : w.Prints ((tokens.map (Token.map f)).flatMap Token.items) bytes' next')
    (shorter : ∀ n : Numeral, n.token ∈ tokens → ∀ text text',
      n.scalar.text w.options.asciiOnly = .ok text →
        (f n).scalar.text w.options.asciiOnly = .ok text' → text'.length ≤ text.length) :
    bytes'.length ≤ bytes.length ∧
      (bytes' = bytes ↔ ∀ n : Numeral, n.token ∈ tokens →
        (f n).scalar.text w.options.asciiOnly = n.scalar.text w.options.asciiOnly) := by
  induction tokens generalizing w bytes bytes' with
  | nil =>
    cases first
    cases second
    exact ⟨Nat.le_refl _, iff_of_true rfl fun n mem => absurd mem List.not_mem_nil⟩
  | cons token tokens ih =>
    obtain ⟨front, back, middle, rfl, printed, first⟩ := first.exists_of_append
    obtain ⟨front', back', middle', rfl, printed', second⟩ := second.exists_of_append
    have shorter_rest := fun n mem => shorter n (List.mem_cons_of_mem _ mem)
    rcases Token.map_cases f token with ⟨n, rfl⟩ | ⟨same, other⟩
    · rw [Numeral.items_token] at printed
      rw [Token.map_token, Numeral.items_token] at printed'
      obtain ⟨text, text_eq, rfl, rfl⟩ := printed.exists_text
      obtain ⟨text', text_eq', rfl, rfl⟩ := printed'.exists_text
      have le := shorter n List.mem_cons_self text text' text_eq text_eq'
      obtain ⟨le_rest, rest_iff⟩ := ih first second shorter_rest
      refine ⟨?_, ?_⟩
      · simp only [List.length_append]
        omega
      constructor
      · intro same
        have total := congrArg List.length same
        simp only [List.length_append] at total
        rw [List.append_assoc, List.append_assoc] at same
        -- Neither the number nor what follows it is longer, so both have kept their lengths.
        obtain ⟨rfl, same_rest⟩ := List.append_inj (List.append_cancel_left same) (by omega)
        intro m mem
        rcases List.mem_cons.1 mem with same_token | mem
        · rw [Numeral.token_injective same_token, text_eq, text_eq']
        · exact rest_iff.1 same_rest m mem
      · intro alike
        have same_text := alike n List.mem_cons_self
        rw [text_eq, text_eq', Except.ok.injEq] at same_text
        rw [same_text, rest_iff.2 fun m mem => alike m (List.mem_cons_of_mem _ mem)]
    · rw [same] at printed'
      obtain ⟨rfl, rfl⟩ := printed.unique printed'
      have kept := printed.options_eq
      obtain ⟨le_rest, rest_iff⟩ := ih first second (by rw [kept]; exact shorter_rest)
      rw [kept] at rest_iff
      refine ⟨?_, ?_⟩
      · simp only [List.length_append]
        omega
      rw [List.append_cancel_left_eq, rest_iff]
      constructor
      · intro alike n mem
        rcases List.mem_cons.1 mem with same_token | mem
        · exact absurd same_token (other n)
        · exact alike n mem
      · intro alike n mem
        exact alike n (List.mem_cons_of_mem _ mem)

end Writer.Prints

/-! ### Numbers -/

namespace ReaderOptions

variable {options : ReaderOptions} {n : Numeral} {bytes : Bytes}

/-- Writing a number that has been written and read is not longer. -/
theorem NumeralText.length_reread_le (h : options.NumeralText n bytes)
    (exact : options.numbers ≠ .float) {asciiOnly : Bool} {text text' : Bytes}
    (first : n.scalar.text asciiOnly = .ok text)
    (second : (options.reread n).scalar.text asciiOnly = .ok text') :
    text'.length ≤ text.length := by
  by_cases zero : options.integers = true ∧ n = .other (.components .negativeZero)
  · obtain ⟨integers, rfl⟩ := zero
    have read : options.rereadComponents .negativeZero = .integer 0 := by
      rw [rereadComponents]
      rw [if_pos integers, Number.Components.int64?_negativeZero]
    have unsigned : Scalar.integerText 0 = Number.signedText false (Decimal.digits 0) := rfl
    have signed : Except.ok Number.Components.negativeZero.text = .ok text := first
    replace second : (options.rereadComponents .negativeZero).scalar.text asciiOnly = _ := second
    rw [read] at second
    replace second : Except.ok (Scalar.integerText 0) = .ok text' := second
    cases signed
    cases second
    rw [unsigned, Number.Components.text_negativeZero]
    exact Nat.le_succ _
  · have same := (h.text_reread_iff exact asciiOnly).2 zero
    rw [first, second, Except.ok.injEq] at same
    exact Nat.le_of_eq (congrArg List.length same)

end ReaderOptions

namespace Transcoder

variable {options : ReaderOptions} {o : WriterOptions} {capacity : Nat} {chunks : List Bytes}
  {tokens : List Token}

/-- **What has been transcoded is transcoded to itself, but for negative zeros.** The output for an
accepted document is accepted under the same number options, however it is cut; it is its own output
exactly if integers are not reported or no negative zero has been reported as components. -/
theorem transcode_transcode (exact : options.numbers ≠ .float) (encoding : options.encoding = .utf8)
    (indent : o.BlankIndent) (room : 0 < capacity) (nonempty : ∀ chunk ∈ chunks, chunk ≠ [])
    (accepted : ({ options } : Reader).collect chunks = .ok tokens) :
    ∃ t, transcode options o capacity chunks = (.finished, t) ∧
      ∀ again : List Bytes, again.flatten = t.output → (∀ chunk ∈ again, chunk ≠ []) →
        (∃ tokens', ({ options } : Reader).collect again = .ok tokens') ∧
          ∃ t', transcode options o capacity again = (.finished, t') ∧
            (t'.output = t.output ↔
              ¬(options.integers = true ∧ .number (.components .negativeZero) ∈ tokens)) := by
  have utf8 : options.utf8 = options := by
    rw [ReaderOptions.utf8]
    rw [← encoding]
  obtain ⟨v, document, rfl⟩ := Reader.collect_eq_ok_iff_document.1 accepted
  obtain ⟨text, printed, written⟩ := document.prints exact indent
  obtain ⟨t, finished, output, -⟩ := transcode_prints room nonempty accepted printed
  rw [utf8] at written
  refine ⟨t, finished, ?_⟩
  intro again cut nonempty_again
  rw [← output, ← cut] at written
  have accepted_again := Reader.collect_eq_ok_iff_document.2 ⟨_, written, rfl⟩
  obtain ⟨text', printed', -⟩ := written.prints exact indent
  obtain ⟨t', finished', output', -⟩ :=
    transcode_prints room nonempty_again accepted_again printed'
  refine ⟨⟨_, accepted_again⟩, t', finished', ?_⟩
  -- Every number that is printed has a literal in the document.
  have literals : ∀ n : Numeral, n.token ∈ v.flatten ++ [Token.done] →
      ∃ literal, options.NumeralText n literal := by
    intro n mem
    rcases List.mem_append.1 mem with mem | mem
    · exact document.exists_literal mem
    · exact absurd (List.mem_singleton.1 mem) (Numeral.token_ne rfl)
  have replaced : (v.map options.reread).flatten ++ [Token.done] =
      (v.flatten ++ [Token.done]).map (Token.map options.reread) := by
    rw [List.map_append, ← Value.flatten_map]
    rfl
  rw [replaced] at printed'
  obtain ⟨-, alike_iff⟩ := printed.eq_map_iff printed' fun n mem text text' first second => by
    obtain ⟨literal, spelled⟩ := literals n mem
    exact spelled.length_reread_le exact first second
  rw [output, output', alike_iff]
  constructor
  · intro alike found
    obtain ⟨integers, mem⟩ := found
    obtain ⟨literal, spelled⟩ := literals (.other (.components .negativeZero)) mem
    exact (spelled.text_reread_iff exact o.asciiOnly).1 (alike _ mem) ⟨integers, rfl⟩
  · intro absent n mem
    obtain ⟨literal, spelled⟩ := literals n mem
    refine (spelled.text_reread_iff exact o.asciiOnly).2 ?_
    intro found
    obtain ⟨integers, rfl⟩ := found
    exact absent ⟨integers, mem⟩

/-- A fraction of zeros is dropped once and for all, though the number is an integer then. -/
theorem transcode_transcode_fractions :
    ∃ t, transcode { integers := true, numbers := .components } { indent := some "" } 3
        [[0x5b, 0x31, 0x2e], [0x30, 0x2c, 0x32, 0x2e, 0x35, 0x30, 0x5d]] = (.finished, t) ∧
      ∀ again : List Bytes, again.flatten = t.output → (∀ chunk ∈ again, chunk ≠ []) →
        ∃ t', transcode { integers := true, numbers := .components } { indent := some "" } 3 again =
            (.finished, t') ∧ t'.output = t.output := by
  obtain ⟨t, finished, twice⟩ := @transcode_transcode
    { integers := true, numbers := .components } { indent := some "" } 3
    [[0x5b, 0x31, 0x2e], [0x30, 0x2c, 0x32, 0x2e, 0x35, 0x30, 0x5d]]
    [.beginArray, .number (.components ⟨false, 1, 0, 0, false, 0⟩),
      .number (.components ⟨false, 2, 5, 1, false, 0⟩), .endArray, .done]
    (by decide) rfl (by rintro indent ⟨⟩; exact blank_nil) (by decide) (by decide)
    (by decide +kernel)
  refine ⟨t, finished, fun again cut nonempty => ?_⟩
  obtain ⟨-, t', finished_again, same⟩ := twice again cut nonempty
  refine ⟨t', finished_again, same.2 ?_⟩
  intro found
  obtain ⟨-, mem⟩ := found
  simp [Number.Components.negativeZero] at mem

/-- A negative zero with a fraction is written as `-0`, which is read as an integer and written
as `0`. -/
theorem transcode_negativeZero :
    (transcode { integers := true, numbers := .components } {} 64
        [[0x2d, 0x30, 0x2e, 0x30]]).1 = .finished ∧
      (transcode { integers := true, numbers := .components } {} 64
          [[0x2d, 0x30, 0x2e, 0x30]]).2.output = [0x2d, 0x30] ∧
        (transcode { integers := true, numbers := .components } {} 64 [[0x2d, 0x30]]).1 = .finished ∧
          (transcode { integers := true, numbers := .components } {} 64 [[0x2d, 0x30]]).2.output =
            [0x30] := by
  decide +kernel

end Transcoder

end JsonStream
