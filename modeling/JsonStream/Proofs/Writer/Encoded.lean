import JsonStream.Writer.Basic
import JsonStream.Proofs.Text.Validation

/-!
# Writing bytes that are said to be UTF-8

A reader checks the UTF-8 of strings byte by byte, as the bytes arrive. A writer is handed all bytes
of a string at once and checks them as a whole. The two checks agree: a writer takes the bytes of
which the byte-wise check accepts every one without leaving a sequence open.

* `Writer.write_text`: bytes that encode a text are written like it.
* `Writer.write_malformed`: other bytes are refused, with the length of their longest well-formed
  prefix.
* `Utf8.exact_and_agreed`: the byte-wise check is exact, and a writer agrees with it.
-/

namespace JsonStream

theorem Utf8.wellFormed_iff_exists_text {input : Bytes} :
    WellFormed input ↔ ∃ text, text? input = some text := by
  constructor
  · rintro ⟨chars, rfl⟩
    refine ⟨String.ofList chars, text?_eq_some_iff.2 ?_⟩
    rw [bytes, String.toList_ofList]
  · rintro ⟨text, h⟩
    exact ⟨text.toList, text?_eq_some_iff.1 h⟩

namespace Writer

variable {w : Writer} {capacity : Nat}

/-- Bytes that encode a text are written like it. -/
theorem write_text (w : Writer) (text : String) (capacity : Nat) :
    w.write (.scalar (.encoded (Utf8.bytes text) .utf8)) capacity =
      w.write (.scalar (.string text)) capacity := by
  rw [write, write, fragment, fragment, Scalar.text_encoded_bytes]

/-- A ready writer takes every text. -/
theorem exists_write_string (room : 0 < capacity) (ready : w.pending = []) (text : String) :
    ∃ out next, w.write (.scalar (.string text)) capacity = (.ok out, next) := by
  rw [write, if_neg (Nat.ne_of_gt room), if_neg (not_not_intro ready)]
  exact ⟨_, _, rfl⟩

/-- A ready writer refuses bytes that encode no text. -/
theorem write_malformed {input : Bytes} (room : 0 < capacity) (ready : w.pending = [])
    (malformed : ¬Utf8.WellFormed input) :
    w.write (.scalar (.encoded input .utf8)) capacity =
      (.error (.invalidUtf8 (Utf8.validPrefixLength input)), w) := by
  have none : Utf8.text? input = none :=
    Option.eq_none_iff_forall_ne_some.2 fun text h =>
      malformed (Utf8.wellFormed_iff_exists_text.2 ⟨text, h⟩)
  rw [write, if_neg (Nat.ne_of_gt room), if_neg (not_not_intro ready), fragment, Scalar.text, none]
  rfl

/-- A ready writer takes bytes exactly if they encode a text. -/
theorem exists_write_encoded_iff {input : Bytes} (room : 0 < capacity) (ready : w.pending = []) :
    (∃ out next, w.write (.scalar (.encoded input .utf8)) capacity = (.ok out, next)) ↔
      Utf8.WellFormed input := by
  constructor
  · rintro ⟨out, next, taken⟩
    by_contra malformed
    rw [write_malformed room ready malformed] at taken
    cases taken
  · rintro ⟨chars, rfl⟩
    have same := w.write_text (String.ofList chars) capacity
    rw [Utf8.bytes, String.toList_ofList] at same
    rw [same]
    exact exists_write_string room ready _

end Writer

/-- **The byte-wise check is exact, and a writer agrees with it.** A byte string is accepted without
a sequence left open exactly if it encodes a sequence of characters. The first byte rejected, if
there is one, is the first with which no well-formed text goes on. A ready writer takes exactly the
byte strings that are accepted and complete, which it writes like their text. It refuses all others
with the length of their longest well-formed prefix, at most three bytes before the first byte
rejected, or before the end if none is. -/
theorem Utf8.exact_and_agreed (input : Bytes) :
    (State.boundary.run? input = some .boundary ↔ WellFormed input) ∧
      ((State.boundary.run? input).isSome ↔ State.boundary.firstRejected? input = none) ∧
      (∀ i, State.boundary.firstRejected? input = some i ↔
        IsLeast {j | j < input.length ∧ ¬Viable (input.take (j + 1))} i) ∧
      ∀ (w : Writer) (capacity : Nat), 0 < capacity → w.pending = [] →
        ((∃ out next, w.write (.scalar (.encoded input .utf8)) capacity = (.ok out, next)) ↔
          State.boundary.run? input = some .boundary) ∧
        (∀ text, input = bytes text →
          w.write (.scalar (.encoded input .utf8)) capacity =
            w.write (.scalar (.string text)) capacity) ∧
        (State.boundary.run? input ≠ some .boundary →
          ∃ n, w.write (.scalar (.encoded input .utf8)) capacity = (.error (.invalidUtf8 n), w) ∧
            IsGreatest {m | m ≤ input.length ∧ WellFormed (input.take m)} n ∧
            n ≤ (State.boundary.firstRejected? input).getD input.length ∧
            (State.boundary.firstRejected? input).getD input.length ≤ n + 3) := by
  refine ⟨run?_eq_boundary_iff, State.isSome_run?_iff _ _, fun i => firstRejected?_eq_some_iff, ?_⟩
  intro w capacity room ready
  rw [run?_eq_boundary_iff]
  refine ⟨Writer.exists_write_encoded_iff room ready, ?_, fun other => ?_⟩
  · rintro text rfl
    exact w.write_text text capacity
  · obtain ⟨before, near⟩ := firstRejected?_getD_bounds input
    have malformed : ¬WellFormed input := fun whole => other (run?_eq_boundary_iff.2 whole)
    exact ⟨validPrefixLength input, Writer.write_malformed room ready malformed,
      isGreatest_validPrefixLength input, before, near⟩

/-- A three-byte sequence is cut short behind a letter, and `é` is whole. -/
theorem Utf8.exact_and_agreed_cut :
    (∃ n, ({} : Writer).write (.scalar (.encoded [0x61, 0xe2, 0x82] .utf8)) 16 =
        (.error (.invalidUtf8 n), {}) ∧
      IsGreatest {m | m ≤ 3 ∧ WellFormed (List.take m [0x61, 0xe2, 0x82])} n ∧
      n ≤ 3 ∧ 3 ≤ n + 3) ∧
    ({} : Writer).write (.scalar (.encoded (bytes "é") .utf8)) 16 =
      ({} : Writer).write (.scalar (.string "é")) 16 :=
  ⟨((exact_and_agreed [0x61, 0xe2, 0x82]).2.2.2 {} 16 (by decide) rfl).2.2 (by decide),
    ((exact_and_agreed (bytes "é")).2.2.2 {} 16 (by decide) rfl).2.1 "é" rfl⟩

end JsonStream
