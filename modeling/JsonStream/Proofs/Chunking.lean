import Mathlib.Algebra.Order.Floor.Div
import JsonStream.Chunking

/-!
# Cutting loses nothing

Both ways of cutting take one piece after another off the front of what is left. No piece is empty,
so the loop ends, and the pieces give the input again. Pieces of one size are as few as the size
allows; drawn sizes are remainders of generated words, which never reach beyond what is left.

* `Chunking.Partitions.cons`: one more piece in front.
* `Chunking.length_everySucc_le`: how many pieces of one size there are.
* `Chunking.length_getElem_drawn`: the size of each drawn piece.
* `Chunking.cuts_cover`: all of it, for a number of parts and for a seed.
-/

namespace JsonStream

namespace Chunking

variable {size parts : ℕ} {byte : UInt8} {input rest : Bytes} {chunks more : List Bytes}

/-- **Pieces of an input**: put together they are the input, and none of them is empty. -/
structure Partitions (input : Bytes) (chunks : List Bytes) : Prop where
  flatten : chunks.flatten = input
  ne_nil : ∀ chunk ∈ chunks, chunk ≠ []

/-- Pieces of one size but for the last one, which is not longer. -/
structure Even (size : ℕ) (chunks : List Bytes) : Prop where
  full : ∀ chunk ∈ chunks.dropLast, chunk.length = size
  last : ∀ chunk ∈ chunks.getLast?, chunk.length ≤ size

theorem partitions_nil : Partitions [] [] :=
  ⟨rfl, nofun⟩

/-- One more piece is cut off the front. It has a byte, whatever its size. -/
theorem Partitions.cons (h : Partitions (rest.drop size) more) :
    Partitions (byte :: rest) ((byte :: rest.take size) :: more) where
  flatten := by
    rw [List.flatten_cons, h.flatten, List.cons_append, List.take_append_drop]
  ne_nil := List.forall_mem_cons.2 ⟨List.cons_ne_nil _ _, h.ne_nil⟩

/-- There are no more pieces than bytes. -/
theorem Partitions.length_le (h : Partitions input chunks) : chunks.length ≤ input.length := by
  rw [← h.flatten]
  have nonempty := h.ne_nil
  clear h
  induction chunks with
  | nil => exact Nat.le_refl 0
  | cons chunk more ih =>
    obtain ⟨first, others⟩ := List.forall_mem_cons.1 nonempty
    have positive := List.length_pos_iff.2 first
    have fewer := ih others
    rw [List.length_cons, List.flatten_cons, List.length_append]
    omega

/-! ### Pieces of one size -/

theorem partitions_everySucc (size : ℕ) (input : Bytes) :
    Partitions input (everySucc size input) := by
  fun_induction everySucc size input with
  | case1 => exact partitions_nil
  | case2 byte rest ih => exact ih.cons

theorem even_everySucc (size : ℕ) (input : Bytes) : Even (size + 1) (everySucc size input) := by
  fun_induction everySucc size input with
  | case1 => exact ⟨nofun, nofun⟩
  | case2 byte rest ih =>
    have covers := (partitions_everySucc size (rest.drop size)).flatten
    cases tail : everySucc size (rest.drop size) with
    | nil =>
      refine ⟨nofun, fun chunk last => ?_⟩
      cases last
      show (byte :: rest.take size).length ≤ size + 1
      rw [List.length_cons, List.length_take]
      exact Nat.succ_le_succ (Nat.min_le_left _ _)
    | cons chunk more =>
      rw [tail] at ih covers
      -- Something is left behind this piece, so the piece is full.
      have left : rest.drop size ≠ [] := by
        have some := (partitions_everySucc size (rest.drop size)).ne_nil chunk
        rw [tail] at some
        intro none
        rw [none, List.flatten_cons] at covers
        exact some List.mem_cons_self (List.append_eq_nil_iff.1 covers).1
      have long : size < rest.length := by
        by_contra short
        exact left (List.drop_eq_nil_of_le (Nat.le_of_not_lt short))
      refine ⟨List.forall_mem_cons.2 ⟨?_, ih.full⟩, ?_⟩
      · rw [List.length_cons, List.length_take, Nat.min_eq_left (Nat.le_of_lt long)]
      · rw [List.getLast?_cons_cons]
        exact ih.last

/-- As many pieces suffice as make up the length of the input. -/
theorem length_everySucc_le (enough : input.length ≤ (size + 1) * parts) :
    (everySucc size input).length ≤ parts := by
  fun_induction everySucc size input generalizing parts with
  | case1 => exact Nat.zero_le parts
  | case2 byte rest ih =>
    cases parts with
    | zero => contradiction
    | succ parts =>
      refine Nat.succ_le_succ (ih ?_)
      rw [List.length_cons, Nat.mul_succ] at enough
      rw [List.length_drop]
      omega

/-- A number of nearly equal parts has the size that the ceiling of the quotient gives. -/
theorem inParts_eq (parts : ℕ) (input : Bytes) :
    inParts parts input = everySucc (input.length ⌈/⌉ parts - 1) input := by
  rw [Nat.ceilDiv_eq_add_pred_div]
  rfl

/-! ### Pieces of drawn sizes -/

/-- The next word as a number: what a shift to the left moves out of the 64 bits is lost. -/
def xorshift (word : ℕ) : ℕ :=
  let word := word ^^^ (word * 2 ^ 13 % 2 ^ 64)
  let word := word ^^^ (word / 2 ^ 7)
  word ^^^ (word * 2 ^ 17 % 2 ^ 64)

theorem toNat_nextWord (state : UInt64) : (nextWord state).toNat = xorshift state.toNat := by
  simp only [nextWord, xorshift, UInt64.toNat_xor, UInt64.toNat_shiftLeft,
    UInt64.toNat_shiftRight, Nat.shiftLeft_eq, Nat.shiftRight_eq_div_pow]
  rfl

theorem partitions_drawn (state : UInt64) (input : Bytes) :
    Partitions input (drawn state input) := by
  fun_induction drawn state input with
  | case1 => exact partitions_nil
  | case2 state byte rest next size ih => exact ih.cons

/-- **The size of each drawn piece** is one more than the remainder of the next word by the number
of bytes that are left. -/
theorem length_getElem_drawn (state : UInt64) (input : Bytes) (i : ℕ)
    (h : i < (drawn state input).length) :
    (drawn state input)[i].length =
      xorshift^[i + 1] state.toNat % ((drawn state input).drop i).flatten.length + 1 := by
  fun_induction drawn state input generalizing i with
  | case1 => contradiction
  | case2 state byte rest next size ih =>
    rw [Function.iterate_succ_apply, ← toNat_nextWord]
    cases i with
    | zero =>
      have covers : Partitions (byte :: rest) _ := (partitions_drawn next (rest.drop size)).cons
      have fits : size < rest.length + 1 := Nat.mod_lt _ (Nat.succ_pos _)
      rw [List.drop_zero, covers.flatten, List.getElem_cons_zero, List.length_cons,
        List.length_take, Nat.min_eq_left (Nat.le_of_lt_succ fits)]
      rfl
    | succ i => exact ih i (Nat.lt_of_succ_lt_succ h)

/-! ### Both -/

/-- **Cutting covers the input.** The pieces are not empty and give the input when they are put
together. A number of parts gives at most that many of them, all of one size but the last one, which
is not longer. A seed gives pieces whose sizes are drawn: each word of the generator, reduced to a
size between one and the number of bytes that are left, is the size of the next piece. -/
theorem cuts_cover (input : Bytes) :
    (∀ parts, 0 < parts →
      let chunks := inParts parts input
      Partitions input chunks ∧ chunks.length ≤ parts ∧
        Even (max (input.length ⌈/⌉ parts) 1) chunks) ∧
    ∀ seed,
      let chunks := bySeed seed input
      Partitions input chunks ∧ chunks.length ≤ input.length ∧
        ∀ i (h : i < chunks.length),
          let left := (chunks.drop i).flatten.length
          let size := xorshift^[i + 1] (seed ||| 1).toNat % left + 1
          chunks[i].length = size ∧ 1 ≤ size ∧ size ≤ left := by
  refine ⟨fun parts positive => ?_, fun seed => ?_⟩
  · have size : input.length ⌈/⌉ parts - 1 + 1 = max (input.length ⌈/⌉ parts) 1 := by omega
    rw [inParts_eq]
    refine ⟨partitions_everySucc _ input, length_everySucc_le ?_, ?_⟩
    · have enough : input.length ≤ parts * (input.length ⌈/⌉ parts) := le_smul_ceilDiv positive
      calc
        input.length ≤ parts * (input.length ⌈/⌉ parts) := enough
        _ ≤ parts * (input.length ⌈/⌉ parts - 1 + 1) := Nat.mul_le_mul_left parts (by omega)
        _ = _ := Nat.mul_comm _ _
    · rw [← size]
      exact even_everySucc _ input
  · have covers := partitions_drawn (seed ||| 1) input
    rw [bySeed]
    refine ⟨covers, covers.length_le, fun i h => ?_⟩
    have drawn := length_getElem_drawn (seed ||| 1) input i h
    refine ⟨drawn, Nat.succ_pos _, ?_⟩
    -- The piece has this size and is the first of what is left.
    rw [← drawn, List.drop_eq_getElem_cons h, List.flatten_cons, List.length_append]
    exact Nat.le_add_right _ _

/-- Ten bytes in four parts, of which the last is shorter, and in the pieces of a seed. -/
theorem cuts_cover_ten :
    let input : Bytes := [0, 1, 2, 3, 4, 5, 6, 7, 8, 9]
    inParts 4 input = [[0, 1, 2], [3, 4, 5], [6, 7, 8], [9]] ∧ 0 < 4 ∧
      Partitions input (inParts 4 input) ∧ Even 3 (inParts 4 input) ∧
      bySeed 7 input = [[0, 1, 2, 3, 4, 5, 6, 7], [8], [9]] ∧
      Partitions input (bySeed 7 input) := by
  intro input
  obtain ⟨inFour, drawn⟩ := cuts_cover input
  obtain ⟨covers, -, even⟩ := inFour 4 (by decide)
  have size : max (input.length ⌈/⌉ 4) 1 = 3 := by
    rw [Nat.ceilDiv_eq_add_pred_div]
    simp [input]
  exact ⟨by cbv, by decide, covers, size ▸ even, by cbv, (drawn 7).1⟩

end Chunking

end JsonStream
