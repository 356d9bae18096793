import Mathlib.Order.Bounds.Basic
import JsonStream.Proofs.Text.Utf8

/-!
# Checking whole byte strings

The byte-wise check is run over a byte string from the boundary. It never opens a sequence that
cannot be completed, so what it has accepted at any point is the start of well-formed text, and it
stands at the boundary exactly behind the well-formed prefixes. A sequence has at most four bytes,
which bounds how far the check goes beyond the last of these prefixes.

* `Utf8.run?_eq_boundary_iff`: what is accepted without a sequence left open is an encoding.
* `Utf8.isSome_run?_iff`: what is accepted is the start of an encoding.
* `Utf8.firstRejected?_eq_some_iff`: the first byte rejected is the first that no text goes on with.
* `Utf8.isGreatest_validPrefixLength`: the scan finds the longest well-formed prefix.
* `Utf8.firstRejected?_getD_bounds`: the check rejects at most three bytes behind that prefix.
-/

namespace JsonStream

namespace Utf8

/-- The bytes encode a sequence of characters. -/
def WellFormed (input : Bytes) : Prop :=
  ∃ chars, input = encode chars

/-- The bytes are the start of well-formed text. -/
def Viable (input : Bytes) : Prop :=
  ∃ more, WellFormed (input ++ more)

namespace State

/-- The index of the first byte that is rejected. -/
def firstRejected? : State → Bytes → Option Nat
  | _, [] => none
  | state, byte :: rest =>
    match state.step? byte with
    | none => some 0
    | some next => (next.firstRejected? rest).map (· + 1)

/-! ### Runs over text -/

theorem run?_encode (chars : List Char) : boundary.run? (encode chars) = some .boundary := by
  induction chars with
  | nil => rfl
  | cons c chars ih =>
    obtain ⟨byte, rest, state, encoded, lead, completes⟩ := exists_first_utf8EncodeChar c
    rw [encode_cons, encoded, List.cons_append, run?_cons]
    show (lead? byte).bind _ = _
    rw [lead, Option.bind_some, run?_append, completes.1, Option.bind_some, ih]

/-- A run is the rest of the sequence it starts in, whole characters, and the start of the
sequence it ends in. -/
theorem exists_completes_encode {state last : State} {input rest : Bytes}
    (run : state.run? input = some last) (completes : last.Completes rest) :
    ∃ head chars, input ++ rest = head ++ encode chars ∧ state.Completes head := by
  induction input generalizing state with
  | nil =>
    cases run
    refine ⟨rest, [], ?_, completes⟩
    rw [encode_nil, List.append_nil, List.nil_append]
  | cons byte input ih =>
    rw [run?_cons, Option.bind_eq_some_iff] at run
    obtain ⟨next, step, run⟩ := run
    obtain ⟨head, chars, parts, completes⟩ := ih run
    by_cases sequence : state = .boundary
    · -- The byte is the first of a character, which the rest of its sequence completes.
      subst sequence
      obtain ⟨c, encoded⟩ := exists_utf8EncodeChar step completes
      refine ⟨[], c :: chars, ?_, completes_nil⟩
      rw [List.cons_append, parts, encode_cons, encoded]
      rfl
    · refine ⟨byte :: head, chars, ?_, (completes_cons_iff sequence).2 ⟨next, step, completes⟩⟩
      rw [List.cons_append, parts]
      rfl

theorem wellFormed_append {last : State} {input rest : Bytes}
    (run : boundary.run? input = some last) (completes : last.Completes rest) :
    WellFormed (input ++ rest) := by
  obtain ⟨head, chars, parts, empty⟩ := exists_completes_encode run completes
  rw [eq_of_completes_boundary empty, List.nil_append] at parts
  exact ⟨chars, parts⟩

/-! ### Where a run is rejected -/

theorem run?_take_succ {state next : State} {byte : UInt8} (step : state.step? byte = some next)
    (rest : Bytes) (n : Nat) :
    state.run? ((byte :: rest).take (n + 1)) = next.run? (rest.take n) := by
  rw [List.take_succ_cons, run?_cons, step, Option.bind_some]

/-- What is accepted is what stands before the first byte rejected. -/
theorem isSome_run?_take_iff (state : State) {input : Bytes} {n : Nat} (within : n ≤ input.length) :
    (state.run? (input.take n)).isSome ↔ n ≤ (state.firstRejected? input).getD input.length := by
  induction input generalizing state n with
  | nil => exact iff_of_true (by rw [List.take_nil]; rfl) within
  | cons byte rest ih =>
    cases n with
    | zero => exact iff_of_true rfl (Nat.zero_le _)
    | succ n =>
      cases step : state.step? byte with
      | none =>
        rw [List.take_succ_cons, run?_cons, firstRejected?, step]
        exact iff_of_false nofun (Nat.not_succ_le_zero n)
      | some next =>
        rw [run?_take_succ step, ih next (Nat.le_of_succ_le_succ within), firstRejected?, step]
        dsimp only
        cases next.firstRejected? rest with
        | none => exact Nat.succ_le_succ_iff.symm
        | some i => exact Nat.succ_le_succ_iff.symm

theorem firstRejected?_lt {state : State} {input : Bytes} {i : Nat}
    (h : state.firstRejected? input = some i) : i < input.length := by
  induction input generalizing state i with
  | nil => cases h
  | cons byte rest ih =>
    rw [firstRejected?] at h
    cases step : state.step? byte with
    | none =>
      rw [step] at h
      cases h
      exact Nat.succ_pos _
    | some next =>
      rw [step, Option.map_eq_some_iff] at h
      obtain ⟨j, h, rfl⟩ := h
      exact Nat.succ_lt_succ (ih h)

theorem firstRejected?_getD_le (state : State) (input : Bytes) :
    (state.firstRejected? input).getD input.length ≤ input.length := by
  cases rejected : state.firstRejected? input with
  | none => exact Nat.le_refl _
  | some i => exact Nat.le_of_lt (firstRejected?_lt rejected)

/-- Without a byte rejected all of them are accepted. -/
theorem isSome_run?_iff (state : State) (input : Bytes) :
    (state.run? input).isSome ↔ state.firstRejected? input = none := by
  have all := state.isSome_run?_take_iff (Nat.le_refl input.length)
  rw [List.take_length] at all
  rw [all]
  cases rejected : state.firstRejected? input with
  | none => exact iff_of_true (Nat.le_refl _) rfl
  | some i => exact iff_of_false (Nat.not_le.2 (firstRejected?_lt rejected)) nofun

/-! ### Where a run is at the boundary -/

/-- The first `n` bytes lead to the boundary. -/
def EndsAt (state : State) (input : Bytes) (n : Nat) : Prop :=
  n ≤ input.length ∧ state.run? (input.take n) = some .boundary

theorem endsAt_zero_iff {state : State} {input : Bytes} :
    state.EndsAt input 0 ↔ state = .boundary := by
  rw [EndsAt, and_iff_right (Nat.zero_le _), List.take_zero, run?_nil, Option.some_inj]

theorem endsAt_succ_iff {state next : State} {byte : UInt8} {rest : Bytes} {n : Nat}
    (step : state.step? byte = some next) :
    state.EndsAt (byte :: rest) (n + 1) ↔ next.EndsAt rest n := by
  rw [EndsAt, EndsAt, run?_take_succ step, List.length_cons, Nat.add_le_add_iff_right]

theorem not_endsAt_succ {state : State} {byte : UInt8} {rest : Bytes} {n : Nat}
    (step : state.step? byte = none) : ¬state.EndsAt (byte :: rest) (n + 1) := by
  rw [EndsAt, List.take_succ_cons, run?_cons, step]
  exact fun h => nomatch h.2

theorem owed_le_three (state : State) : state.owed ≤ 3 := by
  cases state <;> simp [owed]

/-- A run that never comes to the boundary stays within one sequence. -/
theorem length_add_owed {state last : State} {input : Bytes}
    (run : state.run? input = some last) (inside : ∀ n, ¬state.EndsAt input n) :
    input.length + last.owed = state.owed := by
  have sequence : state ≠ .boundary := fun same => inside 0 (endsAt_zero_iff.2 same)
  induction input generalizing state with
  | nil =>
    cases run
    exact Nat.zero_add _
  | cons byte rest ih =>
    rw [run?_cons, Option.bind_eq_some_iff] at run
    obtain ⟨next, step, run⟩ := run
    have inside' : ∀ n, ¬next.EndsAt rest n := fun n h => inside _ ((endsAt_succ_iff step).2 h)
    have shorter := ih run inside' fun same => inside' 0 (endsAt_zero_iff.2 same)
    have owed := owed_of_step? sequence step
    rw [List.length_cons]
    omega

/-- A run that does not come back to the boundary has at most three bytes. -/
theorem length_le_three {last : State} {input : Bytes} (run : boundary.run? input = some last)
    (inside : ∀ n, boundary.EndsAt input n → n = 0) : input.length ≤ 3 := by
  cases input with
  | nil => exact Nat.zero_le _
  | cons byte rest =>
    have owing : last.owed ≠ 0 := by
      rw [Ne, owed_eq_zero_iff]
      rintro rfl
      have whole : boundary.EndsAt (byte :: rest) (byte :: rest).length := by
        refine ⟨Nat.le_refl _, ?_⟩
        rw [List.take_length]
        exact run
      exact List.cons_ne_nil _ _ (List.length_eq_zero_iff.1 (inside _ whole))
    rw [run?_cons, Option.bind_eq_some_iff] at run
    obtain ⟨next, step, run⟩ := run
    have counted := length_add_owed run fun n h =>
      Nat.succ_ne_zero n (inside _ ((endsAt_succ_iff step).2 h))
    have bound := next.owed_le_three
    rw [List.length_cons]
    omega

end State

/-! ### Exactness -/

/-- **A run ends at the boundary exactly behind well-formed text.** -/
theorem run?_eq_boundary_iff {input : Bytes} :
    State.boundary.run? input = some .boundary ↔ WellFormed input := by
  constructor
  · intro run
    have whole := State.wellFormed_append run State.completes_nil
    rw [List.append_nil] at whole
    exact whole
  · rintro ⟨chars, rfl⟩
    exact State.run?_encode chars

/-- **A run is accepted exactly as long as it can be continued to well-formed text.** -/
theorem isSome_run?_iff {input : Bytes} : (State.boundary.run? input).isSome ↔ Viable input := by
  constructor
  · intro accepted
    obtain ⟨last, run⟩ := Option.isSome_iff_exists.1 accepted
    obtain ⟨rest, completes⟩ := last.exists_completes
    exact ⟨rest, State.wellFormed_append run completes⟩
  · rintro ⟨more, whole⟩
    have run := run?_eq_boundary_iff.2 whole
    rw [State.run?_append] at run
    obtain ⟨last, accepted, -⟩ := Option.bind_eq_some_iff.1 run
    rw [accepted]
    rfl

theorem viable_take_iff {input : Bytes} {n : Nat} (within : n ≤ input.length) :
    Viable (input.take n) ↔ n ≤ (State.boundary.firstRejected? input).getD input.length := by
  rw [← isSome_run?_iff, State.isSome_run?_take_iff .boundary within]

theorem isLeast_firstRejected? {input : Bytes} {i : Nat}
    (rejected : State.boundary.firstRejected? input = some i) :
    IsLeast {j | j < input.length ∧ ¬Viable (input.take (j + 1))} i := by
  have viable : ∀ {n}, n ≤ input.length → (Viable (input.take n) ↔ n ≤ i) := by
    intro n within
    rw [viable_take_iff within, rejected]
    rfl
  have inside := State.firstRejected?_lt rejected
  refine ⟨⟨inside, fun h => absurd ((viable inside).1 h) (Nat.not_succ_le_self i)⟩, ?_⟩
  rintro j ⟨within, stops⟩
  refine Nat.le_of_not_lt fun before => stops ?_
  exact (viable within).2 before

/-- **The first byte rejected is the first with which no text goes on.** -/
theorem firstRejected?_eq_some_iff {input : Bytes} {i : Nat} :
    State.boundary.firstRejected? input = some i ↔
      IsLeast {j | j < input.length ∧ ¬Viable (input.take (j + 1))} i := by
  constructor
  · exact isLeast_firstRejected?
  · intro least
    cases rejected : State.boundary.firstRejected? input with
    | none =>
      obtain ⟨within, stops⟩ := least.1
      rw [viable_take_iff within, rejected] at stops
      exact absurd within stops
    | some j => rw [(isLeast_firstRejected? rejected).unique least]

/-! ### The longest well-formed prefix -/

/-- The scan returns the last boundary it comes to, or the one known before if there is none. -/
theorem isGreatest_go (state : State) {complete seen : Nat} (known : complete ≤ seen)
    (input : Bytes) :
    IsGreatest {m | m = complete ∨ ∃ n, state.EndsAt input (n + 1) ∧ m = seen + (n + 1)}
      (validPrefixLength.go state complete seen input) := by
  induction input generalizing state complete seen with
  | nil =>
    refine ⟨.inl rfl, ?_⟩
    rintro m (rfl | ⟨n, ends, rfl⟩)
    · exact Nat.le_refl _
    · exact absurd ends.1 (Nat.not_succ_le_zero n)
  | cons byte rest ih =>
    rw [validPrefixLength.go]
    split
    · next step =>
      refine ⟨.inl rfl, ?_⟩
      rintro m (rfl | ⟨n, ends, rfl⟩)
      · exact Nat.le_refl _
      · exact absurd ends (State.not_endsAt_succ step)
    · next step =>
      -- The boundary behind the byte takes the place of the one known before.
      obtain ⟨found, greatest⟩ := ih .boundary (Nat.le_refl (seen + 1))
      refine ⟨.inr ?_, ?_⟩
      · obtain here | ⟨n, ends, there⟩ := found
        · exact ⟨0, (State.endsAt_succ_iff step).2 (State.endsAt_zero_iff.2 rfl), here⟩
        · exact ⟨n + 1, (State.endsAt_succ_iff step).2 ends, by omega⟩
      · rintro m (rfl | ⟨n, ends, rfl⟩)
        · exact Nat.le_trans (Nat.le_succ_of_le known) (greatest (.inl rfl))
        · have ends' := (State.endsAt_succ_iff step).1 ends
          cases n with
          | zero => exact greatest (.inl rfl)
          | succ n => exact greatest (.inr ⟨n, ends', by omega⟩)
    · next next sequence step =>
      obtain ⟨found, greatest⟩ := ih next (Nat.le_succ_of_le known)
      refine ⟨?_, ?_⟩
      · obtain old | ⟨n, ends, there⟩ := found
        · exact .inl old
        · exact .inr ⟨n + 1, (State.endsAt_succ_iff step).2 ends, there.trans (by omega)⟩
      · rintro m (old | ⟨n, ends, rfl⟩)
        · exact greatest (.inl old)
        · have ends' := (State.endsAt_succ_iff step).1 ends
          cases n with
          | zero => exact absurd (State.endsAt_zero_iff.1 ends') sequence
          | succ n => exact greatest (.inr ⟨n, ends', by omega⟩)

/-- **The scan finds the longest well-formed prefix.** -/
theorem isGreatest_validPrefixLength (input : Bytes) :
    IsGreatest {n | n ≤ input.length ∧ WellFormed (input.take n)} (validPrefixLength input) := by
  have ends : ∀ {n}, State.boundary.EndsAt input n ↔
      n ≤ input.length ∧ WellFormed (input.take n) := by
    intro n
    rw [State.EndsAt, run?_eq_boundary_iff]
  obtain ⟨found, greatest⟩ := isGreatest_go .boundary (Nat.le_refl 0) input
  refine ⟨ends.1 ?_, ?_⟩
  · show State.boundary.EndsAt input (validPrefixLength.go .boundary 0 0 input)
    obtain old | ⟨n, there, same⟩ := found
    · rw [old]
      exact State.endsAt_zero_iff.2 rfl
    · rw [same, Nat.zero_add]
      exact there
  · intro n here
    cases n with
    | zero => exact Nat.zero_le _
    | succ n => exact greatest (.inr ⟨n, ends.2 here, (Nat.zero_add _).symm⟩)

theorem WellFormed.append {first second : Bytes} (h : WellFormed first) (h' : WellFormed second) :
    WellFormed (first ++ second) := by
  obtain ⟨chars, rfl⟩ := h
  obtain ⟨chars', rfl⟩ := h'
  exact ⟨chars ++ chars', (encode_append chars chars').symm⟩

/-- **The check goes on for at most three bytes behind the longest well-formed prefix.** -/
theorem firstRejected?_getD_bounds (input : Bytes) :
    validPrefixLength input ≤ (State.boundary.firstRejected? input).getD input.length ∧
      (State.boundary.firstRejected? input).getD input.length ≤ validPrefixLength input + 3 := by
  obtain ⟨⟨within, whole⟩, greatest⟩ := isGreatest_validPrefixLength input
  have before := (viable_take_iff within).1 ⟨[], by rw [List.append_nil]; exact whole⟩
  have inside := State.boundary.firstRejected?_getD_le input
  have accepted := (State.boundary.isSome_run?_take_iff inside).2 (Nat.le_refl _)
  refine ⟨before, ?_⟩
  obtain ⟨more, limit⟩ := Nat.exists_eq_add_of_le before
  obtain ⟨last, run⟩ := Option.isSome_iff_exists.1 accepted
  rw [limit] at inside run ⊢
  rw [List.take_add, State.run?_append, run?_eq_boundary_iff.2 whole, Option.bind_some] at run
  -- What is accepted behind the longest prefix does not come back to the boundary.
  have short := State.length_le_three run fun n ends => by
    obtain ⟨bound, ends⟩ := ends
    have longer : WellFormed (input.take (validPrefixLength input + n)) := by
      rw [List.length_take] at bound
      rw [List.take_take, Nat.min_eq_left (Nat.le_trans bound (Nat.min_le_left _ _))] at ends
      rw [List.take_add]
      exact whole.append (run?_eq_boundary_iff.1 ends)
    rw [List.length_take, List.length_drop] at bound
    have bounded := greatest ⟨by omega, longer⟩
    omega
  rw [List.length_take, List.length_drop] at short
  omega

end Utf8

end JsonStream
