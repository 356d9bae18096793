import JsonStream.Text.Utf8

/-!
# Sequences of UTF-8

The states of the byte-wise check tell how many continuation bytes are owed. A first byte and
continuation bytes that bring the check back to the boundary are the encoding of a character, and
every encoding does so.

* `Utf8.exists_first_utf8EncodeChar`: the encoding of a character leads back to the boundary.
* `Utf8.exists_utf8EncodeChar`: nothing else does.
* `Utf8.State.exists_goesOn`: how far any bytes go on with an open sequence.
-/

namespace JsonStream

namespace Utf8

/-! ### What is owed -/

namespace State

/-- How many continuation bytes a state still demands. -/
def owed : State → Nat
  | .boundary => 0
  | .one => 1
  | .two | .afterE0 | .afterED => 2
  | .three | .afterF0 | .afterF4 => 3

theorem owed_eq_zero_iff {state : State} : state.owed = 0 ↔ state = .boundary := by
  cases state <;> simp [owed]

theorem within_eq_some_iff {low high byte : UInt8} {next state : State} :
    within low high byte next = some state ↔
      (low.toNat ≤ byte.toNat ∧ byte.toNat ≤ high.toNat) ∧ next = state := by
  rw [within]
  rw [← UInt8.le_iff_toNat_le, ← UInt8.le_iff_toNat_le]
  by_cases bounds : low ≤ byte ∧ byte ≤ high
  · rw [if_pos bounds, Option.some_inj, and_iff_right bounds]
  · rw [if_neg bounds]
    exact ⟨nofun, fun h => absurd h.1 bounds⟩

/-- Each continuation byte is one less that is owed. -/
theorem owed_of_step? {state next : State} {byte : UInt8} (sequence : state ≠ .boundary)
    (h : state.step? byte = some next) : state.owed = next.owed + 1 := by
  cases state with
  | boundary => exact absurd rfl sequence
  | _ =>
    obtain ⟨-, rfl⟩ := within_eq_some_iff.1 h
    rfl

/-- The first bytes that lead to a state. -/
def First : State → Nat → Prop
  | .boundary, n => n < 0x80
  | .one, n => 0xc2 ≤ n ∧ n < 0xe0
  | .two, n => (0xe1 ≤ n ∧ n < 0xed) ∨ (0xee ≤ n ∧ n < 0xf0)
  | .three, n => 0xf1 ≤ n ∧ n < 0xf4
  | .afterE0, n => n = 0xe0
  | .afterED, n => n = 0xed
  | .afterF0, n => n = 0xf0
  | .afterF4, n => n = 0xf4

/-- A first byte leads to one state only. -/
theorem First.unique {first second : State} {n : Nat} (h : first.First n) (h' : second.First n) :
    first = second := by
  cases first <;> cases second <;> simp only [First] at h h' <;> first | rfl | omega

theorem not_first {state : State} {n : Nat} (h : (0x80 ≤ n ∧ n < 0xc2) ∨ 0xf5 ≤ n) :
    ¬state.First n := by
  cases state <;> simp only [First] <;> omega

/-- One case of `lead?`. -/
theorem branch {condition : Prop} [Decidable condition] {first second : Option State}
    {state : State} {P : Prop} (pos : condition → (first = some state ↔ P))
    (neg : ¬condition → (second = some state ↔ P)) :
    (if condition then first else second) = some state ↔ P := by
  by_cases h : condition
  · rw [if_pos h]
    exact pos h
  · rw [if_neg h]
    exact neg h

theorem lead?_eq_some_iff {byte : UInt8} {state : State} :
    lead? byte = some state ↔ state.First byte.toNat := by
  have leads : ∀ {found : State}, found.First byte.toNat →
      (some found = some state ↔ state.First byte.toNat) := by
    intro found h
    rw [Option.some_inj]
    exact ⟨fun same => same ▸ h, h.unique⟩
  have stops : (0x80 ≤ byte.toNat ∧ byte.toNat < 0xc2) ∨ 0xf5 ≤ byte.toNat →
      (none = some state ↔ state.First byte.toNat) :=
    fun h => iff_of_false nofun (not_first h)
  -- The bounds ascend, so a branch is bounded by its own condition and those before it.
  refine branch (fun _ => leads ?_) fun _ => branch (fun _ => stops (.inl ?_)) fun _ =>
    branch (fun _ => leads ?_) fun _ => branch (fun _ => leads ?_) fun _ =>
    branch (fun _ => leads (.inl ?_)) fun _ => branch (fun _ => leads ?_) fun _ =>
    branch (fun _ => leads (.inr ?_)) fun _ => branch (fun _ => leads ?_) fun _ =>
    branch (fun _ => leads ?_) fun _ => branch (fun _ => leads ?_) fun _ => stops (.inr ?_)
  all_goals
    clear leads stops
    simp only [UInt8.lt_iff_toNat_lt, ← UInt8.toNat_inj, UInt8.reduceToNat, First] at *
    omega

/-- A sequence is a first byte and then as many bytes as it owes, all of them allowed. -/
def Completes (state : State) (rest : Bytes) : Prop :=
  state.run? rest = some .boundary ∧ rest.length = state.owed

theorem completes_cons_iff {state : State} {byte : UInt8} {rest : Bytes}
    (sequence : state ≠ .boundary) :
    state.Completes (byte :: rest) ↔ ∃ next, state.step? byte = some next ∧ next.Completes rest := by
  simp only [Completes]
  rw [run?_cons, List.length_cons]
  cases step : state.step? byte with
  | none => simp
  | some next =>
    have owed := owed_of_step? sequence step
    rw [Option.bind_some, owed, Nat.add_left_inj]
    simp

end State

/-! ### Encodings -/

theorem utf8EncodeChar_one {c : Char} (h : c.toNat < 0x80) :
    String.utf8EncodeChar c = [UInt8.ofNat c.toNat] := by
  have le : c.val.toNat ≤ 0x7f := Nat.le_of_lt_succ h
  rw [String.utf8EncodeChar]
  exact if_pos le

theorem utf8EncodeChar_two {c : Char} (low : 0x80 ≤ c.toNat) (high : c.toNat < 0x800) :
    String.utf8EncodeChar c =
      [UInt8.ofNat (c.toNat / 64 % 0x20 + 0xc0), UInt8.ofNat (c.toNat % 0x40 + 0x80)] := by
  have above : ¬c.val.toNat ≤ 0x7f := Nat.not_le.2 low
  have le : c.val.toNat ≤ 0x7ff := Nat.le_of_lt_succ high
  rw [String.utf8EncodeChar]
  exact (if_neg above).trans (if_pos le)

theorem utf8EncodeChar_three {c : Char} (low : 0x800 ≤ c.toNat) (high : c.toNat < 0x10000) :
    String.utf8EncodeChar c =
      [UInt8.ofNat (c.toNat / 4096 % 0x10 + 0xe0), UInt8.ofNat (c.toNat / 64 % 0x40 + 0x80),
        UInt8.ofNat (c.toNat % 0x40 + 0x80)] := by
  have above : ¬c.val.toNat ≤ 0x7f := Nat.not_le.2 (Nat.lt_of_lt_of_le (by decide) low)
  have above' : ¬c.val.toNat ≤ 0x7ff := Nat.not_le.2 low
  have le : c.val.toNat ≤ 0xffff := Nat.le_of_lt_succ high
  rw [String.utf8EncodeChar]
  exact (if_neg above).trans ((if_neg above').trans (if_pos le))

theorem utf8EncodeChar_four {c : Char} (low : 0x10000 ≤ c.toNat) :
    String.utf8EncodeChar c =
      [UInt8.ofNat (c.toNat / 262144 % 0x08 + 0xf0), UInt8.ofNat (c.toNat / 4096 % 0x40 + 0x80),
        UInt8.ofNat (c.toNat / 64 % 0x40 + 0x80), UInt8.ofNat (c.toNat % 0x40 + 0x80)] := by
  have above : ¬c.val.toNat ≤ 0x7f := Nat.not_le.2 (Nat.lt_of_lt_of_le (by decide) low)
  have above' : ¬c.val.toNat ≤ 0x7ff := Nat.not_le.2 (Nat.lt_of_lt_of_le (by decide) low)
  have above'' : ¬c.val.toNat ≤ 0xffff := Nat.not_le.2 low
  rw [String.utf8EncodeChar]
  exact (if_neg above).trans ((if_neg above').trans (if_neg above''))

theorem completes_ofNat {low high : UInt8} {n : Nat} {state next : State} {rest : Bytes}
    (sequence : state ≠ .boundary)
    (step : ∀ byte, state.step? byte = State.within low high byte next)
    (bounds : low.toNat ≤ n ∧ n ≤ high.toNat) (h : next.Completes rest) :
    state.Completes (UInt8.ofNat n :: rest) := by
  have small : n < 0x100 := Nat.lt_of_le_of_lt bounds.2 high.toNat_lt
  rw [State.completes_cons_iff sequence]
  refine ⟨next, ?_, h⟩
  rw [step, State.within_eq_some_iff, UInt8.toNat_ofNat_of_lt' small]
  exact ⟨bounds, rfl⟩

theorem completes_one (n : Nat) : State.one.Completes [UInt8.ofNat (n % 0x40 + 0x80)] :=
  completes_ofNat nofun (fun _ => rfl) (by dsimp; omega) ⟨rfl, rfl⟩

theorem completes_two (m n : Nat) :
    State.two.Completes [UInt8.ofNat (m % 0x40 + 0x80), UInt8.ofNat (n % 0x40 + 0x80)] :=
  completes_ofNat nofun (fun _ => rfl) (by dsimp; omega) (completes_one n)

/-- A character of three bytes: its first byte tells which second bytes are allowed. -/
theorem exists_first_three {c : Char} (low : 0x800 ≤ c.toNat) (high : c.toNat < 0x10000) :
    ∃ byte rest state, String.utf8EncodeChar c = byte :: rest ∧
      State.lead? byte = some state ∧ state.Completes rest := by
  have valid : c.toNat < 0xd800 ∨ 0xdfff < c.toNat ∧ c.toNat < 0x110000 := c.valid
  rw [utf8EncodeChar_three low high]
  by_cases e0 : c.toNat < 0x1000
  · refine ⟨_, _, .afterE0, rfl, ?_, ?_⟩
    · rw [State.lead?_eq_some_iff, UInt8.toNat_ofNat']
      show _ = _
      omega
    · exact completes_ofNat nofun (fun _ => rfl) (by dsimp; omega) (completes_one _)
  by_cases ed : 0xd000 ≤ c.toNat ∧ c.toNat < 0xe000
  · refine ⟨_, _, .afterED, rfl, ?_, ?_⟩
    · rw [State.lead?_eq_some_iff, UInt8.toNat_ofNat']
      show _ = _
      omega
    · exact completes_ofNat nofun (fun _ => rfl) (by dsimp; omega) (completes_one _)
  · refine ⟨_, _, .two, rfl, ?_, completes_two _ _⟩
    rw [State.lead?_eq_some_iff, UInt8.toNat_ofNat']
    show _ ∨ _
    omega

/-- A character of four bytes. -/
theorem exists_first_four {c : Char} (low : 0x10000 ≤ c.toNat) :
    ∃ byte rest state, String.utf8EncodeChar c = byte :: rest ∧
      State.lead? byte = some state ∧ state.Completes rest := by
  have valid : c.toNat < 0xd800 ∨ 0xdfff < c.toNat ∧ c.toNat < 0x110000 := c.valid
  rw [utf8EncodeChar_four low]
  by_cases f0 : c.toNat < 0x40000
  · refine ⟨_, _, .afterF0, rfl, ?_, ?_⟩
    · rw [State.lead?_eq_some_iff, UInt8.toNat_ofNat']
      show _ = _
      omega
    · exact completes_ofNat nofun (fun _ => rfl) (by dsimp; omega) (completes_two _ _)
  by_cases f4 : 0x100000 ≤ c.toNat
  · refine ⟨_, _, .afterF4, rfl, ?_, ?_⟩
    · rw [State.lead?_eq_some_iff, UInt8.toNat_ofNat']
      show _ = _
      omega
    · exact completes_ofNat nofun (fun _ => rfl) (by dsimp; omega) (completes_two _ _)
  · refine ⟨_, _, .three, rfl, ?_, ?_⟩
    · rw [State.lead?_eq_some_iff, UInt8.toNat_ofNat']
      show _ ≤ _ ∧ _ < _
      omega
    · exact completes_ofNat nofun (fun _ => rfl) (by dsimp; omega) (completes_two _ _)

/-- **The encoding of a character is a first byte and the bytes that it owes.** -/
theorem exists_first_utf8EncodeChar (c : Char) :
    ∃ byte rest state, String.utf8EncodeChar c = byte :: rest ∧
      State.lead? byte = some state ∧ state.Completes rest := by
  by_cases one : c.toNat < 0x80
  · refine ⟨_, _, .boundary, utf8EncodeChar_one one, ?_, ⟨rfl, rfl⟩⟩
    rw [State.lead?_eq_some_iff, UInt8.toNat_ofNat']
    show _ < _
    omega
  by_cases two : c.toNat < 0x800
  · refine ⟨_, _, .one, utf8EncodeChar_two (Nat.not_lt.1 one) two, ?_, completes_one _⟩
    rw [State.lead?_eq_some_iff, UInt8.toNat_ofNat']
    show _ ≤ _ ∧ _ < _
    omega
  by_cases three : c.toNat < 0x10000
  · exact exists_first_three (Nat.not_lt.1 two) three
  · exact exists_first_four (Nat.not_lt.1 three)

/-- The first byte of an encoding tells whether the character is ASCII. -/
theorem ascii_iff_of_utf8EncodeChar {c : Char} {byte : UInt8} {rest : Bytes}
    (h : String.utf8EncodeChar c = byte :: rest) : byte.toNat < 0x80 ↔ c.toNat < 0x80 := by
  by_cases one : c.toNat < 0x80
  · rw [utf8EncodeChar_one one] at h
    cases h
    rw [UInt8.toNat_ofNat']
    omega
  by_cases two : c.toNat < 0x800
  · rw [utf8EncodeChar_two (Nat.not_lt.1 one) two] at h
    cases h
    rw [UInt8.toNat_ofNat']
    omega
  by_cases three : c.toNat < 0x10000
  · rw [utf8EncodeChar_three (Nat.not_lt.1 two) three] at h
    cases h
    rw [UInt8.toNat_ofNat']
    omega
  · rw [utf8EncodeChar_four (Nat.not_lt.1 three)] at h
    cases h
    rw [UInt8.toNat_ofNat']
    omega

/-! ### Characters -/

/-- An ASCII character is encoded as the byte of its code point. -/
theorem utf8EncodeChar_of_toNat_eq {c : Char} {byte : UInt8} (ascii : byte.toNat < 0x80)
    (same : c.toNat = byte.toNat) : String.utf8EncodeChar c = [byte] := by
  rw [utf8EncodeChar_one (same ▸ ascii), same, UInt8.ofNat_toNat]

theorem exists_toNat_eq {n : Nat} (h : n < 0xd800 ∨ 0xdfff < n ∧ n < 0x110000) :
    ∃ c : Char, c.toNat = n :=
  ⟨Char.ofNatAux n h, rfl⟩

theorem eq_ofNat {b : UInt8} {n : Nat} (h : b.toNat = n % 0x100) : UInt8.ofNat n = b := by
  rw [← UInt8.toNat_inj, UInt8.toNat_ofNat', h]

theorem eq_cons_of_completes {state next : State} {low high : UInt8} {rest : Bytes}
    (step : ∀ byte, state.step? byte = State.within low high byte next)
    (sequence : state ≠ .boundary) (h : state.Completes rest) :
    ∃ byte more, rest = byte :: more ∧ (low.toNat ≤ byte.toNat ∧ byte.toNat ≤ high.toNat) ∧
      next.Completes more := by
  cases rest with
  | nil => exact absurd (State.owed_eq_zero_iff.1 h.2.symm) sequence
  | cons byte more =>
    obtain ⟨state, taken, h⟩ := (State.completes_cons_iff sequence).1 h
    rw [step] at taken
    obtain ⟨bounds, rfl⟩ := State.within_eq_some_iff.1 taken
    exact ⟨byte, more, rfl, bounds, h⟩

/-- A continuation byte without bounds of its own. -/
def Continuation (byte : UInt8) : Prop :=
  0x80 ≤ byte.toNat ∧ byte.toNat ≤ 0xbf

theorem eq_of_completes_boundary {rest : Bytes} (h : State.boundary.Completes rest) : rest = [] :=
  List.length_eq_zero_iff.1 h.2

theorem eq_of_completes_one {rest : Bytes} (h : State.one.Completes rest) :
    ∃ a, rest = [a] ∧ Continuation a := by
  obtain ⟨a, more, rfl, bounds, h⟩ := eq_cons_of_completes (fun _ => rfl) (by decide) h
  cases eq_of_completes_boundary h
  exact ⟨a, rfl, bounds⟩

theorem eq_of_completes_two {rest : Bytes} (h : State.two.Completes rest) :
    ∃ a b, rest = [a, b] ∧ Continuation a ∧ Continuation b := by
  obtain ⟨a, more, rfl, bounds, h⟩ := eq_cons_of_completes (fun _ => rfl) (by decide) h
  obtain ⟨b, rfl, bounds'⟩ := eq_of_completes_one h
  exact ⟨a, b, rfl, bounds, bounds'⟩

theorem exists_char_two {a b : UInt8} (first : 0xc2 ≤ a.toNat ∧ a.toNat < 0xe0)
    (second : Continuation b) : ∃ c, String.utf8EncodeChar c = [a, b] := by
  rw [Continuation] at second
  obtain ⟨c, point⟩ := exists_toNat_eq (n := (a.toNat - 0xc0) * 64 + (b.toNat - 0x80)) (by omega)
  refine ⟨c, ?_⟩
  rw [utf8EncodeChar_two (by omega) (by omega), eq_ofNat (b := a) (by omega),
    eq_ofNat (b := b) (by omega)]

theorem exists_char_three {a b c : UInt8} (first : 0xe0 ≤ a.toNat ∧ a.toNat < 0xf0)
    (second : Continuation b) (third : Continuation c)
    (long : a.toNat = 0xe0 → 0xa0 ≤ b.toNat) (scalar : a.toNat = 0xed → b.toNat ≤ 0x9f) :
    ∃ x, String.utf8EncodeChar x = [a, b, c] := by
  rw [Continuation] at second third
  obtain ⟨x, point⟩ := exists_toNat_eq
    (n := (a.toNat - 0xe0) * 4096 + (b.toNat - 0x80) * 64 + (c.toNat - 0x80)) (by omega)
  refine ⟨x, ?_⟩
  rw [utf8EncodeChar_three (by omega) (by omega), eq_ofNat (b := a) (by omega),
    eq_ofNat (b := b) (by omega), eq_ofNat (b := c) (by omega)]

theorem exists_char_four {a b c d : UInt8} (first : 0xf0 ≤ a.toNat ∧ a.toNat ≤ 0xf4)
    (second : Continuation b) (third : Continuation c) (fourth : Continuation d)
    (long : a.toNat = 0xf0 → 0x90 ≤ b.toNat) (scalar : a.toNat = 0xf4 → b.toNat ≤ 0x8f) :
    ∃ x, String.utf8EncodeChar x = [a, b, c, d] := by
  rw [Continuation] at second third fourth
  obtain ⟨x, point⟩ := exists_toNat_eq
    (n := (a.toNat - 0xf0) * 262144 + (b.toNat - 0x80) * 4096 + (c.toNat - 0x80) * 64 +
      (d.toNat - 0x80)) (by omega)
  refine ⟨x, ?_⟩
  rw [utf8EncodeChar_four (by omega), eq_ofNat (b := a) (by omega),
    eq_ofNat (b := b) (by omega), eq_ofNat (b := c) (by omega),
    eq_ofNat (b := d) (by omega)]

/-- **A first byte and the bytes that it owes are the encoding of a character.** -/
theorem exists_utf8EncodeChar {byte : UInt8} {state : State} {rest : Bytes}
    (lead : State.lead? byte = some state) (h : state.Completes rest) :
    ∃ c, String.utf8EncodeChar c = byte :: rest := by
  have first := State.lead?_eq_some_iff.1 lead
  simp only [State.First] at first
  cases state with
  | boundary =>
    obtain ⟨c, point⟩ := exists_toNat_eq (n := byte.toNat) (by omega)
    refine ⟨c, ?_⟩
    rw [utf8EncodeChar_one (by omega), eq_of_completes_boundary h, point, UInt8.ofNat_toNat]
  | one =>
    obtain ⟨a, rfl, second⟩ := eq_of_completes_one h
    exact exists_char_two first second
  | two =>
    obtain ⟨a, b, rfl, second, third⟩ := eq_of_completes_two h
    exact exists_char_three (by omega) second third (by omega) (by omega)
  | afterE0 =>
    obtain ⟨a, more, rfl, bounds, h⟩ := eq_cons_of_completes (fun _ => rfl) (by decide) h
    obtain ⟨b, rfl, third⟩ := eq_of_completes_one h
    have low : 0xa0 ≤ a.toNat := bounds.1
    exact exists_char_three (by omega) ⟨by omega, bounds.2⟩ third (fun _ => low) (by omega)
  | afterED =>
    obtain ⟨a, more, rfl, bounds, h⟩ := eq_cons_of_completes (fun _ => rfl) (by decide) h
    obtain ⟨b, rfl, third⟩ := eq_of_completes_one h
    have high : a.toNat ≤ 0x9f := bounds.2
    exact exists_char_three (by omega) ⟨bounds.1, by omega⟩ third (by omega) (fun _ => high)
  | three =>
    obtain ⟨a, more, rfl, bounds, h⟩ := eq_cons_of_completes (fun _ => rfl) (by decide) h
    obtain ⟨b, c, rfl, third, fourth⟩ := eq_of_completes_two h
    exact exists_char_four (by omega) bounds third fourth (by omega) (by omega)
  | afterF0 =>
    obtain ⟨a, more, rfl, bounds, h⟩ := eq_cons_of_completes (fun _ => rfl) (by decide) h
    obtain ⟨b, c, rfl, third, fourth⟩ := eq_of_completes_two h
    have low : 0x90 ≤ a.toNat := bounds.1
    exact exists_char_four (by omega) ⟨by omega, bounds.2⟩ third fourth (fun _ => low) (by omega)
  | afterF4 =>
    obtain ⟨a, more, rfl, bounds, h⟩ := eq_cons_of_completes (fun _ => rfl) (by decide) h
    obtain ⟨b, c, rfl, third, fourth⟩ := eq_of_completes_two h
    have high : a.toNat ≤ 0x8f := bounds.2
    exact exists_char_four (by omega) ⟨bounds.1, by omega⟩ third fourth (by omega) (fun _ => high)

/-! ### Sequences in progress -/

namespace State

theorem completes_nil : boundary.Completes [] :=
  ⟨rfl, rfl⟩

/-- Every open sequence can be completed. -/
theorem exists_completes (state : State) : ∃ bytes, state.Completes bytes := by
  cases state with
  | boundary => exact ⟨[], rfl, rfl⟩
  | one => exact ⟨[0x80], rfl, rfl⟩
  | two => exact ⟨[0x80, 0x80], rfl, rfl⟩
  | three => exact ⟨[0x80, 0x80, 0x80], rfl, rfl⟩
  | afterE0 => exact ⟨[0xa0, 0x80], rfl, rfl⟩
  | afterED => exact ⟨[0x80, 0x80], rfl, rfl⟩
  | afterF0 => exact ⟨[0x90, 0x80, 0x80], rfl, rfl⟩
  | afterF4 => exact ⟨[0x80, 0x80, 0x80], rfl, rfl⟩

/-- The bytes go on with a sequence: each of them is owed when it comes. -/
inductive GoesOn : State → Bytes → State → Prop where
  | nil {state : State} : GoesOn state [] state
  | cons {state next last : State} {byte : UInt8} {bytes : Bytes} (sequence : state ≠ .boundary)
      (step : state.step? byte = some next) (more : GoesOn next bytes last) :
      GoesOn state (byte :: bytes) last

/-- What completes the rest of a sequence completes all of it. -/
theorem GoesOn.completes_iff {state last : State} {bytes : Bytes} (h : state.GoesOn bytes last)
    (rest : Bytes) : state.Completes (bytes ++ rest) ↔ last.Completes rest := by
  induction h with
  | nil => exact Iff.rfl
  | cons sequence step more ih =>
    rw [List.cons_append, completes_cons_iff sequence, step]
    simp only [Option.some_inj, exists_eq_left']
    exact ih

theorem exists_goesOn_of_completes {state : State} {bytes rest : Bytes}
    (h : state.Completes (bytes ++ rest)) : ∃ last, state.GoesOn bytes last := by
  induction bytes generalizing state with
  | nil => exact ⟨state, .nil⟩
  | cons byte bytes ih =>
    have sequence : state ≠ .boundary := by
      intro same
      subst same
      exact absurd (eq_of_completes_boundary h) (List.cons_ne_nil _ _)
    obtain ⟨next, step, h⟩ := (completes_cons_iff sequence).1 h
    obtain ⟨last, more⟩ := ih h
    exact ⟨last, .cons sequence step more⟩

theorem goesOn_of_completes {state : State} {bytes : Bytes} (h : state.Completes bytes) :
    state.GoesOn bytes .boundary := by
  have whole : state.Completes (bytes ++ []) := by
    rw [List.append_nil]
    exact h
  obtain ⟨last, goes⟩ := exists_goesOn_of_completes whole
  rw [owed_eq_zero_iff.1 ((goes.completes_iff []).1 whole).2.symm] at goes
  exact goes

/-- Bytes go on with a sequence up to its end or up to one that may not stand there. -/
theorem exists_goesOn (state : State) (input : Bytes) :
    ∃ bytes last rest, input = bytes ++ rest ∧ state.GoesOn bytes last ∧
      (last ≠ .boundary → ∀ byte ∈ rest.head?, last.step? byte = none) := by
  induction input generalizing state with
  | nil => exact ⟨[], state, [], rfl, .nil, fun _ => nofun⟩
  | cons byte input ih =>
    by_cases sequence : state = .boundary
    · exact ⟨[], state, byte :: input, rfl, .nil, fun other => absurd sequence other⟩
    · cases step : state.step? byte with
      | none =>
        refine ⟨[], state, byte :: input, rfl, .nil, fun _ b mem => ?_⟩
        cases mem
        exact step
      | some next =>
        obtain ⟨bytes, last, rest, rfl, goes, stops⟩ := ih next
        exact ⟨byte :: bytes, last, rest, rfl, .cons sequence step goes, stops⟩

end State

/-- The start of an encoding is continued by what completes the sequence. -/
theorem exists_utf8EncodeChar_iff {byte : UInt8} {state last : State} {bytes : Bytes}
    (lead : State.lead? byte = some state) (goes : state.GoesOn bytes last) (rest : Bytes) :
    (∃ c, String.utf8EncodeChar c = byte :: (bytes ++ rest)) ↔ last.Completes rest := by
  rw [← goes.completes_iff rest]
  constructor
  · rintro ⟨c, encoded⟩
    obtain ⟨first, owed, state', encoded', lead', completes⟩ := exists_first_utf8EncodeChar c
    rw [encoded] at encoded'
    cases encoded'
    cases lead.symm.trans lead'
    exact completes
  · exact exists_utf8EncodeChar lead

end Utf8

end JsonStream
