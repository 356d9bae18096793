import JsonStream.Number.Phase
import JsonStream.Proofs.Number.Literal

/-!
# What the number automaton accepts

From each phase the automaton accepts what may follow in a well-formed literal, so from its start it
accepts the bytes of well-formed literals and no others.

* `Number.Phase.accepts_iff`: the automaton and the grammar of numbers agree.
-/

namespace JsonStream

namespace Number

namespace Phase

/-- The bytes lead to the end of a literal. -/
def Accepts (phase : Phase) (bytes : Bytes) : Prop :=
  ∃ final, phase.run? bytes = some final ∧ final.isComplete = true

theorem accepts_nil_iff {phase : Phase} : phase.Accepts [] ↔ phase.isComplete = true := by
  rw [Accepts]
  rw [run?_nil]
  constructor
  · intro found
    obtain ⟨final, same, complete⟩ := found
    cases same
    exact complete
  · intro complete
    exact ⟨phase, rfl, complete⟩

theorem accepts_cons_iff {phase : Phase} {byte : UInt8} {rest : Bytes} :
    phase.Accepts (byte :: rest) ↔ ∃ next, phase.next? byte = some next ∧ next.Accepts rest := by
  simp only [Accepts]
  rw [run?_cons]
  cases phase.next? byte with
  | none => exact ⟨nofun, nofun⟩
  | some next => simp only [Option.bind_some, Option.some_inj, exists_eq_left']

theorem not_accepts_cons {phase : Phase} {byte : UInt8} {rest : Bytes}
    (h : phase.next? byte = none) : ¬phase.Accepts (byte :: rest) := by
  rw [accepts_cons_iff, h]
  exact nofun

/-- A phase that takes any number of digits and otherwise goes on as `Rest` says. -/
theorem accepts_digits (phase : Phase) (Rest : Bytes → Prop) (complete : phase.isComplete = true)
    (digit : ∀ byte, Byte.isDigit byte = true → phase.next? byte = some phase)
    (other : ∀ byte rest, Byte.isDigit byte = false →
      (phase.Accepts (byte :: rest) ↔ Rest (byte :: rest)))
    (rest_nil : Rest []) (rest_noDigit : ∀ rest, Rest rest → NoDigit rest) {bytes : Bytes} :
    phase.Accepts bytes ↔ ∃ digits rest, bytes = digits ++ rest ∧ Digits digits ∧ Rest rest := by
  induction bytes with
  | nil =>
    rw [accepts_nil_iff]
    exact ⟨fun _ => ⟨[], [], rfl, digits_nil, rest_nil⟩, fun _ => complete⟩
  | cons byte bytes ih =>
    by_cases isDigit : Byte.isDigit byte = true
    · rw [accepts_cons_iff, digit byte isDigit]
      simp only [Option.some_inj, exists_eq_left']
      rw [ih]
      constructor
      · intro found
        obtain ⟨digits, rest, rfl, all, h⟩ := found
        exact ⟨byte :: digits, rest, rfl, digits_cons_iff.2 ⟨isDigit, all⟩, h⟩
      · intro found
        obtain ⟨_ | ⟨d, digits⟩, rest, same, all, h⟩ := found
        · rw [List.nil_append] at same
          have stop := rest_noDigit rest h
          rw [← same, noDigit_cons_iff, isDigit] at stop
          contradiction
        · cases same
          exact ⟨digits, rest, rfl, (digits_cons_iff.1 all).2, h⟩
    · rw [other byte bytes (Bool.eq_false_iff.2 isDigit)]
      constructor
      · intro h
        exact ⟨[], byte :: bytes, rfl, digits_nil, h⟩
      · intro found
        obtain ⟨_ | ⟨d, digits⟩, rest, same, all, h⟩ := found
        · rw [same]
          exact h
        · cases same
          exact absurd (digits_cons_iff.1 all).1 isDigit

/-- A phase that needs a digit, and then goes on as `next`. -/
theorem accepts_digit (phase next : Phase)
    (step : ∀ byte, phase.next? byte = if Byte.isDigit byte then some next else none)
    (incomplete : phase.isComplete = false) {bytes : Bytes} :
    phase.Accepts bytes ↔
      ∃ byte rest, bytes = byte :: rest ∧ Byte.isDigit byte = true ∧ next.Accepts rest := by
  cases bytes with
  | nil =>
    rw [accepts_nil_iff, incomplete]
    exact ⟨nofun, nofun⟩
  | cons byte bytes =>
    rw [accepts_cons_iff, step]
    by_cases digit : Byte.isDigit byte = true
    · rw [if_pos digit]
      constructor
      · intro found
        obtain ⟨_, same, h⟩ := found
        cases same
        exact ⟨byte, bytes, rfl, digit, h⟩
      · intro found
        obtain ⟨_, _, same, -, h⟩ := found
        cases same
        exact ⟨next, rfl, h⟩
    · rw [if_neg digit]
      refine ⟨nofun, ?_⟩
      intro found
      obtain ⟨_, _, same, digit', -⟩ := found
      cases same
      exact absurd digit' digit

/-! ### Exponents -/

theorem isExponentMark_iff {byte : UInt8} : isExponentMark byte = true ↔ IsMark byte := by
  rw [isExponentMark, IsMark]
  rw [Bool.or_eq_true, beq_iff_eq, beq_iff_eq]

theorem accepts_exponent_iff {bytes : Bytes} : exponent.Accepts bytes ↔ Digits bytes := by
  have other : ∀ byte rest, Byte.isDigit byte = false →
      (exponent.Accepts (byte :: rest) ↔ byte :: rest = []) := fun byte rest stop => by
    have none : exponent.next? byte = none := if_neg (Bool.eq_false_iff.1 stop)
    exact ⟨fun h => absurd h (not_accepts_cons none), nofun⟩
  rw [accepts_digits exponent (· = []) rfl (fun _ digit => if_pos digit) other rfl
    (fun _ none => none ▸ noDigit_nil)]
  constructor
  · intro found
    obtain ⟨digits, rest, rfl, all, rfl⟩ := found
    rw [List.append_nil]
    exact all
  · intro all
    exact ⟨bytes, [], (List.append_nil bytes).symm, all, rfl⟩

theorem accepts_exponentSign_iff {bytes : Bytes} :
    exponentSign.Accepts bytes ↔ Digits bytes ∧ bytes ≠ [] := by
  rw [accepts_digit exponentSign exponent (fun _ => rfl) rfl]
  constructor
  · intro found
    obtain ⟨byte, rest, rfl, digit, h⟩ := found
    exact ⟨digits_cons_iff.2 ⟨digit, accepts_exponent_iff.1 h⟩, List.cons_ne_nil _ _⟩
  · intro found
    obtain ⟨all, nonempty⟩ := found
    cases bytes with
    | nil => exact absurd rfl nonempty
    | cons byte rest =>
      obtain ⟨digit, all⟩ := digits_cons_iff.1 all
      exact ⟨byte, rest, rfl, digit, accepts_exponent_iff.2 all⟩

/-- After the letter: a sign or none, and then digits. -/
theorem accepts_exponentMark_iff {bytes : Bytes} :
    exponentMark.Accepts bytes ↔ ∃ sign : Option UInt8, ∃ digits, bytes = sign.toList ++ digits ∧
      (∀ byte ∈ sign, IsSign byte) ∧ Digits digits ∧ digits ≠ [] := by
  cases bytes with
  | nil =>
    rw [accepts_nil_iff]
    refine ⟨nofun, ?_⟩
    intro found
    obtain ⟨sign, digits, same, -, -, nonempty⟩ := found
    exact absurd (List.append_eq_nil_iff.1 same.symm).2 nonempty
  | cons byte rest =>
    by_cases sign : IsSign byte
    · have step : exponentMark.next? byte = some exponentSign := if_pos sign
      rw [accepts_cons_iff, step]
      simp only [Option.some_inj, exists_eq_left']
      rw [accepts_exponentSign_iff]
      constructor
      · intro found
        obtain ⟨all, nonempty⟩ := found
        refine ⟨some byte, rest, rfl, ?_, all, nonempty⟩
        intro _ found
        cases found
        exact sign
      · intro found
        obtain ⟨_ | s, digits, same, -, all, nonempty⟩ := found
        · rw [Option.toList_none, List.nil_append] at same
          rw [← same, digits_cons_iff, Literal.isDigit_of_isSign sign] at all
          exact absurd all.1 Bool.false_ne_true
        · cases same
          exact ⟨all, nonempty⟩
    · have step : exponentMark.next? byte = exponentSign.next? byte := if_neg sign
      have same : exponentMark.Accepts (byte :: rest) ↔ exponentSign.Accepts (byte :: rest) := by
        rw [accepts_cons_iff, step, ← accepts_cons_iff]
      rw [same, accepts_exponentSign_iff]
      constructor
      · intro found
        obtain ⟨all, nonempty⟩ := found
        exact ⟨none, byte :: rest, rfl, nofun, all, nonempty⟩
      · intro found
        obtain ⟨_ | s, digits, same, signs, all, nonempty⟩ := found
        · rw [same]
          exact ⟨all, nonempty⟩
        · cases same
          exact absurd (signs byte rfl) sign

/-! ### Fractions -/

/-- What may follow the digits of a number: an exponent or nothing. -/
def ExponentRest (bytes : Bytes) : Prop :=
  ∃ e, IsExponent e ∧ Literal.exponentBytes e = bytes

/-- What may follow the integer part: a fraction or none, and then an exponent or none. -/
def FractionRest (bytes : Bytes) : Prop :=
  ∃ f e, IsFraction f ∧ IsExponent e ∧ Literal.fractionBytes f ++ Literal.exponentBytes e = bytes

theorem exponentRest_nil : ExponentRest [] :=
  ⟨none, nofun, rfl⟩

theorem fractionRest_nil : FractionRest [] :=
  ⟨none, none, nofun, nofun, rfl⟩

theorem noDigit_of_exponentRest {rest : Bytes} (h : ExponentRest rest) : NoDigit rest := by
  obtain ⟨e, he, rfl⟩ := h
  exact Literal.noDigit_exponentBytes he

theorem noDigit_of_fractionRest {rest : Bytes} (h : FractionRest rest) : NoDigit rest := by
  obtain ⟨f, e, -, he, rfl⟩ := h
  exact Literal.noDigit_fractionBytes he f

theorem exponentRest_cons_iff {byte : UInt8} {rest : Bytes} :
    ExponentRest (byte :: rest) ↔ IsMark byte ∧ exponentMark.Accepts rest := by
  rw [accepts_exponentMark_iff]
  constructor
  · intro found
    obtain ⟨_ | e, he, same⟩ := found
    · contradiction
    · obtain ⟨mark, sign, digits, nonempty⟩ := he e rfl
      cases same
      exact ⟨mark, e.sign, e.digits, rfl, sign, digits, nonempty⟩
  · intro found
    obtain ⟨mark, sign, digits, rfl, signs, all, nonempty⟩ := found
    refine ⟨some ⟨byte, sign, digits⟩, ?_, rfl⟩
    intro _ found
    cases found
    exact ⟨mark, signs, all, nonempty⟩

/-- On anything but digits, a phase that waits for an exponent accepts an exponent. -/
theorem accepts_of_mark {phase : Phase} {byte : UInt8} (rest : Bytes)
    (step : phase.next? byte = if isExponentMark byte then some exponentMark else none) :
    phase.Accepts (byte :: rest) ↔ ExponentRest (byte :: rest) := by
  rw [exponentRest_cons_iff, accepts_cons_iff, step, ← isExponentMark_iff]
  by_cases mark : isExponentMark byte = true
  · rw [if_pos mark, and_iff_right mark]
    simp only [Option.some_inj, exists_eq_left']
  · rw [if_neg mark]
    exact ⟨nofun, fun h => absurd h.1 mark⟩

theorem accepts_fraction_iff {bytes : Bytes} :
    fraction.Accepts bytes ↔
      ∃ digits rest, bytes = digits ++ rest ∧ Digits digits ∧ ExponentRest rest :=
  accepts_digits fraction ExponentRest rfl (fun _ digit => if_pos digit)
    (fun _ rest stop => accepts_of_mark rest (if_neg (Bool.eq_false_iff.1 stop)))
    exponentRest_nil (fun _ => noDigit_of_exponentRest)

theorem accepts_point_iff {bytes : Bytes} :
    point.Accepts bytes ↔
      ∃ digits rest, bytes = digits ++ rest ∧ (Digits digits ∧ digits ≠ []) ∧
        ExponentRest rest := by
  rw [accepts_digit point fraction (fun _ => rfl) rfl]
  constructor
  · intro found
    obtain ⟨byte, more, rfl, digit, h⟩ := found
    obtain ⟨digits, rest, rfl, all, h⟩ := accepts_fraction_iff.1 h
    exact ⟨byte :: digits, rest, rfl, ⟨digits_cons_iff.2 ⟨digit, all⟩, List.cons_ne_nil _ _⟩, h⟩
  · intro found
    obtain ⟨digits, rest, rfl, ⟨all, nonempty⟩, h⟩ := found
    cases digits with
    | nil => exact absurd rfl nonempty
    | cons byte digits =>
      obtain ⟨digit, all⟩ := digits_cons_iff.1 all
      exact ⟨byte, digits ++ rest, rfl, digit, accepts_fraction_iff.2 ⟨digits, rest, rfl, all, h⟩⟩

/-! ### Integer parts -/

theorem accepts_zero_iff {bytes : Bytes} : zero.Accepts bytes ↔ FractionRest bytes := by
  cases bytes with
  | nil => exact ⟨fun _ => fractionRest_nil, fun _ => accepts_nil_iff.2 rfl⟩
  | cons byte rest =>
    by_cases dot : byte = Byte.point
    · have step : zero.next? byte = some point := if_pos dot
      rw [accepts_cons_iff, step]
      simp only [Option.some_inj, exists_eq_left']
      rw [accepts_point_iff]
      constructor
      · intro found
        obtain ⟨digits, more, rfl, wf, e, he, rfl⟩ := found
        refine ⟨some digits, e, ?_, he, ?_⟩
        · intro _ found
          cases found
          exact wf
        · rw [dot]
          rfl
      · intro found
        obtain ⟨_ | digits, e, hf, he, same⟩ := found
        · have mark := (exponentRest_cons_iff.1 ⟨e, he, same⟩).1
          rw [dot] at mark
          exact absurd mark (by unfold IsMark; decide)
        · cases same
          exact ⟨digits, _, rfl, hf digits rfl, e, he, rfl⟩
    · have step : zero.next? byte = if isExponentMark byte then some exponentMark else none :=
        if_neg dot
      rw [accepts_of_mark rest step]
      constructor
      · intro found
        obtain ⟨e, he, same⟩ := found
        exact ⟨none, e, nofun, he, same⟩
      · intro found
        obtain ⟨_ | digits, e, hf, he, same⟩ := found
        · exact ⟨e, he, same⟩
        · cases same
          exact absurd rfl dot

theorem accepts_integer_iff {bytes : Bytes} :
    integer.Accepts bytes ↔
      ∃ digits rest, bytes = digits ++ rest ∧ Digits digits ∧ FractionRest rest := by
  have other : ∀ byte rest, Byte.isDigit byte = false →
      (integer.Accepts (byte :: rest) ↔ FractionRest (byte :: rest)) := fun byte rest stop => by
    have step : integer.next? byte = zero.next? byte := if_neg (Bool.eq_false_iff.1 stop)
    rw [← accepts_zero_iff, accepts_cons_iff, step, ← accepts_cons_iff]
  exact accepts_digits integer FractionRest rfl (fun _ digit => if_pos digit) other
    fractionRest_nil (fun _ => noDigit_of_fractionRest)

theorem accepts_sign_iff {bytes : Bytes} :
    sign.Accepts bytes ↔
      ∃ digits rest, bytes = digits ++ rest ∧ IsInteger digits ∧ FractionRest rest := by
  cases bytes with
  | nil =>
    refine ⟨fun h => absurd (accepts_nil_iff.1 h) Bool.false_ne_true, ?_⟩
    intro found
    obtain ⟨digits, rest, same, integer, -⟩ := found
    obtain ⟨none, -⟩ := List.append_eq_nil_iff.1 same.symm
    rcases integer with rfl | ⟨d, more, rfl, -⟩ <;> contradiction
  | cons byte rest =>
    by_cases isZero : byte = Byte.zero
    · have step : sign.next? byte = some zero := if_pos isZero
      rw [accepts_cons_iff, step]
      simp only [Option.some_inj, exists_eq_left']
      rw [accepts_zero_iff]
      constructor
      · intro h
        exact ⟨[byte], rest, rfl, .inl (congrArg (fun b => [b]) isZero), h⟩
      · intro found
        obtain ⟨digits, more, same, rfl | ⟨d, digits, rfl, nonzero, -⟩, h⟩ := found
        · cases same
          exact h
        · cases same
          exact absurd isZero nonzero
    · by_cases digit : Byte.isDigit byte = true
      · have step : sign.next? byte = some integer := (if_neg isZero).trans (if_pos digit)
        rw [accepts_cons_iff, step]
        simp only [Option.some_inj, exists_eq_left']
        rw [accepts_integer_iff]
        constructor
        · intro found
          obtain ⟨digits, more, rfl, all, h⟩ := found
          exact ⟨byte :: digits, more, rfl, .inr ⟨byte, digits, rfl, isZero, digit, all⟩, h⟩
        · intro found
          obtain ⟨digits, more, same, rfl | ⟨d, digits, rfl, -, -, all⟩, h⟩ := found
          · cases same
            exact absurd rfl isZero
          · cases same
            exact ⟨digits, more, rfl, all, h⟩
      · have step : sign.next? byte = none := (if_neg isZero).trans (if_neg digit)
        refine ⟨fun h => absurd h (not_accepts_cons step), ?_⟩
        intro found
        obtain ⟨digits, more, same, rfl | ⟨d, digits, rfl, -, digit', -⟩, h⟩ := found
        · cases same
          exact absurd rfl isZero
        · cases same
          exact absurd digit' digit

/-- **From its start the automaton accepts the bytes of well-formed literals.** -/
theorem accepts_iff {byte : UInt8} {rest : Bytes} :
    (∃ phase, start? byte = some phase ∧ phase.Accepts rest) ↔
      ∃ literal : Literal, literal.WellFormed ∧ literal.bytes = byte :: rest := by
  by_cases minus : byte = Byte.minus
  · have start : start? byte = some sign := if_pos minus
    rw [start]
    simp only [Option.some_inj, exists_eq_left']
    rw [accepts_sign_iff]
    constructor
    · intro found
      obtain ⟨digits, _, rfl, integer, f, e, hf, he, rfl⟩ := found
      refine ⟨⟨true, digits, f, e⟩, ⟨integer, hf, he⟩, ?_⟩
      rw [minus]
      rfl
    · intro found
      obtain ⟨⟨_ | _, digits, f, e⟩, ⟨integer, hf, he⟩, same⟩ := found
      · rcases integer with rfl | ⟨d, more, rfl, -, digit, -⟩
        · cases same
          contradiction
        · cases same
          rw [minus] at digit
          contradiction
      · cases same
        exact ⟨digits, _, rfl, integer, f, e, hf, he, rfl⟩
  · have start : start? byte = sign.next? byte := if_neg minus
    rw [start, ← accepts_cons_iff, accepts_sign_iff]
    constructor
    · intro found
      obtain ⟨digits, _, same, integer, f, e, hf, he, rfl⟩ := found
      exact ⟨⟨false, digits, f, e⟩, ⟨integer, hf, he⟩, same.symm⟩
    · intro found
      obtain ⟨⟨_ | _, digits, f, e⟩, ⟨integer, hf, he⟩, same⟩ := found
      · exact ⟨digits, _, same.symm, integer, f, e, hf, he, rfl⟩
      · cases same
        exact absurd rfl minus

/-! ### Points and exponents -/

/-- Whether a byte makes a literal something else than a plain integer. -/
def isMarkByte (byte : UInt8) : Bool :=
  byte == Byte.point || byte == Byte.lowerE || byte == Byte.upperE

theorem isMarkByte_of_isDigit {byte : UInt8} (h : Byte.isDigit byte = true) :
    isMarkByte byte = false := by
  rw [Bool.eq_false_iff]
  intro mark
  have some : byte = Byte.point ∨ byte = Byte.lowerE ∨ byte = Byte.upperE := by
    simpa [isMarkByte, or_assoc] using mark
  rcases some with rfl | rfl | rfl <;> contradiction

theorem isMarkByte_of_isExponentMark {byte : UInt8} (h : isExponentMark byte = true) :
    isMarkByte byte = true := by
  rcases isExponentMark_iff.1 h with rfl | rfl <;> rfl

theorem isMarkByte_of_isSign {byte : UInt8} (h : IsSign byte) : isMarkByte byte = false := by
  rcases h with rfl | rfl <;> rfl

/-- The phase tells whether the last byte was such a one. -/
theorem isMark_of_next? {phase next : Phase} {byte : UInt8} (h : phase.next? byte = some next) :
    next.isMark = isMarkByte byte := by
  cases phase <;> simp only [next?, afterInteger?] at h <;> split_ifs at h <;> cases h
  all_goals first
    | exact (isMarkByte_of_isDigit ‹_›).symm
    | exact (isMarkByte_of_isExponentMark ‹_›).symm
    | exact (isMarkByte_of_isSign ‹_›).symm
    | (subst byte; rfl)

theorem isMarkByte_of_start? {phase : Phase} {byte : UInt8} (h : start? byte = some phase) :
    isMarkByte byte = false := by
  rw [start?] at h
  split_ifs at h with minus zero digit
  · rw [minus]
    rfl
  · rw [zero]
    rfl
  · exact isMarkByte_of_isDigit digit

/-- No byte that may follow a number continues it. -/
theorem next?_of_endsScalar {phase : Phase} {byte : UInt8} (h : Byte.endsScalar byte = true) :
    phase.next? byte = none := by
  have digit : ¬Byte.isDigit byte = true := by
    intro digit
    simp [Byte.endsScalar, digit] at h
  have zero : byte ≠ Byte.zero := by
    intro same
    subst same
    contradiction
  have point : byte ≠ Byte.point := by
    intro same
    subst same
    contradiction
  have mark : ¬isExponentMark byte = true := fun mark => by
    rcases isExponentMark_iff.1 mark with rfl | rfl <;> contradiction
  have sign : ¬(byte = Byte.plus ∨ byte = Byte.minus) := by
    rintro (rfl | rfl) <;> contradiction
  cases phase <;> simp only [next?, afterInteger?, if_neg digit, if_neg zero, if_neg point,
    if_neg mark, if_neg sign]

end Phase

/-- Whether a literal has a point or an exponent. -/
def marked (literal : Bytes) : Bool :=
  literal.any Phase.isMarkByte

theorem int64?_of_marked {literal : Bytes} (h : marked literal = true) : int64? literal = none :=
  if_pos h

end Number

end JsonStream
