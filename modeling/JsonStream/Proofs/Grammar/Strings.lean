import JsonStream.Proofs.Grammar.Flaws

/-!
# Strings

What a machine makes of the inside of a string: character by character, each of them in its own
bytes, in a short escape, in the escape of a code unit, or in a pair of escapes, until a quote ends
the string or a flaw is refused.

* `Machine.char_absorbs`: one character.
* `Machine.flaw_refused`: one flaw.
* `Machine.string_complete`, `Machine.string_sound`: a string up to its closing quote.
-/

namespace JsonStream

namespace Machine

/-! ### Code units -/

/-- The machine inside a string, between characters, with the decoded bytes so far. -/
def inText (m : Machine) (content : Bytes) : Machine :=
  m.goOn (.text .boundary content)

/-- The machine inside an escape. -/
def inEscape (m : Machine) (content : Bytes) (state : EscapeState) : Machine :=
  m.goOn (.escape state content)

/-- From `state` on, hexadecimal digits are read up to a code unit, which goes to `finish`. -/
def ReadsUnit (m : Machine) (content : Bytes) (state : HexDigits → EscapeState)
    (finish : Nat → Step Machine) : Prop :=
  ∀ digits byte, (m.inEscape content (state digits)).step byte =
    match HexDigits.push? digits byte with
    | none => .fail .expectedHexDigit
    | some digits =>
      match digits.unit? with
      | none => .advance (m.inEscape content (state digits))
      | some unit => finish unit

section
variable {m : Machine} {content : Bytes} {state : HexDigits → EscapeState}
  {finish : Nat → Step Machine}

theorem push?_eq {byte : UInt8} {d : Nat} (h : HexDigit byte d) (count value : Nat) :
    HexDigits.push? ⟨count, value⟩ byte = some ⟨count + 1, 0x10 * value + d⟩ := by
  rw [HexDigits.push?, digit?_eq_some_iff.2 h, Option.map_some]

theorem ReadsUnit.more (reads : m.ReadsUnit content state finish) {byte : UInt8} {count d : Nat}
    (few : count + 1 ≠ 4) (h : HexDigit byte d) (value : Nat) :
    (m.inEscape content (state ⟨count, value⟩)).step byte =
      .advance (m.inEscape content (state ⟨count + 1, 0x10 * value + d⟩)) := by
  rw [reads, push?_eq h]
  dsimp only [HexDigits.unit?]
  rw [if_neg few]

theorem ReadsUnit.last (reads : m.ReadsUnit content state finish) {byte : UInt8} {d : Nat}
    (h : HexDigit byte d) (value : Nat) :
    (m.inEscape content (state ⟨3, value⟩)).step byte = finish (0x10 * value + d) := by
  rw [reads, push?_eq h]
  rfl

theorem ReadsUnit.wrong (reads : m.ReadsUnit content state finish) {byte : UInt8}
    (other : ∀ value, ¬HexDigit byte value) (digits : HexDigits) :
    (m.inEscape content (state digits)).step byte = .fail .expectedHexDigit := by
  have none : Hex.digit? byte = none := Option.eq_none_iff_forall_not_mem.2 fun value some =>
    other value (digit?_eq_some_iff.1 some)
  rw [reads, HexDigits.push?, none]
  rfl

/-- Fewer than four digits name no unit yet. -/
theorem ReadsUnit.absorbs (reads : m.ReadsUnit content state finish) {digits : Bytes}
    (hex : AllHex digits) (count value : Nat) (few : count + digits.length < 4) :
    ∃ value', (m.inEscape content (state ⟨count, value⟩)).Absorbs digits
      (m.inEscape content (state ⟨count + digits.length, value'⟩)) := by
  induction digits generalizing count value with
  | nil => exact ⟨value, .nil _⟩
  | cons byte digits ih =>
    obtain ⟨⟨d, digit⟩, hex⟩ := List.forall_mem_cons.1 hex
    rw [List.length_cons] at few ⊢
    obtain ⟨value', absorbs⟩ := ih hex (count + 1) (0x10 * value + d) (by omega)
    rw [Nat.add_right_comm] at absorbs
    exact ⟨value', .cons (reads.more (by omega) digit value) absorbs⟩

theorem unit_eq (x y z w : Nat) :
    0x10 * (0x10 * (0x10 * (0x10 * 0 + x) + y) + z) + w =
      0x1000 * x + 0x100 * y + 0x10 * z + w := by
  omega

/-- Four digits name a code unit. -/
theorem ReadsUnit.complete (reads : m.ReadsUnit content state finish) {bytes : Bytes} {unit : Nat}
    (h : UnitText bytes unit) :
    ∃ front last near, bytes = front ++ [last] ∧
      (m.inEscape content (state {})).Absorbs front near ∧ near.step last = finish unit := by
  obtain ⟨a, b, c, d, x, y, z, w, rfl, ⟨ha, hb, hc, hd⟩, rfl⟩ := h
  refine ⟨[a, b, c], d, _, rfl, .cons (reads.more (by decide) ha 0)
    (.cons (reads.more (by decide) hb _) (.cons (reads.more (by decide) hc _) (.nil _))), ?_⟩
  rw [reads.last hd, unit_eq]

/-- A unit that stands for a character is taken. -/
theorem ReadsUnit.complete_advance (reads : m.ReadsUnit content state finish) {bytes : Bytes}
    {unit : Nat} (h : UnitText bytes unit) {next : Machine} (advance : finish unit = .advance next) :
    (m.inEscape content (state {})).Absorbs bytes next := by
  obtain ⟨front, last, near, rfl, absorbs, step⟩ := reads.complete h
  exact absorbs.snoc (step.trans advance)

end

/-- The digits of the first escape. -/
theorem readsUnit_unit (m : Machine) (content : Bytes) :
    m.ReadsUnit content .unit fun unit =>
      if Utf16.isHighSurrogate unit then .advance (m.inEscape content (.needBackslash unit))
      else m.pushEscaped content (Utf16.char? unit) :=
  fun _ _ => rfl

/-- The digits of the second escape. -/
theorem readsUnit_secondUnit (m : Machine) (content : Bytes) (high : Nat) :
    m.ReadsUnit content (.secondUnit high) fun low =>
      m.pushEscaped content (Utf16.pairChar? high low) :=
  fun _ _ => rfl

/-! ### Sequences of UTF-8 -/

section
variable {m : Machine} {content bytes : Bytes}

theorem step_text_sequence (m : Machine) {state : Utf8.State} (sequence : state ≠ .boundary)
    (content : Bytes) (byte : UInt8) :
    (m.goOn (.text state content)).step byte = m.stepUtf8 state content byte :=
  if_pos sequence

/-- The bytes that a sequence owes are taken as they are. -/
theorem sequence_absorbs (m : Machine) {state last : Utf8.State} (goes : state.GoesOn bytes last)
    (content : Bytes) :
    (m.goOn (.text state content)).Absorbs bytes (m.goOn (.text last (content ++ bytes))) := by
  induction goes generalizing content with
  | nil =>
    rw [List.append_nil]
    exact .nil _
  | @cons state next last byte bytes sequence step _ ih =>
    have taken : (m.goOn (.text state content)).step byte =
        .advance (m.goOn (.text next (content ++ [byte]))) := by
      rw [step_text_sequence m sequence, stepUtf8, step]
    rw [← List.singleton_append, ← List.append_assoc]
    exact .cons taken (ih (content ++ [byte]))

/-! ### Characters that stand for themselves -/

theorem step_inText (m : Machine) (content : Bytes) (byte : UInt8) :
    (m.inText content).step byte = m.stepText .boundary content byte :=
  rfl

theorem step_inText_ascii (m : Machine) (content : Bytes) {byte : UInt8}
    (space : 0x20 ≤ byte.toNat) (ascii : byte.toNat < 0x80) (quote : byte ≠ Byte.quote)
    (backslash : byte ≠ Byte.backslash) :
    (m.inText content).step byte = .advance (m.inText (content ++ [byte])) := by
  have above : ¬byte < Byte.space := fun below => Nat.not_lt.2 space (UInt8.lt_iff_toNat_lt.1 below)
  have below : byte < 0x80 := UInt8.lt_iff_toNat_lt.2 ascii
  rw [step_inText, stepText, if_neg (fun other => other rfl), if_neg quote, if_neg backslash,
    if_neg above, if_pos below]
  rfl

/-- Quotes and backslashes are ASCII characters above the space. -/
theorem ne_special {byte : UInt8} (other : byte.toNat < 0x20 ∨ 0x80 ≤ byte.toNat) :
    byte ≠ Byte.quote ∧ byte ≠ Byte.backslash := by
  constructor
  · rintro rfl
    exact absurd other (by decide)
  · rintro rfl
    exact absurd other (by decide)

theorem step_inText_high (m : Machine) (content : Bytes) {byte : UInt8}
    (high : 0x80 ≤ byte.toNat) :
    (m.inText content).step byte =
      match m.options.encoding with
      | .utf8 => m.stepUtf8 .boundary content byte
      | .latin1 =>
        .advance (m.inText (content ++ String.utf8EncodeChar (Latin1.char byte))) := by
  obtain ⟨quote, backslash⟩ := ne_special (.inr high)
  have space : ¬byte < Byte.space := fun below =>
    Nat.not_lt.2 (Nat.le_trans (by decide) high) (UInt8.lt_iff_toNat_lt.1 below)
  have ascii : ¬byte < 0x80 := fun below => Nat.not_lt.2 high (UInt8.lt_iff_toNat_lt.1 below)
  rw [step_inText, stepText, if_neg (fun other => other rfl), if_neg quote, if_neg backslash,
    if_neg space, if_neg ascii]
  rfl

theorem ne_quote {c : Char} {byte : UInt8} (same : c.toNat = byte.toNat) (h : c ≠ '"') :
    byte ≠ Byte.quote := by
  intro same
  subst same
  exact h (Char.toNat_inj.1 same)

theorem ne_backslash {c : Char} {byte : UInt8} (same : c.toNat = byte.toNat) (h : c ≠ '\\') :
    byte ≠ Byte.backslash := by
  intro same
  subst same
  exact h (Char.toNat_inj.1 same)

/-- An ASCII character is taken as it is, in either encoding. -/
theorem ascii_absorbs (m : Machine) (content : Bytes) {c : Char} {byte : UInt8}
    (same : c.toNat = byte.toNat) (ascii : byte.toNat < 0x80) (space : 0x20 ≤ c.toNat)
    (quote : c ≠ '"') (backslash : c ≠ '\\') :
    (m.inText content).Absorbs [byte] (m.inText (content ++ String.utf8EncodeChar c)) := by
  rw [Utf8.utf8EncodeChar_of_toNat_eq ascii same]
  exact .cons (step_inText_ascii m content (same ▸ space) ascii (ne_quote same quote)
    (ne_backslash same backslash)) (.nil _)

/-- The first byte of an encoding beyond ASCII opens a sequence. -/
theorem step_inText_lead (utf8 : m.options.encoding = .utf8) {byte : UInt8} {state : Utf8.State}
    (high : 0x80 ≤ byte.toNat) (lead : Utf8.State.lead? byte = some state) (content : Bytes) :
    (m.inText content).step byte = .advance (m.goOn (.text state (content ++ [byte]))) := by
  rw [step_inText_high m content high, utf8]
  dsimp only
  rw [stepUtf8, Utf8.State.step?, lead]

theorem raw_absorbs {c : Char} (h : m.options.dialect.raw c bytes) (space : 0x20 ≤ c.toNat)
    (quote : c ≠ '"') (backslash : c ≠ '\\') (content : Bytes) :
    (m.inText content).Absorbs bytes (m.inText (content ++ String.utf8EncodeChar c)) := by
  cases encoding : m.options.encoding with
  | utf8 =>
    rw [ReaderOptions.raw_utf8 encoding] at h
    obtain ⟨byte, more, state, encoded, lead, completes⟩ := Utf8.exists_first_utf8EncodeChar c
    have first := Utf8.ascii_iff_of_utf8EncodeChar encoded
    rw [h, encoded]
    by_cases ascii : byte.toNat < 0x80
    · have one := Utf8.utf8EncodeChar_one (first.1 ascii)
      rw [one] at encoded
      cases encoded
      have same : c.toNat = (UInt8.ofNat c.toNat).toNat := by
        rw [UInt8.toNat_ofNat']
        have := first.1 ascii
        omega
      have absorbs := ascii_absorbs m content same ascii space quote backslash
      rw [one] at absorbs
      exact absorbs
    · have step := step_inText_lead encoding (Nat.not_lt.1 ascii) lead content
      have rest := m.sequence_absorbs (Utf8.State.goesOn_of_completes completes) (content ++ [byte])
      rw [List.append_assoc, List.singleton_append] at rest
      exact .cons step rest
  | latin1 =>
    obtain ⟨byte, rfl, rfl⟩ := (ReaderOptions.raw_latin1 encoding).1 h
    have same := Latin1.toNat_char byte
    by_cases ascii : byte.toNat < 0x80
    · exact ascii_absorbs m content same ascii space quote backslash
    · have step := step_inText_high m content (Nat.not_lt.1 ascii)
      rw [encoding] at step
      exact .cons step (.nil _)

theorem step_inText_control (m : Machine) (content : Bytes) {byte : UInt8}
    (control : byte.toNat < 0x20) :
    (m.inText content).step byte = .fail .unexpectedCharacter := by
  obtain ⟨quote, backslash⟩ := ne_special (.inl control)
  have below : byte < Byte.space := UInt8.lt_iff_toNat_lt.2 control
  rw [step_inText, stepText, if_neg (fun other => other rfl), if_neg quote, if_neg backslash,
    if_pos below]

/-- A byte that starts no character is refused. -/
theorem step_inText_never {byte : UInt8}
    (never : ∀ c tail, ¬m.options.dialect.raw c (byte :: tail)) (content : Bytes) :
    (m.inText content).step byte = .fail .illegalUnicode := by
  have high : 0x80 ≤ byte.toNat := Nat.not_lt.1 fun ascii => by
    obtain ⟨c, same⟩ := Utf8.exists_toNat_eq (n := byte.toNat) (by omega)
    exact never c [] (m.options.rawText_ascii same ascii)
  rw [step_inText_high m content high]
  cases encoding : m.options.encoding with
  | utf8 =>
    dsimp only
    rw [stepUtf8, Utf8.State.step?]
    cases lead : Utf8.State.lead? byte with
    | none => rfl
    | some state =>
      obtain ⟨tail, completes⟩ := state.exists_completes
      obtain ⟨c, encoded⟩ := Utf8.exists_utf8EncodeChar lead completes
      exact absurd ((ReaderOptions.raw_utf8 encoding).2 encoded.symm) (never c tail)
  | latin1 =>
    exact absurd ((ReaderOptions.raw_latin1 encoding).2 ⟨byte, rfl, rfl⟩) (never _ [])

/-- The start of a character is taken as it is, and what cannot go on with it is refused. -/
theorem opens_absorbs {start : Bytes} (opens : m.options.dialect.Opens start) (content : Bytes) :
    ∃ state, (m.inText content).Absorbs start (m.goOn (.text state (content ++ start))) ∧
      ∀ byte, (∀ c tail, ¬m.options.dialect.raw c (start ++ byte :: tail)) →
        (m.goOn (.text state (content ++ start))).step byte = .fail .illegalUnicode := by
  obtain ⟨c, tail, more, raw⟩ := opens
  cases start with
  | nil =>
    rw [List.append_nil]
    exact ⟨.boundary, .nil _, fun byte never => step_inText_never never content⟩
  | cons lead start =>
    cases encoding : m.options.encoding with
    | latin1 =>
      obtain ⟨byte, one, -⟩ := (ReaderOptions.raw_latin1 encoding).1 raw
      cases (List.append_eq_nil_iff.1 (List.cons.inj one).2).2
      exact absurd rfl more
    | utf8 =>
      have encoded := ((ReaderOptions.raw_utf8 encoding).1 raw).symm
      obtain ⟨first, owed, state, encoded', leads, completes⟩ := Utf8.exists_first_utf8EncodeChar c
      rw [encoded] at encoded'
      cases encoded'
      obtain ⟨last, goes⟩ := Utf8.State.exists_goesOn_of_completes completes
      have sequence : last ≠ .boundary := by
        rintro rfl
        exact more (Utf8.eq_of_completes_boundary ((goes.completes_iff tail).1 completes))
      have high : 0x80 ≤ lead.toNat := Nat.not_lt.1 fun ascii => by
        have boundary : state = .boundary :=
          Utf8.State.First.unique (Utf8.State.lead?_eq_some_iff.1 leads) ascii
        rw [boundary] at completes
        exact more (List.append_eq_nil_iff.1 (Utf8.eq_of_completes_boundary completes)).2
      have rest := m.sequence_absorbs goes (content ++ [lead])
      rw [List.append_assoc, List.singleton_append] at rest
      refine ⟨last, .cons (step_inText_lead encoding high leads content) rest, fun byte never => ?_⟩
      rw [step_text_sequence m sequence, stepUtf8]
      cases step : last.step? byte with
      | none => rfl
      | some next =>
        -- Then the bytes could be completed to a character.
        obtain ⟨tail, completes⟩ := next.exists_completes
        obtain ⟨c, encoded⟩ := (Utf8.exists_utf8EncodeChar_iff leads goes (byte :: tail)).2
          ((Utf8.State.completes_cons_iff sequence).2 ⟨next, step, completes⟩)
        exact absurd ((ReaderOptions.raw_utf8 encoding).2 encoded.symm) (never c tail)

end

/-! ### Escapes -/

section
variable {m : Machine}

theorem step_inText_backslash (m : Machine) (content : Bytes) :
    (m.inText content).step Byte.backslash = .advance (m.inEscape content .start) :=
  rfl

theorem step_escape_u (m : Machine) (content : Bytes) :
    (m.inEscape content .start).step Byte.lowerU = .advance (m.inEscape content (.unit {})) :=
  rfl

theorem pushEscaped_some (m : Machine) (content : Bytes) (c : Char) :
    m.pushEscaped content (some c) = .advance (m.inText (content ++ String.utf8EncodeChar c)) :=
  rfl

/-- A byte after a backslash that is not the letter of a code unit. -/
theorem step_escape_short {byte : UInt8} (other : byte ≠ Byte.lowerU) (content : Bytes) :
    (m.inEscape content .start).step byte =
      match Escape.short? byte with
      | some c => .advance (m.pushChar content c)
      | none => .fail .illegalEscape := by
  show (m.inEscape content .start).stepEscape .start content byte = _
  unfold stepEscape
  dsimp only
  rw [if_neg other]
  rfl

theorem short_absorbs {c : Char} {byte : UInt8} (entry : (byte, c) ∈ shortEscapes)
    (content : Bytes) :
    (m.inEscape content .start).Absorbs [byte]
      (m.inText (content ++ String.utf8EncodeChar c)) := by
  have other : byte ≠ Byte.lowerU := by
    intro same
    subst same
    cases short?_eq_some_iff.2 entry
  have step := step_escape_short (m := m) other content
  rw [short?_eq_some_iff.2 entry] at step
  exact .cons step (.nil _)

theorem unit_absorbs {c : Char} {digits : Bytes} {unit : Nat} (named : UnitText digits unit)
    (scalar : ¬Surrogate unit) (same : c.toNat = unit) (content : Bytes) :
    (m.inEscape content (.unit {})).Absorbs digits
      (m.inText (content ++ String.utf8EncodeChar c)) := by
  refine (m.readsUnit_unit content).complete_advance named ?_
  have low : ¬Utf16.isHighSurrogate unit = true := fun high => by
    have bounds := isHighSurrogate_iff.1 high
    exact scalar ⟨bounds.1, Nat.le_trans bounds.2 (by decide)⟩
  rw [if_neg low, char?_eq_some_iff.2 same, pushEscaped_some]

/-- A high surrogate is taken, and waits for a second escape. -/
theorem high_absorbs {first : Bytes} {high : Nat} (named : HighText first high) (content : Bytes) :
    (m.inText content).Absorbs first (m.inEscape content (.needBackslash high)) := by
  obtain ⟨digits, rfl, named, isHigh⟩ := named
  refine .cons (m.step_inText_backslash content) (.cons (m.step_escape_u content)
    ((m.readsUnit_unit content).complete_advance named ?_))
  exact if_pos (isHighSurrogate_iff.2 isHigh)

theorem second_escape_absorbs (m : Machine) (content : Bytes) (high : Nat) :
    (m.inEscape content (.needBackslash high)).Absorbs [Byte.backslash, Byte.lowerU]
      (m.inEscape content (.secondUnit high {})) := by
  have step : (m.inEscape content (.needBackslash high)).step Byte.backslash =
      .advance (m.inEscape content (.needMark high)) := rfl
  exact .cons step (.cons rfl (.nil _))

theorem pair_absorbs {c : Char} {digits : Bytes} {high low : Nat} (named : UnitText digits low)
    (isLow : 0xdc00 ≤ low ∧ low ≤ 0xdfff)
    (same : c.toNat = 0x10000 + (high - 0xd800) * 0x400 + (low - 0xdc00)) (content : Bytes) :
    (m.inEscape content (.secondUnit high {})).Absorbs digits
      (m.inText (content ++ String.utf8EncodeChar c)) := by
  refine (m.readsUnit_secondUnit content high).complete_advance named ?_
  rw [pairChar?_eq_some_iff.2 ⟨isLow, same⟩, pushEscaped_some]

/-- **Characters are read one by one.** -/
theorem char_absorbs {c : Char} {bytes : Bytes} (h : CharText m.options.dialect c bytes)
    (content : Bytes) :
    (m.inText content).Absorbs bytes (m.inText (content ++ String.utf8EncodeChar c)) := by
  cases h with
  | raw spelled space quote backslash => exact raw_absorbs spelled space quote backslash content
  | short entry => exact .cons (m.step_inText_backslash content) (short_absorbs entry content)
  | unit named scalar same =>
    exact .cons (m.step_inText_backslash content) (.cons (m.step_escape_u content)
      (unit_absorbs named scalar same content))
  | @pair first second high low high_named low_named isHigh isLow same =>
    have absorbs := ((high_absorbs ⟨first, rfl, high_named, isHigh⟩ content).append
      (m.second_escape_absorbs content high)).append (pair_absorbs low_named isLow same content)
    simp only [List.cons_append, List.append_assoc, List.nil_append] at absorbs
    exact absorbs

end

/-! ### Flaws -/

/-- The machine refuses what is left of the input, its end included. -/
def Refuses (m : Machine) (rest : Bytes) (code : ErrorCode) : Prop :=
  match rest with
  | [] => code = .unexpectedEnd ∧ ∀ p, m.finish p = m.refuse p code
  | byte :: _ => m.step byte = .fail code

/-- Inside the digits of an escape, the second one of a pair if there is a high surrogate. -/
def afterMark (high : Option Nat) (digits : HexDigits) : EscapeState :=
  match high with
  | none => .unit digits
  | some high => .secondUnit high digits

section
variable {m : Machine}

theorem mark_absorbs {high : Option Nat} {mark : Bytes} (marked : Mark high mark)
    (content : Bytes) :
    (m.inText content).Absorbs mark (m.inEscape content (afterMark high {})) := by
  cases marked with
  | alone =>
    exact .cons (m.step_inText_backslash content) (.cons (m.step_escape_u content) (.nil _))
  | paired named => exact (high_absorbs named content).append (m.second_escape_absorbs content _)

/-- After a mark a unit is read, which has to be a low surrogate in the second escape, and must not
be one in the first. -/
theorem exists_readsUnit (m : Machine) (content : Bytes) (high : Option Nat) :
    ∃ finish, m.ReadsUnit content (afterMark high) finish ∧
      ∀ unit, (0xdc00 ≤ unit ∧ unit ≤ 0xdfff ↔ high = none) →
        finish unit = .fail .numericRange := by
  cases high with
  | none =>
    refine ⟨_, m.readsUnit_unit content, fun unit unpaired => ?_⟩
    obtain ⟨low, bound⟩ := unpaired.2 rfl
    have notHigh : ¬Utf16.isHighSurrogate unit = true := fun high => by
      have bounds := isHighSurrogate_iff.1 high
      omega
    have none : Utf16.char? unit = none := Option.eq_none_iff_forall_not_mem.2 fun c some =>
      not_surrogate_toNat c (char?_eq_some_iff.1 some ▸ ⟨by omega, bound⟩)
    rw [if_neg notHigh, none]
    rfl
  | some high =>
    refine ⟨_, m.readsUnit_secondUnit content high, fun unit unpaired => ?_⟩
    have none : Utf16.pairChar? high unit = none :=
      Option.eq_none_iff_forall_not_mem.2 fun c some =>
        nomatch unpaired.1 (pairChar?_eq_some_iff.1 some).1
    rw [none]
    rfl

theorem digits_absorbs {high : Option Nat} {mark digits : Bytes} (marked : Mark high mark)
    (hex : AllHex digits) (few : digits.length < 4) (content : Bytes) :
    ∃ read, (m.inText content).Absorbs (mark ++ digits)
      (m.inEscape content (afterMark high read)) := by
  obtain ⟨finish, reads, -⟩ := m.exists_readsUnit content high
  obtain ⟨value, absorbs⟩ := reads.absorbs hex 0 0 (by omega)
  exact ⟨_, (mark_absorbs marked content).append absorbs⟩

/-- The start of a character is taken, and the input cannot end there. -/
theorem started_absorbs {start : Bytes} (started : Started m.options.dialect start)
    (content : Bytes) :
    ∃ near, (m.inText content).Absorbs start near ∧ near.Refuses [] .unexpectedEnd := by
  cases started with
  | raw opens =>
    obtain ⟨state, absorbs, -⟩ := opens_absorbs opens content
    exact ⟨_, absorbs, rfl, fun _ => rfl⟩
  | escape => exact ⟨_, .cons (m.step_inText_backslash content) (.nil _), rfl, fun _ => rfl⟩
  | digits marked hex few =>
    obtain ⟨read, absorbs⟩ := digits_absorbs marked hex few content
    exact ⟨_, absorbs, rfl, fun _ => rfl⟩
  | high named => exact ⟨_, high_absorbs named content, rfl, fun _ => rfl⟩
  | highEscape named =>
    exact ⟨m.inEscape content (.needMark _), (high_absorbs named content).snoc rfl, rfl,
      fun _ => rfl⟩

/-- **Flaws are refused**, right after what stands before them. -/
theorem flaw_refused {start rest : Bytes} {code : ErrorCode}
    (flaw : Flaw m.options.dialect start rest code) (content : Bytes) :
    ∃ near, (m.inText content).Absorbs start near ∧ near.Refuses rest code := by
  cases flaw with
  | control below => exact ⟨_, .nil _, m.step_inText_control content below⟩
  | raw opens never =>
    obtain ⟨state, absorbs, refused⟩ := opens_absorbs opens content
    exact ⟨_, absorbs, refused _ never⟩
  | @escape byte rest letter entry =>
    have none : Escape.short? byte = none := Option.eq_none_iff_forall_not_mem.2 fun c some =>
      entry c (short?_eq_some_iff.1 some)
    have step := step_escape_short (m := m) letter content
    rw [none] at step
    exact ⟨_, .cons (m.step_inText_backslash content) (.nil _), step⟩
  | @digit high _ _ _ _ marked hex few other =>
    obtain ⟨finish, reads, -⟩ := m.exists_readsUnit content high
    obtain ⟨read, absorbs⟩ := digits_absorbs marked hex few content
    exact ⟨_, absorbs, reads.wrong other read⟩
  | @unit high mark digits rest byte unit marked named unpaired =>
    obtain ⟨finish, reads, refused⟩ := m.exists_readsUnit content high
    obtain ⟨front, last, near, same, absorbs, step⟩ := reads.complete named
    obtain ⟨rfl, last_eq⟩ := List.append_inj' same rfl
    cases last_eq
    exact ⟨near, (mark_absorbs marked content).append absorbs, step.trans (refused unit unpaired)⟩
  | noEscape named other => exact ⟨_, high_absorbs named content, if_neg other⟩
  | noLetter named other =>
    exact ⟨m.inEscape content (.needMark _), (high_absorbs named content).snoc rfl, if_neg other⟩
  | ended started => exact started_absorbs started content

theorem Refuses.readAll_eq {rest : Bytes} {code : ErrorCode} (h : m.Refuses rest code)
    (p : Position) : m.readAll p rest = m.refuse p code := by
  cases rest with
  | nil => rw [readAll_nil, h.2]
  | cons byte rest => exact readAll_fail h

theorem Refuses.tokens?_eq {rest : Bytes} {code : ErrorCode} (h : m.Refuses rest code) :
    m.tokens? rest = none := by
  rw [tokens?, h.readAll_eq]
  rfl

end

/-! ### Whole strings -/

theorem body_absorbs {m : Machine} {chars : List Char} {bytes : Bytes}
    (h : BodyText m.options.dialect chars bytes) (content : Bytes) :
    (m.inText content).Absorbs bytes (m.inText (content ++ Utf8.encode chars)) := by
  induction h generalizing content with
  | nil =>
    rw [Utf8.encode_nil, List.append_nil]
    exact .nil _
  | cons head _ ih =>
    rw [Utf8.encode_cons, ← List.append_assoc]
    exact (char_absorbs head content).append (ih _)

theorem text?_encode (chars : List Char) :
    Utf8.text? (Utf8.encode chars) = some (String.ofList chars) := by
  rw [Utf8.text?_eq_some_iff, Utf8.bytes, String.toList_ofList]

/-- The token of a string. -/
def stringToken (m : Machine) (text : String) : Token :=
  if m.takesKey then .key text else .string text

theorem stringToken_inj {m : Machine} {first second : String}
    (same : m.stringToken first = m.stringToken second) : first = second := by
  rw [stringToken, stringToken] at same
  split at same
  · exact Token.key.inj same
  · exact Token.string.inj same

theorem step_quote (m : Machine) (chars : List Char) :
    (m.inText (Utf8.encode chars)).step Byte.quote =
      .emit (m.stringToken (String.ofList chars)) m.endScalar := by
  rw [step_inText, stepText, if_neg (fun other => other rfl), if_pos rfl, endString, text?_encode]
  rfl

/-- A body and the quote after it are read as the text of its characters. -/
theorem tokens?_body {m : Machine} {chars : List Char} {bytes : Bytes}
    (h : BodyText m.options.dialect chars bytes) (rest : Bytes) :
    (m.inText []).tokens? (bytes ++ Byte.quote :: rest) =
      (m.endScalar.tokens? rest).map (m.stringToken (String.ofList chars) :: ·) := by
  rw [(body_absorbs h []).tokens?_eq, List.nil_append, tokens?_emit (m.step_quote chars)]

/-- The text of a string is read up to its closing quote. -/
theorem string_complete {m : Machine} {text : String} {bytes : Bytes}
    (h : StringText m.options.dialect text bytes) :
    ∃ body, bytes = Byte.quote :: body ∧ ∀ rest,
      (m.inText []).tokens? (body ++ rest) =
        (m.endScalar.tokens? rest).map (m.stringToken text :: ·) := by
  obtain ⟨body, rfl, spelled⟩ := h
  refine ⟨body ++ [Byte.quote], rfl, fun rest => ?_⟩
  rw [List.append_assoc, List.singleton_append, tokens?_body spelled, String.ofList_toList]

/-- Nothing else is read as a string. -/
theorem string_sound {m : Machine} {input : Bytes} {tokens : List Token}
    (h : (m.inText []).tokens? input = some tokens) :
    ∃ text body rest tail, input = body ++ rest ∧
      StringText m.options.dialect text (Byte.quote :: body) ∧
        tokens = m.stringToken text :: tail ∧ m.endScalar.tokens? rest = some tail := by
  obtain ⟨outcome, lexed⟩ := m.options.exists_lexed input
  cases lexed with
  | @closed chars body rest spelled =>
    rw [tokens?_body spelled] at h
    obtain ⟨tail, read, same⟩ := Option.map_eq_some_iff.1 h
    refine ⟨String.ofList chars, body ++ [Byte.quote], rest, tail, ?_, ?_, same.symm, read⟩
    · rw [List.append_assoc]
      rfl
    · refine ⟨body, rfl, ?_⟩
      rw [String.toList_ofList]
      exact spelled
  | flawed spelled flaw =>
    obtain ⟨near, absorbs, refused⟩ := flaw_refused flaw ([] ++ Utf8.encode _)
    rw [(body_absorbs spelled []).tokens?_eq, absorbs.tokens?_eq, refused.tokens?_eq] at h
    contradiction

end Machine

end JsonStream
