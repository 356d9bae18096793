import JsonStream.Proofs.Grammar.Scalars
import JsonStream.Proofs.Text.Utf8

/-!
# Flaws of strings

What follows the opening quote of a string starts with a string that is closed, or else it has a
flaw: after some characters, a byte that can stand there in no string, or the end of input. Each
flaw has its error code, and a place right in front of the byte that is wrong.

* `Flaw`: the flaws that a character can have.
* `Lexed`: what the bytes after an opening quote come to.
* `ReaderOptions.exists_lexed`: whatever they are, they come to something.
-/

namespace JsonStream

/-- The bytes that a reader with these options takes for a character that stands for itself. -/
def ReaderOptions.RawText (options : ReaderOptions) (c : Char) (bytes : Bytes) : Prop :=
  match options.encoding with
  | .utf8 => bytes = String.utf8EncodeChar c
  | .latin1 => ∃ byte, bytes = [byte] ∧ Latin1.char byte = c

/-- The dialect of a reader with these options. -/
def ReaderOptions.dialect (options : ReaderOptions) : Dialect where
  numeral := options.NumeralText
  raw := options.RawText

/-! ### Escapes as tables -/

theorem digit?_eq_some_iff {byte : UInt8} {value : Nat} :
    Hex.digit? byte = some value ↔ HexDigit byte value := by
  rw [Hex.digit?, HexDigit, Byte.isDigit]
  simp only [Bool.and_eq_true, decide_eq_true_eq, UInt8.le_iff_toNat_le, Byte.zero, Byte.nine,
    Byte.lowerA, Byte.lowerF, Byte.upperA, Byte.upperF, UInt8.reduceToNat]
  split_ifs with decimal lower upper
  · rw [Option.some_inj]
    omega
  · rw [Option.some_inj]
    omega
  · rw [Option.some_inj]
    omega
  · refine iff_of_false not_false ?_
    omega

theorem short?_eq_some_iff {byte : UInt8} {c : Char} :
    Escape.short? byte = some c ↔ (byte, c) ∈ shortEscapes := by
  constructor
  · intro h
    simp only [Escape.short?] at h
    split at h <;> cases h <;> decide
  · intro mem
    simp only [shortEscapes, List.mem_cons, List.not_mem_nil, Prod.mk.injEq, or_false] at mem
    rcases mem with h | h | h | h | h | h | h | h <;> obtain ⟨rfl, rfl⟩ := h <;> rfl

theorem isHighSurrogate_iff {unit : Nat} :
    Utf16.isHighSurrogate unit = true ↔ 0xd800 ≤ unit ∧ unit ≤ 0xdbff := by
  rw [Utf16.isHighSurrogate]
  rw [Bool.and_eq_true, decide_eq_true_eq, decide_eq_true_eq]

theorem isLowSurrogate_iff {unit : Nat} :
    Utf16.isLowSurrogate unit = true ↔ 0xdc00 ≤ unit ∧ unit ≤ 0xdfff := by
  rw [Utf16.isLowSurrogate]
  rw [Bool.and_eq_true, decide_eq_true_eq, decide_eq_true_eq]

theorem not_surrogate_toNat (c : Char) : ¬Surrogate c.toNat := by
  intro surrogate
  have valid : c.toNat < 0xd800 ∨ 0xdfff < c.toNat ∧ c.toNat < 0x110000 := c.valid
  rw [Surrogate] at surrogate
  omega

theorem char?_eq_some_iff {point : Nat} {c : Char} :
    Utf16.char? point = some c ↔ c.toNat = point := by
  constructor
  · exact Utf16.toNat_of_char?
  · intro same
    subst same
    exact Utf16.char?_toNat c

/-- A pair of surrogates names the character of their code point. -/
theorem pairChar?_eq_some_iff {high low : Nat} {c : Char} :
    Utf16.pairChar? high low = some c ↔
      (0xdc00 ≤ low ∧ low ≤ 0xdfff) ∧
        c.toNat = 0x10000 + (high - 0xd800) * 0x400 + (low - 0xdc00) := by
  rw [Utf16.pairChar?]
  rw [← isLowSurrogate_iff]
  by_cases isLow : Utf16.isLowSurrogate low = true
  · rw [if_pos isLow, char?_eq_some_iff, and_iff_right isLow]
    rfl
  · rw [if_neg isLow]
    exact iff_of_false (Option.some_ne_none c).symm fun h => isLow h.1

theorem ReaderOptions.rawText_ascii (options : ReaderOptions) {c : Char} {byte : UInt8}
    (same : c.toNat = byte.toNat) (ascii : byte.toNat < 0x80) : options.RawText c [byte] := by
  rw [ReaderOptions.RawText]
  cases options.encoding with
  | utf8 => exact (Utf8.utf8EncodeChar_of_toNat_eq ascii same).symm
  | latin1 => exact ⟨byte, rfl, Char.toNat_inj.1 ((Latin1.toNat_char byte).trans same.symm)⟩

theorem printable_of_high {c : Char} (high : 0x80 ≤ c.toNat) :
    0x20 ≤ c.toNat ∧ c ≠ '"' ∧ c ≠ '\\' := by
  refine ⟨Nat.le_trans (by decide) high, ?_, ?_⟩
  · intro same
    subst same
    contradiction
  · intro same
    subst same
    contradiction

namespace ReaderOptions

variable {options : ReaderOptions} {c : Char} {bytes : Bytes}

theorem raw_utf8 (utf8 : options.encoding = .utf8) :
    options.dialect.raw c bytes ↔ bytes = String.utf8EncodeChar c := by
  show options.RawText c bytes ↔ _
  rw [RawText, utf8]

theorem raw_latin1 (latin1 : options.encoding = .latin1) :
    options.dialect.raw c bytes ↔ ∃ byte, bytes = [byte] ∧ Latin1.char byte = c := by
  show options.RawText c bytes ↔ _
  rw [RawText, latin1]

end ReaderOptions

/-! ### Flaws -/

/-- A run of hexadecimal digits. -/
def AllHex (digits : Bytes) : Prop :=
  ∀ byte ∈ digits, ∃ value, HexDigit byte value

/-- The escape of a high surrogate. -/
def HighText (bytes : Bytes) (high : Nat) : Prop :=
  ∃ digits, bytes = Byte.backslash :: Byte.lowerU :: digits ∧ UnitText digits high ∧
    0xd800 ≤ high ∧ high ≤ 0xdbff

/-- What stands before the digits of an escape. In front of a second escape this is the first one,
of a high surrogate. -/
inductive Mark : Option Nat → Bytes → Prop where
  | alone : Mark none [Byte.backslash, Byte.lowerU]
  | paired {first : Bytes} {high : Nat} (named : HighText first high) :
      Mark (some high) (first ++ [Byte.backslash, Byte.lowerU])

section
variable (d : Dialect)

/-- The start of a character that stands for itself: some of its bytes or none, but not all. -/
def Dialect.Opens (start : Bytes) : Prop :=
  ∃ c tail, tail ≠ [] ∧ d.raw c (start ++ tail)

/-- The start of a character, as itself or as an escape. -/
inductive Started : Bytes → Prop where
  | raw {start : Bytes} (opens : d.Opens start) : Started start
  | escape : Started [Byte.backslash]
  | digits {high : Option Nat} {mark digits : Bytes} (marked : Mark high mark)
      (hex : AllHex digits) (few : digits.length < 4) : Started (mark ++ digits)
  | high {first : Bytes} {high : Nat} (named : HighText first high) : Started first
  | highEscape {first : Bytes} {high : Nat} (named : HighText first high) :
      Started (first ++ [Byte.backslash])

/-- **The flaws of a character.** After the bytes of its start the next one cannot stand there, or
the input ends. A byte below the space stands for nothing. What starts as an encoding goes on as one.
A backslash is followed by the letter of an escape. A unit has four digits; it is a low surrogate if
a high one stands before it, and only then; and a high one is followed by another escape of a
unit. -/
inductive Flaw : Bytes → Bytes → ErrorCode → Prop where
  | control {byte : UInt8} {rest : Bytes} (below : byte.toNat < 0x20) :
      Flaw [] (byte :: rest) .unexpectedCharacter
  | raw {start rest : Bytes} {byte : UInt8} (opens : d.Opens start)
      (never : ∀ c tail, ¬d.raw c (start ++ byte :: tail)) :
      Flaw start (byte :: rest) .illegalUnicode
  | escape {byte : UInt8} {rest : Bytes} (letter : byte ≠ Byte.lowerU)
      (entry : ∀ c, (byte, c) ∉ shortEscapes) : Flaw [Byte.backslash] (byte :: rest) .illegalEscape
  | digit {high : Option Nat} {mark digits rest : Bytes} {byte : UInt8} (marked : Mark high mark)
      (hex : AllHex digits) (few : digits.length < 4) (other : ∀ value, ¬HexDigit byte value) :
      Flaw (mark ++ digits) (byte :: rest) .expectedHexDigit
  | unit {high : Option Nat} {mark digits rest : Bytes} {byte : UInt8} {unit : Nat}
      (marked : Mark high mark) (named : UnitText (digits ++ [byte]) unit)
      (unpaired : 0xdc00 ≤ unit ∧ unit ≤ 0xdfff ↔ high = none) :
      Flaw (mark ++ digits) (byte :: rest) .numericRange
  | noEscape {first rest : Bytes} {high : Nat} {byte : UInt8} (named : HighText first high)
      (other : byte ≠ Byte.backslash) : Flaw first (byte :: rest) .numericRange
  | noLetter {first rest : Bytes} {high : Nat} {byte : UInt8} (named : HighText first high)
      (other : byte ≠ Byte.lowerU) : Flaw (first ++ [Byte.backslash]) (byte :: rest) .numericRange
  | ended {start : Bytes} (started : Started d start) : Flaw start [] .unexpectedEnd

/-- Only the end of input is refused as such. -/
theorem Flaw.code_eq_iff {d : Dialect} {start rest : Bytes} {code : ErrorCode}
    (h : Flaw d start rest code) : code = .unexpectedEnd ↔ rest = [] := by
  cases h with
  | ended => exact iff_of_true rfl rfl
  | _ => exact iff_of_false nofun nofun

end

/-! ### Outcomes -/

/-- What the bytes after an opening quote come to, with the bytes up to there. -/
inductive StringOutcome where
  /-- The text of the string, with all bytes up to the closing quote and that one included. -/
  | text (text : String) (taken : Bytes)
  /-- An error, with all bytes in front of the one that is refused. -/
  | refused (code : ErrorCode) (taken : Bytes)

/-- **What the bytes after an opening quote come to.** Characters are read one after another, up to
the first quote that stands where a character may start, or to the first flaw. -/
inductive Lexed (d : Dialect) : Bytes → StringOutcome → Prop where
  | closed {chars : List Char} {body rest : Bytes} (spelled : BodyText d chars body) :
      Lexed d (body ++ Byte.quote :: rest) (.text (String.ofList chars) (body ++ [Byte.quote]))
  | flawed {chars : List Char} {body start rest : Bytes} {code : ErrorCode}
      (spelled : BodyText d chars body) (flaw : Flaw d start rest code) :
      Lexed d (body ++ (start ++ rest)) (.refused code (body ++ start))

/-- The bytes up to the end of a string or up to its flaw. -/
def StringOutcome.taken : StringOutcome → Bytes
  | .text _ taken | .refused _ taken => taken

theorem Lexed.exists_rest {d : Dialect} {input : Bytes} {outcome : StringOutcome}
    (h : Lexed d input outcome) : ∃ rest, input = outcome.taken ++ rest := by
  cases h with
  | @closed chars body rest spelled =>
    refine ⟨rest, ?_⟩
    rw [StringOutcome.taken, List.append_assoc]
    rfl
  | @flawed chars body start rest code spelled flaw =>
    refine ⟨rest, ?_⟩
    rw [StringOutcome.taken, List.append_assoc]

/-! ### There is no other outcome -/

/-- The bytes start with a character. -/
def StartsChar (d : Dialect) (input : Bytes) : Prop :=
  ∃ c first rest, input = first ++ rest ∧ first ≠ [] ∧ CharText d c first

/-- The bytes start with a flaw. -/
def StartsFlaw (d : Dialect) (input : Bytes) : Prop :=
  ∃ start rest code, input = start ++ rest ∧ Flaw d start rest code

section
variable {d : Dialect}

theorem hexDigit_lt {byte : UInt8} {value : Nat} (h : HexDigit byte value) : value < 0x10 := by
  rw [HexDigit] at h
  omega

/-- As many digits as there are, up to a given number of them. -/
theorem exists_digits (n : Nat) (input : Bytes) :
    ∃ digits rest, input = digits ++ rest ∧ AllHex digits ∧ (digits.length = n ∨
      digits.length < n ∧ ∀ byte ∈ rest.head?, ∀ value, ¬HexDigit byte value) := by
  induction n generalizing input with
  | zero => exact ⟨[], input, rfl, nofun, .inl rfl⟩
  | succ n ih =>
    cases input with
    | nil => exact ⟨[], [], rfl, nofun, .inr ⟨Nat.succ_pos n, nofun⟩⟩
    | cons byte input =>
      by_cases digit : ∃ value, HexDigit byte value
      · obtain ⟨digits, rest, rfl, hex, count⟩ := ih input
        refine ⟨byte :: digits, rest, rfl, List.forall_mem_cons.2 ⟨digit, hex⟩, ?_⟩
        rw [List.length_cons]
        exact count.imp (congrArg (· + 1)) fun few => ⟨Nat.succ_lt_succ few.1, few.2⟩
      · refine ⟨[], byte :: input, rfl, nofun, .inr ⟨Nat.succ_pos n, fun b mem value hex => ?_⟩⟩
        cases mem
        exact digit ⟨value, hex⟩

theorem exists_unit {digits : Bytes} (hex : AllHex digits) (four : digits.length = 4) :
    ∃ front last unit, digits = front ++ [last] ∧ UnitText digits unit ∧ unit < 0x10000 := by
  match digits, four with
  | [a, b, c, e], _ =>
    simp only [AllHex, List.forall_mem_cons] at hex
    obtain ⟨⟨x, ha⟩, ⟨y, hb⟩, ⟨z, hc⟩, ⟨w, he⟩, -⟩ := hex
    have := hexDigit_lt ha
    have := hexDigit_lt hb
    have := hexDigit_lt hc
    have := hexDigit_lt he
    exact ⟨[a, b, c], e, _, rfl, ⟨a, b, c, e, x, y, z, w, rfl, ⟨ha, hb, hc, he⟩, rfl⟩, by omega⟩

/-- After the mark of an escape four digits follow, or else there is a flaw. -/
theorem exists_unit_or_flaw {high : Option Nat} {mark : Bytes} (marked : Mark high mark)
    (input : Bytes) :
    (∃ front last unit rest, input = front ++ [last] ++ rest ∧ UnitText (front ++ [last]) unit ∧
      unit < 0x10000) ∨ StartsFlaw d (mark ++ input) := by
  obtain ⟨digits, rest, rfl, hex, four | ⟨few, stops⟩⟩ := exists_digits 4 input
  · obtain ⟨front, last, unit, rfl, named, small⟩ := exists_unit hex four
    exact .inl ⟨front, last, unit, rest, rfl, named, small⟩
  · refine .inr ?_
    cases rest with
    | nil =>
      refine ⟨mark ++ digits, [], _, ?_, .ended (.digits marked hex few)⟩
      rw [List.append_assoc]
    | cons byte rest =>
      refine ⟨mark ++ digits, byte :: rest, _, ?_, .digit marked hex few (stops byte rfl)⟩
      rw [List.append_assoc]

/-- After the escape of a high surrogate the escape of a low one follows, or else there is a flaw. -/
theorem startsChar_or_flaw_pair {digits : Bytes} {high : Nat} (named : UnitText digits high)
    (isHigh : 0xd800 ≤ high ∧ high ≤ 0xdbff) (input : Bytes) :
    StartsChar d (Byte.backslash :: Byte.lowerU :: (digits ++ input)) ∨
      StartsFlaw d (Byte.backslash :: Byte.lowerU :: (digits ++ input)) := by
  have first : HighText (Byte.backslash :: Byte.lowerU :: digits) high :=
    ⟨digits, rfl, named, isHigh⟩
  rcases input with _ | ⟨byte, input⟩
  · exact .inr ⟨_, [], _, rfl, .ended (.high first)⟩
  by_cases other : byte ≠ Byte.backslash
  · exact .inr ⟨_, byte :: input, _, rfl, .noEscape first other⟩
  cases Decidable.not_not.1 other
  rcases input with _ | ⟨byte, input⟩
  · refine .inr ⟨_, [], _, ?_, .ended (.highEscape first)⟩
    rw [List.append_nil]
    rfl
  by_cases other : byte ≠ Byte.lowerU
  · refine .inr ⟨_, byte :: input, _, ?_, .noLetter first other⟩
    rw [List.append_assoc]
    rfl
  cases Decidable.not_not.1 other
  rcases exists_unit_or_flaw (d := d) (.paired first) input with
    ⟨front, last, low, rest, rfl, low_named, -⟩ | flaw
  · by_cases isLow : 0xdc00 ≤ low ∧ low ≤ 0xdfff
    · obtain ⟨c, same⟩ := Utf8.exists_toNat_eq
        (n := 0x10000 + (high - 0xd800) * 0x400 + (low - 0xdc00)) (by omega)
      refine .inl ⟨c, _, rest, ?_, List.cons_ne_nil _ _, .pair named low_named isHigh isLow same⟩
      simp only [List.cons_append, List.append_assoc]
    · refine .inr ⟨_, last :: rest, _, ?_,
        .unit (.paired first) low_named (iff_of_false isLow nofun)⟩
      simp only [List.cons_append, List.append_assoc, List.nil_append]
  · have same : (Byte.backslash :: Byte.lowerU :: digits) ++ [Byte.backslash, Byte.lowerU] ++ input =
        Byte.backslash :: Byte.lowerU :: (digits ++ Byte.backslash :: Byte.lowerU :: input) := by
      simp only [List.cons_append, List.append_assoc, List.nil_append]
    rw [same] at flaw
    exact .inr flaw

theorem startsChar_or_flaw_unit (input : Bytes) :
    StartsChar d (Byte.backslash :: Byte.lowerU :: input) ∨
      StartsFlaw d (Byte.backslash :: Byte.lowerU :: input) := by
  rcases exists_unit_or_flaw (d := d) .alone input with
    ⟨front, last, unit, rest, rfl, named, small⟩ | flaw
  · by_cases isHigh : 0xd800 ≤ unit ∧ unit ≤ 0xdbff
    · exact startsChar_or_flaw_pair named isHigh rest
    by_cases isLow : 0xdc00 ≤ unit ∧ unit ≤ 0xdfff
    · refine .inr ⟨_, last :: rest, _, ?_, .unit .alone named (iff_of_true isLow rfl)⟩
      simp only [List.cons_append, List.append_assoc, List.nil_append]
    · obtain ⟨c, same⟩ := Utf8.exists_toNat_eq (n := unit) (by omega)
      have scalar : ¬Surrogate unit := by
        rw [Surrogate]
        omega
      exact .inl ⟨c, _, rest, rfl, List.cons_ne_nil _ _, .unit named scalar same⟩
  · exact .inr flaw

/-- A backslash starts an escape or a flaw. -/
theorem startsChar_or_flaw_escape (input : Bytes) :
    StartsChar d (Byte.backslash :: input) ∨ StartsFlaw d (Byte.backslash :: input) := by
  rcases input with _ | ⟨byte, input⟩
  · exact .inr ⟨_, [], _, rfl, .ended .escape⟩
  by_cases letter : byte = Byte.lowerU
  · subst letter
    exact startsChar_or_flaw_unit input
  by_cases entry : ∃ c, (byte, c) ∈ shortEscapes
  · obtain ⟨c, entry⟩ := entry
    exact .inl ⟨c, [Byte.backslash, byte], input, rfl, List.cons_ne_nil _ _, .short entry⟩
  · exact .inr ⟨[Byte.backslash], byte :: input, _, rfl,
      .escape letter fun c mem => entry ⟨c, mem⟩⟩

end

namespace ReaderOptions

variable (options : ReaderOptions)

theorem opens_nil : options.dialect.Opens [] := by
  have raw : options.RawText 'a' [0x61] := options.rawText_ascii rfl (by decide)
  exact ⟨'a', [0x61], List.cons_ne_nil _ _, raw⟩

/-- A byte that starts no ASCII character starts another one, or a flaw. -/
theorem startsChar_or_flaw_high {byte : UInt8} (high : 0x80 ≤ byte.toNat) (input : Bytes) :
    StartsChar options.dialect (byte :: input) ∨ StartsFlaw options.dialect (byte :: input) := by
  cases encoding : options.encoding with
  | latin1 =>
    have printable := printable_of_high (c := Latin1.char byte) (by rw [Latin1.toNat_char]; exact high)
    exact .inl ⟨Latin1.char byte, [byte], input, rfl, List.cons_ne_nil _ _,
      .raw ((raw_latin1 encoding).2 ⟨byte, rfl, rfl⟩) printable.1 printable.2.1 printable.2.2⟩
  | utf8 =>
    cases lead : Utf8.State.lead? byte with
    | none =>
      refine .inr ⟨[], byte :: input, _, rfl, .raw options.opens_nil fun c tail raw => ?_⟩
      obtain ⟨first, owed, state, encoded, some, -⟩ := Utf8.exists_first_utf8EncodeChar c
      rw [raw_utf8 encoding, encoded] at raw
      cases raw
      rw [lead] at some
      contradiction
    | some state =>
      obtain ⟨more, last, rest, rfl, goes, stops⟩ := state.exists_goesOn input
      have continued := Utf8.exists_utf8EncodeChar_iff lead goes
      by_cases boundary : last = .boundary
      · subst boundary
        obtain ⟨c, encoded⟩ := (continued []).2 Utf8.State.completes_nil
        rw [List.append_nil] at encoded
        have above : 0x80 ≤ c.toNat := Nat.not_lt.1 fun below =>
          Nat.not_lt.2 high ((Utf8.ascii_iff_of_utf8EncodeChar encoded).2 below)
        have printable := printable_of_high above
        exact .inl ⟨c, byte :: more, rest, rfl, List.cons_ne_nil _ _,
          .raw ((raw_utf8 encoding).2 encoded.symm) printable.1 printable.2.1 printable.2.2⟩
      · -- The sequence is open where it stops.
        have opens : options.dialect.Opens (byte :: more) := by
          obtain ⟨tail, completes⟩ := last.exists_completes
          obtain ⟨c, encoded⟩ := (continued tail).2 completes
          refine ⟨c, tail, ?_, (raw_utf8 encoding).2 encoded.symm⟩
          rintro rfl
          exact boundary (Utf8.State.owed_eq_zero_iff.1 completes.2.symm)
        cases rest with
        | nil =>
          refine .inr ⟨byte :: more, [], _, rfl, .ended (.raw opens)⟩
        | cons wrong rest =>
          refine .inr ⟨byte :: more, wrong :: rest, _, rfl, .raw opens fun c tail raw => ?_⟩
          have completes := (continued (wrong :: tail)).1 ⟨c, ((raw_utf8 encoding).1 raw).symm⟩
          obtain ⟨next, step, -⟩ := (Utf8.State.completes_cons_iff boundary).1 completes
          rw [stops boundary wrong rfl] at step
          contradiction

/-- Unless a quote comes first there is a character or a flaw. -/
theorem startsChar_or_flaw (input : Bytes) (quote : input.head? ≠ some Byte.quote) :
    StartsChar options.dialect input ∨ StartsFlaw options.dialect input := by
  cases input with
  | nil => exact .inr ⟨[], [], _, rfl, .ended (.raw options.opens_nil)⟩
  | cons byte input =>
    by_cases backslash : byte = Byte.backslash
    · subst backslash
      exact startsChar_or_flaw_escape input
    by_cases control : byte.toNat < 0x20
    · exact .inr ⟨[], byte :: input, _, rfl, .control control⟩
    by_cases ascii : byte.toNat < 0x80
    · obtain ⟨c, same⟩ := Utf8.exists_toNat_eq (n := byte.toNat) (by omega)
      refine .inl ⟨c, [byte], input, rfl, List.cons_ne_nil _ _,
        .raw (options.rawText_ascii same ascii) (same ▸ Nat.not_lt.1 control) ?_ ?_⟩
      · rintro rfl
        exact quote (congrArg some (UInt8.toNat_inj.1 same.symm))
      · rintro rfl
        exact backslash (UInt8.toNat_inj.1 same.symm)
    · exact options.startsChar_or_flaw_high (Nat.not_lt.1 ascii) input

/-- **Whatever follows an opening quote, it comes to an outcome.** -/
theorem exists_lexed (input : Bytes) : ∃ outcome, Lexed options.dialect input outcome := by
  induction size : input.length using Nat.strongRecOn generalizing input with
  | ind n ih =>
    by_cases quote : input.head? = some Byte.quote
    · obtain ⟨rest, rfl⟩ := List.head?_eq_some_iff.1 quote
      have closed : Lexed options.dialect ([] ++ Byte.quote :: rest) _ := .closed .nil
      exact ⟨_, closed⟩
    · rcases options.startsChar_or_flaw input quote with
        ⟨c, first, rest, rfl, nonempty, spelled⟩ | ⟨start, rest, code, rfl, flaw⟩
      · have shorter : rest.length < n := by
          have positive := List.length_pos_iff.2 nonempty
          rw [List.length_append] at size
          omega
        obtain ⟨outcome, lexed⟩ := ih _ shorter rest rfl
        cases lexed with
        | closed body =>
          rw [← List.append_assoc]
          exact ⟨_, .closed (.cons spelled body)⟩
        | flawed body flaw =>
          rw [← List.append_assoc]
          exact ⟨_, .flawed (.cons spelled body) flaw⟩
      · have flawed : Lexed options.dialect ([] ++ (start ++ rest)) _ := .flawed .nil flaw
        exact ⟨_, flawed⟩

end ReaderOptions

end JsonStream
