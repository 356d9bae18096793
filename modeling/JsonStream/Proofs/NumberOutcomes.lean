import Mathlib.Tactic.NormNum
import JsonStream.Proofs.Number.Exact
import JsonStream.Proofs.Positions
import JsonStream.Proofs.WordOutcomes

/-!
# What a number is reported as

A number is an integer if its literal has neither a point nor an exponent and its value fits 64
bits. Whether it has is kept in a flag while its bytes arrive, in as many chunks as they may take,
and the literal is searched again before its digits are read; both say the same. What is no integer
is reported as the number mode says.

* `Reader.AnswersLiteral`: the answer to a literal wherever it stands, and as a document
  (`Reader.AnswersDocument`).
* `Number.int64?_eq_some_iff`, `Number.exists_int64?_iff`: which literals are integers.
* `Reader.integers_exact`: integers, and nothing else, are reported as integers.
-/

namespace JsonStream

/-! ### The literals of integers -/

namespace Number

variable {l : Literal}

/-- A literal without fraction and exponent denotes its digits with their sign. -/
theorem Literal.toRat_eq_signedValue (fraction : l.fraction = none) (exponent : l.exponent = none) :
    l.toRat = signedValue l.negative l.integer := by
  have digits : l.digits = l.integer := by
    rw [Literal.digits, fraction]
    exact List.append_nil _
  have scale : l.scale = 0 := by
    rw [Literal.scale, Literal.scaleOf, Literal.exponentNegative, Literal.exponentDigits, fraction,
      exponent]
    rfl
  rw [Literal.toRat, digits, scale, zpow_zero, mul_one, signed, signedValue]
  split_ifs <;> push_cast <;> rfl

/-- Without marks, a literal is read as an integer exactly if its value is in range. -/
theorem int64?_of_not_marked (wellFormed : l.WellFormed) (unmarked : ¬marked l.bytes = true) :
    ∃ value : Int, l.toRat = value ∧
      int64? l.bytes =
        if Int64.minValue.toInt ≤ value ∧ value ≤ Int64.maxValue.toInt then
          some (Int64.ofInt value)
        else none := by
  obtain ⟨fraction, exponent⟩ := eq_none_of_not_marked wellFormed unmarked
  have bytes : l.bytes = signedText l.negative l.integer := by
    rw [Literal.bytes, fraction, exponent, signedText]
    show _ ++ (l.integer ++ []) = _
    rw [List.append_nil]
  refine ⟨_, Literal.toRat_eq_signedValue fraction exponent, ?_⟩
  rw [bytes, int64?_signedText wellFormed.integer]

/-- **Which integer a literal is read as**: the one that it denotes, if it has no marks. -/
theorem int64?_eq_some_iff (wellFormed : l.WellFormed) {i : Int64} :
    int64? l.bytes = some i ↔ marked l.bytes = false ∧ l.toRat = i.toInt := by
  by_cases mark : marked l.bytes = true
  · rw [int64?_of_marked mark, mark]
    exact iff_of_false nofun nofun
  · obtain ⟨value, toRat, read⟩ := int64?_of_not_marked wellFormed mark
    rw [read, toRat, Int.cast_inj]
    constructor
    · intro found
      split_ifs at found with range
      cases found
      have below := Int.lt_of_le_of_lt range.2 (by decide : Int64.maxValue.toInt < 2 ^ 63)
      exact ⟨Bool.eq_false_iff.2 mark, (Int64.toInt_ofInt_of_le range.1 below).symm⟩
    · rintro ⟨-, rfl⟩
      rw [if_pos ⟨i.minValue_le_toInt, i.toInt_le⟩, Int64.ofInt_toInt]

/-- **Which literals are read as integers.** -/
theorem exists_int64?_iff (wellFormed : l.WellFormed) :
    (∃ i, int64? l.bytes = some i) ↔
      marked l.bytes = false ∧ -2 ^ 63 ≤ l.toRat ∧ l.toRat ≤ 2 ^ 63 - 1 := by
  constructor
  · rintro ⟨i, read⟩
    obtain ⟨unmarked, toRat⟩ := (int64?_eq_some_iff wellFormed).1 read
    rw [toRat]
    have lower := i.minValue_le_toInt
    have upper := i.toInt_le
    refine ⟨unmarked, ?_, ?_⟩
    · exact_mod_cast lower
    · exact_mod_cast upper
  · rintro ⟨unmarked, lower, upper⟩
    obtain ⟨value, toRat, read⟩ :=
      int64?_of_not_marked wellFormed (Bool.eq_false_iff.1 unmarked)
    rw [toRat] at lower upper
    refine ⟨Int64.ofInt value, ?_⟩
    rw [read]
    refine if_pos ⟨?_, ?_⟩
    · exact_mod_cast lower
    · exact_mod_cast upper

end Number

/-! ### The answer to a literal -/

/-- What the number mode makes of a literal that is reported as no integer. -/
def NumberMode.answer (mode : NumberMode) (l : Number.Literal) (literal : String) :
    Except ErrorCode Token :=
  match mode with
  | .float =>
    if (Binary64.ofLiteral l).isFinite then .ok (.number (.float (Binary64.ofLiteral l)))
    else .error .numericRange
  | .components =>
    match Number.Components.ofLiteral? l with
    | some c => .ok (.number (.components c))
    | none => .error .numericRange
  | .text => .ok (.number (.text literal))

section
variable {o : ReaderOptions} {l : Number.Literal} {literal : String}

/-- What the number mode says is the conversion where no integer is made of the literal. -/
theorem NumberMode.answer_eq (wellFormed : l.WellFormed) (same : l.bytes = Utf8.bytes literal)
    (other : o.NoInteger (Utf8.bytes literal)) :
    Token.ofLiteral o false literal = o.numbers.answer l literal := by
  have taken : Number.Literal.ofBytes? (Utf8.bytes literal) = some l :=
    Number.Literal.ofBytes?_eq_some_iff.2 ⟨wellFormed, same⟩
  rw [ReaderOptions.ofLiteral_of_noInteger other]
  cases o.numbers with
  | float =>
    dsimp only
    rw [Binary64.ofBytes?, taken]
    rfl
  | components =>
    dsimp only
    rw [Number.Components.ofBytes_of_wellFormed wellFormed same, NumberMode.answer]
    cases Number.Components.ofLiteral? l <;> rfl
  | text => rfl

theorem NumberMode.answer_ne_integer (mode : NumberMode) (i : Int64) :
    mode.answer l literal ≠ .ok (.integer i) := by
  cases mode with
  | float | components =>
    rw [NumberMode.answer]
    split <;> nofun
  | text => nofun

/-- **What is reported as an integer**, and as which one. -/
theorem Token.ofLiteral_eq_integer_iff (wellFormed : l.WellFormed)
    (same : l.bytes = Utf8.bytes literal) {i : Int64} :
    Token.ofLiteral o false literal = .ok (.integer i) ↔
      o.integers = true ∧ Number.int64? l.bytes = some i := by
  constructor
  · intro integer
    by_cases other : o.NoInteger (Utf8.bytes literal)
    · rw [NumberMode.answer_eq wellFormed same other] at integer
      exact absurd integer (NumberMode.answer_ne_integer _ i)
    · obtain ⟨integers, some⟩ := Classical.not_imp.1 other
      obtain ⟨j, read⟩ := Option.ne_none_iff_exists'.1 some
      have converts : o.Converts literal (.integer j) := .integer integers read
      rw [converts.ofLiteral_eq] at integer
      cases integer
      rw [same]
      exact ⟨integers, read⟩
  · rintro ⟨integers, read⟩
    rw [same] at read
    exact ReaderOptions.Converts.ofLiteral_eq (.integer integers read)

end

namespace Reader

/-- Wherever the literal is the longest start of a number and may end there, this is answered,
however the input is cut into chunks. -/
def AnswersLiteral (o : ReaderOptions) (literal : Bytes) (answer : Except ErrorCode Token) : Prop :=
  ∀ opening chunks byte rest, Begins o .number opening chunks byte rest →
    Lexicon.number.Munched (byte :: rest) (.word literal) →
    ∀ ended : Bool,
      let before := ({ options := o } : Reader).run opening
      let after := ({ options := o } : Reader).run (chunks ++ if ended then [[]] else [])
      (outcome (after.1.flatten, after.2)).ShowsAnswer (Call.reports before.1.flatten) ended
        (Position.after {} opening.flatten) (byte :: rest) literal answer

/-- As all of the input the literal is answered first, however it is cut into chunks. A failure is
at its end. -/
def AnswersDocument (o : ReaderOptions) (literal : Bytes) (answer : Except ErrorCode Token) : Prop :=
  ∀ chunks, (∀ chunk ∈ chunks, chunk ≠ []) → chunks.flatten = literal →
    (Call.reports (({ options := o } : Reader).run (chunks ++ [[]])).1.flatten).head?.map Prod.fst =
      some (answer.mapError (⟨·, Position.after {} literal⟩))

/-- **A literal has one answer**, the conversion of its text. -/
theorem answersLiteral_ofLiteral (o : ReaderOptions) (literal : String) :
    AnswersLiteral o (Utf8.bytes literal) (Token.ofLiteral o false literal) := by
  intro opening chunks byte rest begins munched ended
  obtain ⟨result, answer, only, answers, shows⟩ := run_word begins ended
  cases (only _).1 munched
  have converted : answer = Token.ofLiteral o false literal := by
    generalize bytes : Utf8.bytes literal = w at answers
    cases answers with
    | word reports =>
      cases reports with
      | @number literal' token converts =>
        have same : literal = literal' := by
          have texts := congrArg Utf8.text? bytes
          rw [Utf8.text?_bytes, Utf8.text?_bytes] at texts
          exact Option.some.inj texts
        rw [same, converts.ofLiteral_eq]
      | outOfRange range =>
        rw [← bytes] at range
        rw [range.ofLiteral_eq]
  rw [← converted]
  exact shows

/-! ### Documents -/

/-- A literal that is all of the input stands at its start. -/
theorem begins_literal (o : ReaderOptions) {chunks : List Bytes}
    (bytes : ∀ chunk ∈ chunks, chunk ≠ []) (number : NumberText chunks.flatten) :
    ∃ byte rest, chunks.flatten = byte :: rest ∧ Begins o .number [] chunks byte rest ∧
      Lexicon.number.Munched (byte :: rest) (.word chunks.flatten) := by
  obtain ⟨l, wellFormed, same⟩ := number
  cases all : chunks.flatten with
  | nil => exact absurd (same.trans all) wellFormed.bytes_ne_nil
  | cons byte rest =>
    rw [all] at same
    obtain ⟨phase, start, -⟩ := Number.Phase.accepts_iff.2 ⟨l, wellFormed, same⟩
    have head : Lexicon.number.Head byte := Lexicon.head_number_iff.2 ⟨phase, start⟩
    refine ⟨byte, rest, rfl, ⟨by simp, bytes, rfl, head, ?_, all⟩, ?_⟩
    · obtain ⟨space, -⟩ := head.ordinary
      obtain ⟨x, step, -⟩ := Machine.stepValue_of_head { options := o } head
      have first : ({ options := o } : Machine).step byte = .advance x := by
        simpa [Machine.step, Machine.stepStructure, space] using step
      have single : ∀ chunk ∈ [[byte]], chunk ≠ [] := by simp
      have told := tells_run o single
      rw [List.flatten_singleton, Machine.read_advance first, Machine.read_nil] at told
      exact told.failure
    · have munch : Munch NumberText (byte :: rest) (byte :: rest) [] :=
        ⟨(List.append_nil _).symm, .of_word ⟨l, wellFormed, same⟩,
          fun v front _ => front.length_le⟩
      exact ⟨byte :: rest, [], munch, .whole ⟨l, wellFormed, same⟩ (by simp)⟩

/-- What is answered wherever the literal stands is answered to a document of its own. -/
theorem AnswersLiteral.document {o : ReaderOptions} {literal : Bytes}
    {answer : Except ErrorCode Token} (h : AnswersLiteral o literal answer)
    (number : NumberText literal) : AnswersDocument o literal answer := by
  rintro chunks bytes rfl
  obtain ⟨byte, rest, all, begins, munched⟩ := begins_literal o bytes number
  have shows := h [] chunks byte rest begins munched true
  generalize chunks.flatten = input at shows
  cases shows with
  | hidden _ opened => contradiction
  | token _ reports =>
    have told := congrArg (fun reports => reports.head?.map Prod.fst) reports
    exact told
  | refused _ reports =>
    have told := congrArg (fun reports => reports.head?.map Prod.fst) reports
    exact told

end Reader

/-! ### The flag -/

/-- **The flag of a number says whether there is a mark among the bytes taken so far.** -/
theorem Feed.Underway.fractional_eq {q : Feed} {phase : Number.Phase} {fractional : Bool}
    {segment : Segment} (h : q.Underway)
    (lexeme : q.reader.lexeme = .number phase fractional segment) :
    fractional = Number.marked (q.reader.scalarBytes segment) := by
  have aligned : q.reader.lexeme.Aligned q.reader.carry q.rest := h.live.aligned
  have viable := h.viable.unfinished
  rw [lexeme] at aligned
  rw [Reader.unfinished_of_lexeme_eq lexeme] at viable
  rw [Reader.scalarBytes_eq aligned]
  exact viable.2

/-! ### Integers -/

namespace Reader

/-- **Integers, and nothing else, are reported as integers.** Wherever a literal stands, and also as
a document of its own, it is answered in one way, however it is cut into chunks. If integers are
reported and it has neither a point nor an exponent, and its value is in the range of 64 signed
bits, the answer is that value as an integer. All other literals are answered as the number mode
says. In every state of a call, the flag of a number in progress says whether there is a mark among
its bytes, as does the search of the literal before its digits are read. -/
theorem integers_exact (o : ReaderOptions) :
    (∀ (l : Number.Literal) (literal : String), l.WellFormed → l.bytes = Utf8.bytes literal →
      ∃ answer, AnswersLiteral o l.bytes answer ∧ AnswersDocument o l.bytes answer ∧
        (∀ i, answer = .ok (.integer i) ↔
          o.integers = true ∧ Number.marked l.bytes = false ∧ l.toRat = i.toInt) ∧
        ((∃ i, answer = .ok (.integer i)) ↔ o.integers = true ∧ Number.marked l.bytes = false ∧
          -2 ^ 63 ≤ l.toRat ∧ l.toRat ≤ 2 ^ 63 - 1) ∧
        ((¬∃ i, answer = .ok (.integer i)) → answer = o.numbers.answer l literal)) ∧
    ∀ moves rest n q phase fractional segment,
      (Transcript.playAll o moves).session.chunk? = some rest →
      (Feed.after ⟨(Transcript.playAll o moves).session.reader, rest⟩ n).Reads q →
      q.reader.lexeme = .number phase fractional segment →
        fractional = Number.marked (q.reader.scalarBytes segment) ∧
          (fractional = true → Number.int64? (q.reader.scalarBytes segment) = none) := by
  constructor
  · intro l literal wellFormed same
    have integer_iff {i : Int64} := Token.ofLiteral_eq_integer_iff (o := o) (i := i) wellFormed same
    have answers := answersLiteral_ofLiteral o literal
    rw [← same] at answers
    refine ⟨_, answers, answers.document ⟨l, wellFormed, rfl⟩, fun i => ?_, ?_, ?_⟩
    · rw [integer_iff, Number.int64?_eq_some_iff wellFormed]
    · simp only [integer_iff, exists_and_left]
      rw [Number.exists_int64?_iff wellFormed]
    · intro other
      refine NumberMode.answer_eq wellFormed same fun integers => ?_
      refine Option.eq_none_iff_forall_ne_some.2 fun i read => other ⟨i, ?_⟩
      rw [← same] at read
      exact integer_iff.2 ⟨integers, read⟩
  · intro moves rest n q phase fractional segment attached reads lexeme
    have steady := ((Transcript.kept_playAll o moves).steady rest attached).after n
    have underway := (reads.visits.passes (steady.underway reads.failure reads.root)).2
    have flag := underway.fractional_eq lexeme
    exact ⟨flag, fun mark => Number.int64?_of_marked (flag.symm.trans mark)⟩

/-- The least integer is cut into two chunks, the number after the greatest one is a float, and
the flag is set once the point of `1.` is taken. -/
theorem integers_exact_limits :
    (∃ answer, AnswersLiteral { integers := true } (Utf8.bytes "-9223372036854775808") answer ∧
      answer = .ok (.integer Int64.minValue) ∧
      (Call.reports (({ options := { integers := true } } : Reader).run
          ([Utf8.bytes "-92233720368", Utf8.bytes "54775808"] ++ [[]])).1.flatten).head?.map
        Prod.fst = some (.ok (.integer Int64.minValue))) ∧
    (∃ answer, AnswersLiteral { integers := true } (Utf8.bytes "9223372036854775808") answer ∧
      ¬∃ i, answer = .ok (.integer i)) ∧
    ∃ q phase segment, Feed.Reads ⟨({ options := { integers := true } } : Reader).attach [0x31, 0x2e],
        [0x31, 0x2e]⟩ q ∧ q.reader.lexeme = .number phase true segment ∧
      true = Number.marked (q.reader.scalarBytes segment) := by
  obtain ⟨answered, flags⟩ := integers_exact { integers := true }
  refine ⟨?_, ?_, ?_⟩
  · have taken : Number.Literal.ofBytes? (Utf8.bytes "-9223372036854775808") =
        some ⟨true, Utf8.bytes "9223372036854775808", none, none⟩ := by decide
    obtain ⟨wellFormed, same⟩ := Number.Literal.ofBytes?_eq_some_iff.1 taken
    obtain ⟨answer, everywhere, document, integer, -⟩ := answered _ _ wellFormed same
    have value : Number.signedValue true (Utf8.bytes "9223372036854775808") =
      Int64.minValue.toInt := by decide
    have toRat := (Number.Literal.toRat_eq_signedValue (l := ⟨true,
      Utf8.bytes "9223372036854775808", none, none⟩) rfl rfl).trans (congrArg Int.cast value)
    have least := (integer Int64.minValue).2 ⟨rfl, by decide, toRat⟩
    rw [same] at everywhere
    refine ⟨answer, everywhere, least, ?_⟩
    have reports := document [Utf8.bytes "-92233720368", Utf8.bytes "54775808"] (by decide)
      (by decide)
    rw [least] at reports
    exact reports
  · have taken : Number.Literal.ofBytes? (Utf8.bytes "9223372036854775808") =
        some ⟨false, Utf8.bytes "9223372036854775808", none, none⟩ := by decide
    obtain ⟨wellFormed, same⟩ := Number.Literal.ofBytes?_eq_some_iff.1 taken
    obtain ⟨answer, everywhere, -, -, integer, -⟩ := answered _ _ wellFormed same
    have value : Number.signedValue false (Utf8.bytes "9223372036854775808") =
      9223372036854775808 := by decide
    have toRat := (Number.Literal.toRat_eq_signedValue (l := ⟨false,
      Utf8.bytes "9223372036854775808", none, none⟩) rfl rfl).trans (congrArg Int.cast value)
    rw [same] at everywhere
    refine ⟨answer, everywhere, fun some => ?_⟩
    obtain ⟨-, -, -, upper⟩ := integer.1 some
    rw [toRat] at upper
    norm_num at upper
  · have reads : Feed.Reads ⟨({ options := { integers := true } } : Reader).attach [0x31, 0x2e],
        [0x31, 0x2e]⟩ _ := ⟨rfl, nofun, .tail (.single (.intro rfl)) (.intro rfl)⟩
    exact ⟨_, _, _, reads, rfl,
      (flags [.feed [0x31, 0x2e]] [0x31, 0x2e] 0 _ _ _ _ rfl reads rfl).1⟩

end Reader

end JsonStream
