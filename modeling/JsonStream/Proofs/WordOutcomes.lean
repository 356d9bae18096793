import JsonStream.Proofs.Grammar.Munch
import JsonStream.Proofs.Number.Walk
import JsonStream.Proofs.StringOutcomes

/-!
# What follows the first byte of a number or a keyword

Wherever a minus sign or a digit starts a number, or a letter a keyword, the bytes from there on
decide alone what comes of it. A reader takes their longest start of a word. If that is a word that
may end there, it is what is reported, and otherwise the byte after it is refused, or the end of
input. How the bytes are cut into chunks makes no difference.

* `Lexicon.Inside.shows`: what a machine makes of each outcome.
* `Machine.step_head`: how a word begins.
* `Reader.run_word`: readers, whatever the chunks.
* `Reader.lexing_exact`: words are recognised exactly, and all checks of literals agree.
-/

namespace JsonStream

/-! ### Answers -/

/-- What an outcome is answered with. -/
inductive WordOutcome.Answers (options : ReaderOptions) (lexicon : Lexicon) :
    WordOutcome → Except ErrorCode Token → Prop where
  | word {w : Bytes} {answer : Except ErrorCode Token}
      (reports : lexicon.Reports options w answer) : Answers options lexicon (.word w) answer
  | refused {code : ErrorCode} {taken : Bytes} :
      Answers options lexicon (.refused code taken) (.error code)

/-- What reading on shows of an answer that is due after the bytes `w` of the input, `p` being the
place where the input starts. If these are all of the input, it is due once the end is signalled. -/
inductive Reading.ShowsAnswer (x : Reading) (ended : Bool) (p : Position) (input w : Bytes) :
    Except ErrorCode Token → Prop where
  | hidden {answer : Except ErrorCode Token} (all : w = input) (opened : ended = false)
      (tokens : x.tokens = []) (failure : x.failure = none) : ShowsAnswer x ended p input w answer
  | token {token : Token} (due : w = input → ended = true)
      (first : x.tokens.head? = some (token, p.after w)) : ShowsAnswer x ended p input w (.ok token)
  | refused {code : ErrorCode} (due : w = input → ended = true) (tokens : x.tokens = [])
      (position : x.position = p.after w) (failure : x.failure = some code) :
      ShowsAnswer x ended p input w (.error code)

namespace Lexicon

theorem Munched.exists_answers {lexicon : Lexicon} {input : Bytes} {result : WordOutcome}
    (h : lexicon.Munched input result) (options : ReaderOptions) :
    ∃ answer, result.Answers options lexicon answer := by
  obtain ⟨w, rest, -, ends⟩ := h
  cases ends with
  | whole word =>
    obtain ⟨answer, reports⟩ := lexicon.exists_reports options word
    exact ⟨answer, .word reports⟩
  | runsOn | missing | unended => exact ⟨_, .refused⟩

namespace Inside

variable {m last : Machine} {lexicon : Lexicon} {input w rest : Bytes} {result : WordOutcome}
  {answer : Except ErrorCode Token}

/-- Where all of the input is taken, the answer is due at the end of input. -/
theorem shows_at_end (inside : Inside m lexicon w last) (ends : lexicon.Ends w [] result)
    (answers : result.Answers m.options lexicon answer) (ended : Bool) (p : Position) :
    (last.readUpTo ended (p.after w) []).ShowsAnswer ended p w w answer := by
  rw [Machine.readUpTo, Machine.read_nil, Reading.andThen_eq rfl]
  cases ended with
  | false => exact .hidden rfl rfl rfl rfl
  | true =>
    dsimp only
    rw [if_pos rfl, List.nil_append]
    cases ends with
    | whole word delimits =>
      cases answers with
      | word reports =>
        rw [inside.finish_ends word reports]
        cases answer with
        | ok token => exact .token (fun _ => rfl) rfl
        | error code => exact .refused (fun _ => rfl) rfl rfl rfl
    | unended other =>
      cases answers
      rw [inside.finish_unended other]
      exact .refused (fun _ => rfl) rfl rfl rfl

/-- Where it is not, the next byte brings it. -/
theorem shows_before {byte : UInt8} (inside : Inside m lexicon w last)
    (munch : Munch lexicon.Word input w (byte :: rest))
    (ends : lexicon.Ends w (byte :: rest) result)
    (answers : result.Answers m.options lexicon answer) (ended : Bool) (p : Position) :
    (last.readUpTo ended (p.after w) (byte :: rest)).ShowsAnswer ended p input w answer := by
  have due : w = input → ended = true := by
    intro all
    have parts := munch.parts
    simp [← all] at parts
  have refuses : ∀ {code}, last.step byte = .fail code →
      (last.readUpTo ended (p.after w) (byte :: rest)).ShowsAnswer ended p input w (.error code) := by
    intro code step
    rw [Machine.readUpTo, Machine.read_fail step]
    exact .refused due rfl rfl rfl
  cases ends with
  | whole word delimits =>
    cases answers with
    | word reports =>
      have step := inside.step_ends word (delimits byte rfl) reports
      cases answer with
      | ok token =>
        rw [Machine.readUpTo, Machine.read_emitBefore step, Reading.report_andThen]
        exact .token due rfl
      | error code => exact refuses step
  | runsOn word more =>
    cases answers
    exact refuses (inside.step_runsOn munch.stops word more)
  | missing other =>
    cases answers
    exact refuses (inside.step_missing munch.stops other)

/-- **What a machine makes of each outcome.** -/
theorem shows {x : Machine} {byte : UInt8} (begun : Inside m lexicon [byte] x)
    (munched : lexicon.Munched (byte :: input) result)
    (answers : result.Answers m.options lexicon answer) (ended : Bool) (p : Position) :
    (x.readUpTo ended (p.advance byte) input).ShowsAnswer ended p (byte :: input) result.taken
      answer := by
  obtain ⟨more, rest, last, rfl, absorbs, inside, munch⟩ := begun.exists_munch input
  obtain ⟨w, rest', munch', ends⟩ := munched
  obtain ⟨rfl, rfl⟩ := munch'.unique munch
  rw [absorbs.readUpTo_eq, ends.taken_eq]
  have place : (p.advance byte).after more = p.after ([byte] ++ more) := rfl
  rw [place]
  cases rest' with
  | nil =>
    rw [List.append_nil]
    exact inside.shows_at_end ends answers ended p
  | cons => exact inside.shows_before munch' ends answers ended p

end Inside

/-! ### First bytes -/

theorem Head.ordinary {lexicon : Lexicon} {byte : UInt8} (head : lexicon.Head byte) :
    Byte.isWhitespace byte = false ∧ byte ≠ Byte.quote ∧ byte ≠ Byte.comma ∧ byte ≠ Byte.colon ∧
      byte ≠ Byte.closeBracket ∧ byte ≠ Byte.closeBrace := by
  cases lexicon with
  | number =>
    rcases head with rfl | digit
    · decide
    · refine ⟨?_, ?_, ?_, ?_, ?_, ?_⟩
      · by_contra space
        have space : Byte.isWhitespace byte = true := by simpa using space
        rcases isWhitespace_iff.1 space with rfl | rfl | rfl | rfl <;> contradiction
      all_goals
        rintro rfl
        contradiction
  | keyword k =>
    obtain rfl : byte = k.head := head
    cases k <;> decide

theorem head_number_iff {byte : UInt8} :
    number.Head byte ↔ ∃ phase, Number.Phase.start? byte = some phase := by
  rw [Number.Phase.start?, Head]
  constructor
  · rintro (rfl | digit)
    · exact ⟨.sign, rfl⟩
    · split_ifs <;> exact ⟨_, rfl⟩
  · rintro ⟨phase, start⟩
    split_ifs at start with minus zero digit
    · exact .inl minus
    · subst zero
      exact .inr rfl
    · exact .inr digit

end Lexicon

namespace Machine

variable {m : Machine} {lexicon : Lexicon} {byte : UInt8}

/-- Where a value is due, the first byte of a word starts it. -/
theorem stepValue_of_head (m : Machine) (head : lexicon.Head byte) :
    ∃ x, m.stepValue byte = .advance x ∧ lexicon.Inside m.valueStarted [byte] x := by
  cases lexicon with
  | number =>
    obtain ⟨phase, start⟩ := Lexicon.head_number_iff.1 head
    exact ⟨_, m.stepValue_start start, .number (Number.Phase.spelled_start start)⟩
  | keyword k =>
    obtain rfl : byte = k.head := head
    exact ⟨_, m.stepValue_head k, .keyword rfl⟩

/-- Between tokens the first byte of a word starts it, or it is refused. -/
theorem step_head (between : m.unfinished = .nothing) (head : lexicon.Head byte) :
    (∃ x, m.step byte = .advance x ∧ lexicon.Inside m.valueStarted [byte] x) ∨
      ∃ code, m.step byte = .fail code := by
  obtain ⟨space, quote, comma, colon, bracket, brace⟩ := head.ordinary
  have begun := m.stepValue_of_head head
  have step : m.step byte = m.stepValue byte ∨ ∃ code, m.step byte = .fail code := by
    obtain ⟨options, frames, root, unfinished⟩ := m
    cases between
    cases frames with
    | nil => cases root <;> simp [Machine.step, stepStructure, space]
    | cons frame outer =>
      rcases frame with ⟨_ | _ | _⟩ | ⟨_ | _ | _ | _ | _⟩ <;>
        simp [Machine.step, stepStructure, stepArray, stepObject, *]
  rcases step with value | refused
  · rw [value]
    exact .inl begun
  · exact .inr refused

/-- Where it is not refused, reading goes on inside the word. -/
theorem readUpTo_head {p : Position} {ended : Bool} {rest : Bytes}
    (between : m.unfinished = .nothing) (head : lexicon.Head byte)
    (taken : (m.read p [byte]).failure = none) :
    ∃ x, lexicon.Inside m.valueStarted [byte] x ∧
      m.readUpTo ended p (byte :: rest) = x.readUpTo ended (p.advance byte) rest := by
  rcases step_head between head with ⟨x, step, inside⟩ | ⟨code, step⟩
  · refine ⟨x, inside, ?_⟩
    rw [readUpTo, read_advance step, readUpTo]
  · rw [read_fail step] at taken
    contradiction

end Machine

/-! ### Readers -/

/-- What a caller sees of an answer that is due after the bytes `w` of the input. In front of it
`told` has been reported; `start` is the place where the input starts. If the bytes are all of the
input, the answer is due once the end is signalled. -/
inductive Outcome.ShowsAnswer (x : Outcome) (told : List (Except ParseError Token × Position))
    (ended : Bool) (start : Position) (input w : Bytes) : Except ErrorCode Token → Prop where
  | hidden {answer : Except ErrorCode Token} (all : w = input) (opened : ended = false)
      (reports : x.reports = told) (failure : x.failure = none) :
      ShowsAnswer x told ended start input w answer
  | token {token : Token} {later : List (Except ParseError Token × Position)}
      (due : w = input → ended = true)
      (reports : x.reports = told ++ (.ok token, start.after w) :: later) :
      ShowsAnswer x told ended start input w (.ok token)
  | refused {code : ErrorCode} (due : w = input → ended = true)
      (reports : x.reports = told ++ [(.error ⟨code, start.after w⟩, start.after w)])
      (failure : x.failure = some ⟨code, start.after w⟩) :
      ShowsAnswer x told ended start input w (.error code)

/-- What a reading shows of an answer, it shows to the caller. -/
theorem Outcome.showsAnswer_of_reading {x : Reading} {ended : Bool} {p : Position} {input w : Bytes}
    {answer : Except ErrorCode Token} {tokens : List (Token × Position)}
    {polled : List Call × Reader} (shows : x.ShowsAnswer ended p input w answer)
    (tells : ({ x with tokens := tokens ++ x.tokens } : Reading).Tells polled) :
    (outcome polled).ShowsAnswer (tokens.map fun reported => (.ok reported.1, reported.2)) ended p
      input w answer := by
  have reports := tells.reports
  have failed := tells.failure
  rw [Reading.reports, List.map_append, List.append_assoc] at reports
  cases shows with
  | hidden all opened none failure =>
    rw [none, failure] at reports
    rw [failure] at failed
    exact .hidden all opened (reports.trans (List.append_nil _)) failed
  | token due first =>
    obtain ⟨later, same⟩ := List.head?_eq_some_iff.1 first
    rw [same] at reports
    exact .token due reports
  | refused due none position failure =>
    rw [none, failure, position] at reports
    rw [failure, position] at failed
    exact .refused due reports failed

namespace Reader

/-- A word begins with `byte`. The chunks of `opening` are read up to a place between tokens where
that byte is taken; other chunks contain the same bytes, then that byte and then the rest. -/
structure Begins (options : ReaderOptions) (lexicon : Lexicon) (opening chunks : List Bytes)
    (byte : UInt8) (rest : Bytes) : Prop where
  opening_bytes : ∀ chunk ∈ opening, chunk ≠ []
  bytes : ∀ chunk ∈ chunks, chunk ≠ []
  between : (({ options } : Reader).run opening).2.lexeme = .none
  head : lexicon.Head byte
  taken : (({ options } : Reader).run (opening ++ [[byte]])).2.failure = none
  same : chunks.flatten = opening.flatten ++ byte :: rest

/-- **What follows the first byte of a word**, in whichever way it is cut into chunks: its one
outcome, and the answer to that. -/
theorem run_word {options : ReaderOptions} {lexicon : Lexicon} {opening chunks : List Bytes}
    {byte : UInt8} {rest : Bytes} (h : Begins options lexicon opening chunks byte rest)
    (ended : Bool) :
    let before := ({ options } : Reader).run opening
    let after := ({ options } : Reader).run (chunks ++ if ended then [[]] else [])
    ∃ result answer, (∀ other, lexicon.Munched (byte :: rest) other ↔ other = result) ∧
      result.Answers options lexicon answer ∧
      (outcome (after.1.flatten, after.2)).ShowsAnswer (Call.reports before.1.flatten) ended
        (Position.after {} opening.flatten) (byte :: rest) result.taken answer := by
  intro before after
  have told := tells_run options h.opening_bytes
  have read := tells_run_upTo options ended h.bytes
  have nonempty : ∀ chunk ∈ opening ++ [[byte]], chunk ≠ [] :=
    List.forall_mem_append.2 ⟨h.opening_bytes, by simp⟩
  have begun := tells_run options nonempty
  rw [List.flatten_append, List.flatten_singleton, Machine.read_append] at begun
  obtain ⟨accepted, taken⟩ := Reading.accepted_andThen (begun.accepted h.taken)
  have resting : (({ options } : Machine).read {} opening.flatten).machine.unfinished = .nothing := by
    rw [← told.machine]
    exact unfinished_of_lexeme_eq h.between
  have kept : _ = options := Machine.options_read accepted
  obtain ⟨x, inside, goesOn⟩ := Machine.readUpTo_head resting h.head taken
  rw [h.same, Machine.readUpTo_append accepted, goesOn, Machine.position_read accepted] at read
  obtain ⟨result, munched⟩ := Lexicon.exists_munched inside rest
  obtain ⟨answer, answers⟩ := munched.exists_answers options
  refine ⟨result, answer, fun other => ⟨fun h => h.unique munched, fun h => h ▸ munched⟩, answers, ?_⟩
  rw [← kept, ← Machine.options_valueStarted] at answers
  have seen := Outcome.showsAnswer_of_reading (inside.shows munched answers ended _) read
  rw [← Reading.reports_of_accepted accepted, ← told.reports] at seen
  exact seen

/-- A literal that is a whole document comes back as it stands. -/
theorem collect_literal (encoding : Encoding) {chunks : List Bytes}
    (literal : Number.isLiteral chunks.flatten = true) :
    ∃ text, Utf8.bytes text = chunks.flatten ∧
      ({ options := { integers := false, numbers := .text, encoding } } : Reader).collect chunks =
        .ok [.number (.text text), .done] := by
  have number := Number.isLiteral_iff.1 literal
  obtain ⟨text, same⟩ := number.exists_text
  refine ⟨text, same, collect_eq_ok_iff_document.2 ⟨.number (.other (.text text)), ?_, rfl⟩⟩
  refine ⟨[], chunks.flatten, [], by simp, blank_nil, .number ?_, blank_nil⟩
  exact ⟨number, text, same, rfl⟩

/-- **Numbers and keywords are recognised exactly.** Wherever one begins, its longest start in the
input decides what comes of it (`Lexicon.Ends`), and this is what is answered, however the input is
cut: a word that may end there is converted, all of it and nothing else; otherwise the byte after
the start is refused, or the end of input. The literals are those of the check that writers make. On
them the walk that takes components finds no fault, so that components are only ever refused for
their range. Conversely a byte string that passes the check, as a document of its own, is reported
as it stands. -/
theorem lexing_exact (options : ReaderOptions) :
    (∀ lexicon opening chunks byte rest, Begins options lexicon opening chunks byte rest →
      ∀ ended : Bool,
        let before := ({ options } : Reader).run opening
        let after := ({ options } : Reader).run (chunks ++ if ended then [[]] else [])
        ∃ result answer, (∀ other, lexicon.Munched (byte :: rest) other ↔ other = result) ∧
          result.Answers options lexicon answer ∧
          (outcome (after.1.flatten, after.2)).ShowsAnswer (Call.reports before.1.flatten) ended
            (Position.after {} opening.flatten) (byte :: rest) result.taken answer) ∧
    (∀ w, (NumberText w ↔ Number.isLiteral w = true) ∧
      (Number.isLiteral w = true → Number.Components.walk w ≠ .error .malformed) ∧
      Number.Components.ofBytes w =
        if Number.isLiteral w then Number.Components.walk w else .error .malformed) ∧
    ∀ encoding chunks, Number.isLiteral chunks.flatten = true →
      ∃ text, Utf8.bytes text = chunks.flatten ∧
        ({ options := { integers := false, numbers := .text, encoding } } : Reader).collect chunks =
          .ok [.number (.text text), .done] := by
  refine ⟨?_, fun w => ⟨Number.isLiteral_iff.symm, ?_, ?_⟩, ?_⟩
  · intro lexicon opening chunks byte rest begins ended
    exact run_word begins ended
  · exact Number.Components.walk_ne_malformed
  · exact Number.Components.ofBytes_eq_walk w
  · intro encoding chunks literal
    exact collect_literal encoding literal

/-- In an array `-1.` is cut inside and followed by a letter. The number `-0.5E+7` is a document of
its own. -/
theorem lexing_exact_runs :
    ((outcome ((({} : Reader).run [[0x5b, 0x2d], [0x31, 0x2e, 0x78]]).1.flatten,
        (({} : Reader).run [[0x5b, 0x2d], [0x31, 0x2e, 0x78]]).2)).ShowsAnswer
      [(.ok .beginArray, { column := 2 })] false { column := 2 } [0x2d, 0x31, 0x2e, 0x78]
      [0x2d, 0x31, 0x2e] (.error .expectedDigit)) ∧
    Number.Components.walk (Utf8.bytes "-0.5E+7") ≠ .error .malformed ∧
    ∃ text, Utf8.bytes text = Utf8.bytes "-0.5E+7" ∧
      ({ options := { numbers := .text } } : Reader).collect [Utf8.bytes "-0.5E+7"] =
        .ok [.number (.text text), .done] := by
  obtain ⟨runs, literals, collects⟩ := lexing_exact {}
  have literal : Number.isLiteral (Utf8.bytes "-0.5E+7") = true := by decide
  refine ⟨?_, (literals _).2.1 literal, collects .utf8 [Utf8.bytes "-0.5E+7"] literal⟩
  obtain ⟨result, answer, only, answers, shows⟩ :=
    runs .number [[0x5b]] [[0x5b, 0x2d], [0x31, 0x2e, 0x78]] 0x2d [0x31, 0x2e, 0x78]
      ⟨by decide, by decide, by decide +kernel, .inl rfl, by decide +kernel, rfl⟩ false
  -- The automaton has come to the point, which no letter goes on with.
  have spelled : Number.Phase.point.Spelled [0x2d, 0x31, 0x2e] :=
    ⟨0x2d, [0x31, 0x2e], .sign, rfl, rfl, rfl⟩
  have munch : Munch NumberText ([0x2d, 0x31, 0x2e] ++ [0x78]) [0x2d, 0x31, 0x2e] [0x78] := by
    refine munch_of_stops spelled.starts fun byte next => ?_
    cases next
    intro starts
    obtain ⟨phase, step⟩ := spelled.exists_next starts
    contradiction
  have other : ¬NumberText [0x2d, 0x31, 0x2e] := by
    rw [← Number.isLiteral_iff]
    decide
  cases (only (.refused .expectedDigit [0x2d, 0x31, 0x2e])).1 ⟨_, _, munch, .missing other⟩
  cases answers
  have told : Call.reports (({} : Reader).run [[0x5b]]).1.flatten =
      [(.ok .beginArray, { column := 2 })] := by decide +kernel
  rw [told] at shows
  exact shows

end Reader

end JsonStream
