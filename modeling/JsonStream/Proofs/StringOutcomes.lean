import JsonStream.Proofs.ViablePrefix

/-!
# What follows an opening quote

Wherever a quote opens a string, the bytes after it decide alone what comes of the string: its text,
or an error at the first flaw. Which of them it is, and at which byte, is said by the grammar
(`Lexed`), and how the bytes are cut into chunks makes no difference.

* `Lexed.unique`: there is one outcome only.
* `Machine.readUpTo_closed`, `Machine.readUpTo_flawed`: what a machine makes of each outcome.
* `Reader.run_string`: readers, whatever the chunks.
-/

namespace JsonStream

namespace Machine

/-! ### Reading with or without the end of input -/

/-- Reads a run of bytes, and then the end of input if that is signalled. -/
def readUpTo (m : Machine) (ended : Bool) (p : Position) (input : Bytes) : Reading :=
  (m.read p input).andThen fun m p => if ended then m.finish p else { machine := m, position := p }

section
variable {m next : Machine} {ended : Bool} {p : Position} {bytes rest : Bytes}

theorem Absorbs.readUpTo_eq (h : m.Absorbs bytes next) :
    m.readUpTo ended p (bytes ++ rest) = next.readUpTo ended (p.after bytes) rest := by
  rw [readUpTo, h.read_eq, readUpTo]

theorem readUpTo_append (accepted : (m.read p bytes).failure = none) :
    m.readUpTo ended p (bytes ++ rest) =
      { (m.read p bytes).machine.readUpTo ended (m.read p bytes).position rest with
        tokens := (m.read p bytes).tokens ++
          ((m.read p bytes).machine.readUpTo ended (m.read p bytes).position rest).tokens } := by
  rw [readUpTo, read_append, Reading.andThen_andThen, Reading.andThen_eq accepted]
  rfl

/-! ### Closed strings and flaws -/

/-- A string that is closed is reported right after its closing quote. -/
theorem readUpTo_closed {chars : List Char} {body : Bytes}
    (spelled : BodyText m.options.dialect chars body) :
    (m.inText []).readUpTo ended p (body ++ Byte.quote :: rest) =
      (m.endScalar.readUpTo ended (p.after (body ++ [Byte.quote])) rest).report
        (m.stringToken (String.ofList chars)) (p.after (body ++ [Byte.quote])) := by
  rw [(body_absorbs spelled []).readUpTo_eq, List.nil_append, readUpTo,
    read_emit (m.step_quote chars), Reading.report_andThen, p.after_append]
  rfl

/-- A flaw is refused at the byte where it shows, and one of the end of input once that is
signalled. -/
theorem readUpTo_flawed {chars : List Char} {body start : Bytes} {code : ErrorCode}
    (spelled : BodyText m.options.dialect chars body)
    (flaw : Flaw m.options.dialect start rest code) (ended : Bool) (p : Position) :
    ∃ near, (m.inText []).readUpTo ended p (body ++ (start ++ rest)) =
      if code = .unexpectedEnd ∧ ended = false then
        { machine := near, position := p.after (body ++ start) }
      else near.refuse (p.after (body ++ start)) code := by
  obtain ⟨near, absorbs, refused⟩ := flaw_refused flaw ([] ++ Utf8.encode chars)
  refine ⟨near, ?_⟩
  rw [← List.append_assoc, ((body_absorbs spelled []).append absorbs).readUpTo_eq, readUpTo]
  cases rest with
  | nil =>
    obtain ⟨rfl, finish⟩ := refused
    rw [read_nil, Reading.andThen_eq rfl]
    cases ended with
    | false => rfl
    | true => exact finish _
  | cons byte rest =>
    have early : ¬(code = .unexpectedEnd ∧ ended = false) := fun hidden =>
      List.cons_ne_nil _ _ (flaw.code_eq_iff.1 hidden.1)
    rw [if_neg early, read_fail refused]
    rfl

/-! ### Opening quotes -/

theorem takesKey_valueStarted (m : Machine) : m.valueStarted.takesKey = m.takesKey := by
  rw [valueStarted]
  obtain ⟨options, frames, root, unfinished⟩ := m
  cases frames with
  | nil => rfl
  | cons frame outer =>
    cases frame with
    | array slot => cases slot <;> rfl
    | object slot => cases slot <;> rfl

/-- Between tokens a quote opens a string, or it is refused. -/
theorem step_opening (between : m.unfinished = .nothing) :
    m.step Byte.quote = .advance (m.valueStarted.inText []) ∨
      ∃ code, m.step Byte.quote = .fail code := by
  obtain ⟨options, frames, root, unfinished⟩ := m
  cases between
  cases frames with
  | nil =>
    cases root with
    | value => exact .inl rfl
    | afterValue => exact .inr ⟨_, rfl⟩
    | done => exact .inr ⟨_, rfl⟩
  | cons frame outer =>
    cases frame with
    | array slot =>
      cases slot with
      | first => exact .inl rfl
      | value => exact .inl rfl
      | separator => exact .inr ⟨_, rfl⟩
    | object slot =>
      cases slot with
      | first => exact .inl rfl
      | key => exact .inl rfl
      | colon => exact .inr ⟨_, rfl⟩
      | value => exact .inl rfl
      | separator => exact .inr ⟨_, rfl⟩

theorem readUpTo_opening (between : m.unfinished = .nothing)
    (opens : (m.read p [Byte.quote]).failure = none) :
    m.readUpTo ended p (Byte.quote :: rest) =
      (m.valueStarted.inText []).readUpTo ended (p.advance Byte.quote) rest := by
  rcases step_opening between with advance | ⟨code, refused⟩
  · rw [readUpTo, read_advance advance, readUpTo]
  · rw [read_fail refused] at opens
    contradiction

end

/-! ### Outcomes -/

/-- What reading on from an opening quote shows of the outcome of the string, `p` being the place
after the quote. An end of input that is not signalled does not show. -/
def Shows (m : Machine) (ended : Bool) (p : Position) (x : Reading) : StringOutcome → Prop
  | .text text taken => x.tokens.head? = some (m.stringToken text, p.after taken)
  | .refused code taken =>
    x.tokens = [] ∧ x.position = p.after taken ∧
      x.failure = if code = .unexpectedEnd ∧ ended = false then none else some code

theorem shows_of_lexed {m : Machine} {input : Bytes} {result : StringOutcome}
    (lexed : Lexed m.options.dialect input result) (ended : Bool) (p : Position) :
    m.Shows ended p ((m.inText []).readUpTo ended p input) result := by
  cases lexed with
  | closed spelled =>
    rw [readUpTo_closed spelled]
    rfl
  | @flawed chars body start rest code spelled flaw =>
    obtain ⟨near, read⟩ := readUpTo_flawed spelled flaw ended p
    rw [read, Shows]
    by_cases hidden : code = .unexpectedEnd ∧ ended = false
    · rw [if_pos hidden, if_pos hidden]
      exact ⟨rfl, rfl, rfl⟩
    · rw [if_neg hidden, if_neg hidden]
      exact ⟨rfl, rfl, rfl⟩

end Machine

/-! ### There is only one outcome -/

namespace Lexed

variable {options : ReaderOptions} {input : Bytes} {first second : StringOutcome}

theorem taken_eq {d : Dialect} (h : Lexed d input first) (h' : Lexed d input second)
    {p : Position} (same : p.after first.taken = p.after second.taken) :
    first.taken = second.taken := by
  obtain ⟨rest, rfl⟩ := h.exists_rest
  obtain ⟨rest', whole⟩ := h'.exists_rest
  have front : (first.taken ++ rest).take second.taken.length = second.taken := by
    rw [whole, List.take_left]
  have within : first.taken.length ≤ (first.taken ++ rest).length := by
    rw [List.length_append]
    exact Nat.le_add_right _ _
  have within' : second.taken.length ≤ (first.taken ++ rest).length := by
    rw [whole, List.length_append]
    exact Nat.le_add_right _ _
  have place := p.after_take_inj within within'
  rw [front, List.take_left] at place
  rw [← front, ← place.1 same, List.take_left]

/-- **Bytes after an opening quote come to one outcome only.** -/
theorem unique (h : Lexed options.dialect input first) (h' : Lexed options.dialect input second) :
    first = second := by
  -- A machine reads the bytes in one way, and its reading tells the outcome.
  have shows := Machine.shows_of_lexed (m := { options }) h true {}
  have shows' := Machine.shows_of_lexed (m := { options }) h' true {}
  have same := h.taken_eq h' (p := {})
  cases first with
  | text text taken =>
    cases second with
    | text text' taken' =>
      obtain ⟨token, place⟩ := Prod.mk.inj (Option.some.inj (shows.symm.trans shows'))
      cases Machine.stringToken_inj token
      cases same place
      rfl
    | refused code taken' =>
      rw [Machine.Shows, shows'.1] at shows
      contradiction
  | refused code taken =>
    cases second with
    | text text' taken' =>
      rw [Machine.Shows, shows.1] at shows'
      contradiction
    | refused code' taken' =>
      have shown : ∀ code : ErrorCode, ¬(code = .unexpectedEnd ∧ true = false) := fun _ => nofun
      have codes := shows.2.2.symm.trans shows'.2.2
      rw [if_neg (shown _), if_neg (shown _)] at codes
      cases codes
      cases same (shows.2.1.symm.trans shows'.2.1)
      rfl

end Lexed

/-! ### Readers -/

/-- What a caller sees of a string that comes to the given outcome. In front of it `told` has been
reported; `start` is the place after the opening quote. An end of input that is not signalled does
not show. -/
inductive StringOutcome.Seen (told : List (Except ParseError Token × Position)) (key : Bool)
    (start : Position) (ended : Bool) (x : Outcome) : StringOutcome → Prop where
  | text {text : String} {taken : Bytes} {later : List (Except ParseError Token × Position)}
      (reports : x.reports =
        told ++ (.ok (if key then .key text else .string text), start.after taken) :: later) :
      Seen told key start ended x (.text text taken)
  | refused {code : ErrorCode} {taken : Bytes} (shows : code = .unexpectedEnd → ended = true)
      (reports : x.reports =
        told ++ [(.error ⟨code, start.after taken⟩, start.after taken)])
      (failure : x.failure = some ⟨code, start.after taken⟩) :
      Seen told key start ended x (.refused code taken)
  | unended {taken : Bytes} (hidden : ended = false) (reports : x.reports = told)
      (failure : x.failure = none) : Seen told key start ended x (.refused .unexpectedEnd taken)

/-- What a reading shows of a string, it shows to the caller. -/
theorem StringOutcome.seen_of_shows {m : Machine} {ended : Bool} {p : Position} {x : Reading}
    {result : StringOutcome} {tokens : List (Token × Position)} {polled : List Call × Reader}
    (shows : m.Shows ended p x result)
    (tells : ({ x with tokens := tokens ++ x.tokens } : Reading).Tells polled) :
    result.Seen (tokens.map fun reported => (.ok reported.1, reported.2)) m.takesKey p ended
      (outcome polled) := by
  have reports := tells.reports
  rw [Reading.reports, List.map_append, List.append_assoc] at reports
  cases result with
  | text text taken =>
    obtain ⟨later, same⟩ := List.head?_eq_some_iff.1 shows
    rw [same] at reports
    exact .text reports
  | refused code taken =>
    obtain ⟨none, position, failure⟩ := shows
    have failed := tells.failure
    rw [failure, position] at failed
    rw [none, failure, position] at reports
    by_cases hidden : code = .unexpectedEnd ∧ ended = false
    · rw [if_pos hidden] at failed reports
      obtain ⟨rfl, hidden⟩ := hidden
      exact .unended hidden (reports.trans (List.append_nil _)) failed
    · rw [if_neg hidden] at failed reports
      have shows : code = .unexpectedEnd → ended = true := fun same =>
        eq_true_of_ne_false fun hides => hidden ⟨same, hides⟩
      exact .refused shows reports failed

namespace Reader

/-- Chunks are read like their bytes, and the end of input after them if it is signalled. -/
theorem tells_run_upTo (options : ReaderOptions) (ended : Bool) {chunks : List Bytes}
    (bytes : ∀ chunk ∈ chunks, chunk ≠ []) :
    (({ options } : Machine).readUpTo ended {} chunks.flatten).Tells
      ((({ options } : Reader).run (chunks ++ if ended then [[]] else [])).1.flatten,
        (({ options } : Reader).run (chunks ++ if ended then [[]] else [])).2) := by
  cases ended with
  | true => exact tells_run_end options bytes
  | false =>
    have read : ({ options } : Machine).readUpTo false {} chunks.flatten =
        ({ options } : Machine).read {} chunks.flatten := Reading.andThen_stop _
    rw [read, if_neg Bool.false_ne_true, List.append_nil]
    exact tells_run options bytes

/-- **What follows an opening quote.** Chunks are read up to a place between tokens where a quote
opens a string. Whatever bytes follow the quote, they come to one outcome by the grammar, and in
whichever way they are cut into chunks, together with the bytes before them, this is what is seen.
If every character is well formed up to a quote, the decoded text is reported right after that
quote, as a key or as a string. Otherwise the first flaw is reported at the byte that is wrong, and
reading fails; if it is the end of input, then once that is signalled. -/
theorem run_string (options : ReaderOptions) {opening chunks : List Bytes} {input : Bytes}
    (opening_bytes : ∀ chunk ∈ opening, chunk ≠ []) (bytes : ∀ chunk ∈ chunks, chunk ≠ [])
    (between : (({ options } : Reader).run opening).2.lexeme = .none)
    (opens : (({ options } : Reader).run (opening ++ [[Byte.quote]])).2.failure = none)
    (same : chunks.flatten = opening.flatten ++ Byte.quote :: input) (ended : Bool) :
    let before := ({ options } : Reader).run opening
    let after := ({ options } : Reader).run (chunks ++ if ended then [[]] else [])
    ∃ result, (∀ other, Lexed options.dialect input other ↔ other = result) ∧
      result.Seen (Call.reports before.1.flatten) before.2.takesKey
        (Position.after {} (opening.flatten ++ [Byte.quote])) ended
        (outcome (after.1.flatten, after.2)) := by
  intro before after
  obtain ⟨result, lexed⟩ := options.exists_lexed input
  refine ⟨result, fun other => ⟨fun h => h.unique lexed, fun h => h ▸ lexed⟩, ?_⟩
  have told := tells_run options opening_bytes
  have read := tells_run_upTo options ended bytes
  -- The bytes are those before the quote, the quote and then those of the string.
  have nonempty : ∀ chunk ∈ opening ++ [[Byte.quote]], chunk ≠ [] :=
    List.forall_mem_append.2 ⟨opening_bytes, by simp⟩
  have quoted := tells_run options nonempty
  rw [List.flatten_append, List.flatten_singleton, Machine.read_append] at quoted
  obtain ⟨accepted, opens⟩ := Reading.accepted_andThen (quoted.accepted opens)
  have resting : (({ options } : Machine).read {} opening.flatten).machine.unfinished = .nothing := by
    rw [← told.machine]
    show before.2.lexeme.unfinished _ = _
    rw [between]
    rfl
  rw [same, Machine.readUpTo_append accepted, Machine.readUpTo_opening resting opens,
    Machine.position_read accepted] at read
  have kept : _ = options := Machine.options_read accepted
  rw [← kept, ← Machine.options_valueStarted] at lexed
  have seen := StringOutcome.seen_of_shows (Machine.shows_of_lexed lexed ended _) read
  rw [Machine.takesKey_valueStarted, ← told.machine, machine_takesKey,
    ← Reading.reports_of_accepted accepted, ← told.reports] at seen
  rw [Position.after_append]
  exact seen

/-- A key with the escape of a low surrogate that has no high one before it, cut inside its
digits. -/
theorem run_string_lone_low :
    StringOutcome.Seen [(.ok .beginObject, { column := 2 })] true { column := 3 } false
      (outcome ((({} : Reader).run
          [[0x7b, 0x22, 0x61, 0x5c, 0x75, 0x64, 0x63], [0x30, 0x30, 0x22, 0x3a]]).1.flatten,
        (({} : Reader).run
          [[0x7b, 0x22, 0x61, 0x5c, 0x75, 0x64, 0x63], [0x30, 0x30, 0x22, 0x3a]]).2))
      (.refused .numericRange [0x61, 0x5c, 0x75, 0x64, 0x63, 0x30]) := by
  obtain ⟨result, only, seen⟩ := @run_string {} [[0x7b]]
    [[0x7b, 0x22, 0x61, 0x5c, 0x75, 0x64, 0x63], [0x30, 0x30, 0x22, 0x3a]]
    [0x61, 0x5c, 0x75, 0x64, 0x63, 0x30, 0x30, 0x22, 0x3a] (by decide) (by decide)
    (by decide +kernel) (by decide +kernel) rfl false
  have named : UnitText ([0x64, 0x63, 0x30] ++ [0x30]) 0xdc00 :=
    ⟨0x64, 0x63, 0x30, 0x30, 13, 12, 0, 0, rfl, ⟨digit?_eq_some_iff.1 rfl,
      digit?_eq_some_iff.1 rfl, digit?_eq_some_iff.1 rfl, digit?_eq_some_iff.1 rfl⟩, rfl⟩
  have flaw : Flaw ({} : ReaderOptions).dialect _ [0x30, 0x22, 0x3a] .numericRange :=
    .unit .alone named (iff_of_true (by decide) rfl)
  have spelled : BodyText ({} : ReaderOptions).dialect ['a'] ([0x61] ++ []) :=
    .cons (.raw (ReaderOptions.rawText_ascii {} rfl (by decide)) (by decide) (by decide)
      (by decide)) .nil
  cases (only _).1 (.flawed spelled flaw)
  have told : Call.reports (({} : Reader).run [[0x7b]]).1.flatten =
      [(.ok .beginObject, { column := 2 })] := by decide +kernel
  have key : (({} : Reader).run [[0x7b]]).2.takesKey = true := by decide +kernel
  rw [told, key] at seen
  exact seen

end Reader

end JsonStream
