import JsonStream.Proofs.Machine.Read
import JsonStream.Proofs.Machine.View
import JsonStream.Reader.Run

/-!
# Calls on a chunk

The calls of `Feed.next` on one chunk are the reading of its bytes by the machine of the reader,
token by token.

* `Reader.scan_yields`: one call takes the first token off the reading that is left.
* `Feed.calls_shows`: all calls up to the last one report the whole reading, and the reader they
  leave behind is where the reading ends.
-/

namespace JsonStream

/-! ### Before the end of the document -/

theorem Token.isOngoing_of_ofLiteral {options : ReaderOptions} {fractional : Bool}
    {literal : String} {token : Token} (h : ofLiteral options fractional literal = .ok token) :
    token.isOngoing = true := by
  unfold ofLiteral at h
  dsimp only at h
  repeat' split at h
  all_goals first
    | contradiction
    | (injection h with h; subst h; rfl)

theorem Token.isOngoing_ofKeyword (word : Keyword) : (ofKeyword word).isOngoing = true := by
  cases word <;> rfl

/-- What is reported is not the end of the document, and more can be read. -/
def Step.GoesOn : Step Machine → Prop
  | .advance next => next.root ≠ .done
  | .emit token next | .emitBefore token next => token.isOngoing = true ∧ next.root ≠ .done
  | .fail _ => True

namespace Machine

theorem root_valueStarted (m : Machine) : m.valueStarted.root = m.root := by
  unfold valueStarted; split <;> rfl

theorem root_valueCompleted {m : Machine} (h : m.root ≠ .done) : m.valueCompleted.root ≠ .done := by
  rw [valueCompleted]
  split
  · exact nofun
  · exact h

theorem root_begin {m : Machine} (h : m.root ≠ .done) (unfinished : Unfinished) :
    (m.begin unfinished).root ≠ .done := by
  show m.valueStarted.root ≠ .done
  rw [root_valueStarted]
  exact h

theorem root_openContainer {m : Machine} (h : m.root ≠ .done) (frame : Frame) :
    (m.openContainer frame).root ≠ .done := by
  show m.valueStarted.root ≠ .done
  rw [root_valueStarted]
  exact h

theorem root_closeContainer {m : Machine} (h : m.root ≠ .done) (outer : List Frame) :
    (m.closeContainer outer).root ≠ .done :=
  root_valueCompleted h

theorem root_endScalar {m : Machine} (h : m.root ≠ .done) : m.endScalar.root ≠ .done :=
  root_valueCompleted h

theorem stepValue_goesOn {m : Machine} (h : m.root ≠ .done) (byte : UInt8) :
    (m.stepValue byte).GoesOn := by
  rw [stepValue]
  repeat' split
  all_goals first
    | exact ⟨rfl, root_openContainer h _⟩
    | exact root_begin h _
    | trivial

theorem stepStructure_goesOn {m : Machine} (h : m.root ≠ .done) (byte : UInt8) :
    (m.stepStructure byte).GoesOn := by
  simp only [stepStructure, stepArray, stepObject]
  repeat' split
  all_goals first
    | exact stepValue_goesOn h byte
    | exact ⟨rfl, root_closeContainer h _⟩
    | exact root_begin h _
    | exact h
    | trivial

theorem stepText_goesOn {m : Machine} (h : m.root ≠ .done) (utf8 : Utf8.State) (content : Bytes)
    (byte : UInt8) : (m.stepText utf8 content byte).GoesOn := by
  rw [stepText, stepUtf8]
  split_ifs
  · split
    · exact h
    · trivial
  · rw [endString]
    cases Utf8.text? content with
    | none => trivial
    | some text =>
      refine ⟨?_, root_endScalar h⟩
      split <;> rfl
  · exact h
  · trivial
  · exact h
  · repeat' split
    all_goals first
      | exact h
      | trivial

theorem stepEscape_goesOn {m : Machine} (h : m.root ≠ .done) (state : EscapeState)
    (content : Bytes) (byte : UInt8) : (m.stepEscape state content byte).GoesOn := by
  simp only [stepEscape, pushEscaped]
  repeat' split
  all_goals first
    | exact h
    | trivial

/-- No step reports or reaches the end of the document: only the end of input does. -/
theorem step_goesOn {m : Machine} (h : m.root ≠ .done) (byte : UInt8) : (m.step byte).GoesOn := by
  rw [step]
  cases m.unfinished with
  | nothing => exact stepStructure_goesOn h byte
  | keyword word missing =>
    dsimp only
    simp only [stepKeyword]
    repeat' split
    all_goals first
      | exact ⟨Token.isOngoing_ofKeyword word, root_endScalar h⟩
      | exact h
      | trivial
  | number phase fractional literal =>
    dsimp only
    rw [stepNumber]
    split
    · exact h
    · split_ifs
      · trivial
      · cases ended : m.endNumber fractional literal with
        | error code => trivial
        | ok done =>
          obtain ⟨token, next⟩ := done
          obtain ⟨rfl, text, -, read⟩ := endNumber_eq_ok ended
          exact ⟨Token.isOngoing_of_ofLiteral read, root_endScalar h⟩
      · trivial
  | text utf8 content => exact stepText_goesOn h utf8 content byte
  | escape state content => exact stepEscape_goesOn h state content byte

end Machine

/-! ### One call -/

namespace Reader

/-- The reader can go on with `unread`: it has neither failed nor reported the end. -/
structure Live (r : Reader) (unread : Bytes) : Prop where
  aligned : r.Aligned unread
  failure : r.failure = none
  root : r.root ≠ .done

/-- The reader can go on with `unread` from where `r` is. -/
structure Continues (next r : Reader) (unread : Bytes) : Prop where
  live : next.Live unread
  position : next.position = r.position
  closed : next.closed = r.closed

theorem Follows.continues {next r : Reader} {rest : Bytes} (follows : next.Follows r rest)
    (failure : r.failure = none) (root : next.root ≠ .done) : next.Continues r rest := by
  have place : next.position = r.position ∧ next.closed = r.closed ∧ next.unread = r.unread ∧
      next.failure = r.failure := by
    simpa only [Reader.place, Prod.mk.injEq] using follows.place
  exact ⟨⟨follows.aligned, place.2.2.2.trans failure, root⟩, place.1, place.2.1⟩

theorem Live.step_all {r : Reader} {byte : UInt8} {rest : Bytes} (h : r.Live (byte :: rest)) :
    (r.step byte rest).All (·.Continues r rest) := by
  have follows := Reader.step_all h.aligned
  have goesOn := Machine.step_goesOn (m := r.machine) h.root byte
  rw [← machine_step h.aligned] at goesOn
  cases step : r.step byte rest with
  | advance next =>
    rw [step] at follows goesOn
    exact Follows.continues follows h.failure goesOn
  | emit token next =>
    rw [step] at follows goesOn
    exact Follows.continues follows h.failure goesOn.2
  | emitBefore token next =>
    rw [step] at follows goesOn
    exact Follows.continues follows h.failure goesOn.2
  | fail code => trivial

theorem aligned_of_unfinished {r : Reader} (h : r.machine.unfinished = .nothing)
    (unread : Bytes) : r.Aligned unread := by
  have nothing : r.lexeme.unfinished r.carried = .nothing := h
  cases lexeme : r.lexeme with
  | none => exact aligned_of_lexeme_eq_none lexeme unread
  | _ => rw [lexeme] at nothing; contradiction

/-- What is left to read for a reader that `input` is attached to. -/
def reading (r : Reader) (input : Bytes) : Reading :=
  if r.closed then r.machine.readAll r.position input else r.machine.read r.position input

/-- The scalar in progress lies in no chunk: all of its bytes are carried. -/
def Resumed (r : Reader) : Prop :=
  match r.lexeme with
  | .number _ _ segment | .text _ segment => segment = .resume []
  | .none | .keyword .. | .escape _ => True

end Reader

/-- A call takes the first token off a reading, or it is at the end of it. The end of the document
belongs to closed input, the request for more to input that is not closed. -/
inductive Reading.Yields (closed : Bool) : Reading → Call → Prop where
  | token {token : Token} {f : Feed} (ongoing : token.isOngoing = true)
      (live : f.reader.Live f.rest) (same : f.reader.closed = closed) :
      Yields closed ((f.reader.reading f.rest).report token f.position) (.ok token, f)
  | needMore {r : Reader} (live : r.Live []) (resumed : r.Resumed) (opened : closed = false)
      (same : r.closed = closed) :
      Yields closed { machine := r.machine, position := r.position } (.ok .needMore, ⟨r, []⟩)
  | done {r : Reader} (failure : r.failure = none) (ended : closed = true) :
      Yields closed { tokens := [(.done, r.position)], machine := r.machine, position := r.position }
        (.ok .done, ⟨r, []⟩)
  | failed {f : Feed} {code : ErrorCode} (failure : f.reader.failure = some ⟨code, f.position⟩) :
      Yields closed { machine := f.reader.machine, position := f.position, failure := some code }
        (.error ⟨code, f.position⟩, f)

namespace Reader

theorem machine_suspend (r : Reader) : r.suspend.machine = r.machine := by
  rw [suspend]
  cases lexeme : r.lexeme with
  | number phase fractional segment =>
    show Machine.mk .. = Machine.mk ..
    rw [lexeme]
    simp only [Lexeme.unfinished, Segment.raw_resume, List.append_nil, ← carried_spill]
    rfl
  | text utf8 segment =>
    show Machine.mk .. = Machine.mk ..
    rw [lexeme]
    simp only [Lexeme.unfinished, Segment.raw_resume, List.append_nil, ← carried_spill]
    rfl
  | _ => rfl

theorem place_suspend (r : Reader) : r.suspend.place = r.place := by
  rw [suspend]
  split <;> rfl

theorem resumed_suspend (r : Reader) : r.suspend.Resumed := by
  cases lexeme : r.lexeme <;> simp [Resumed, suspend, lexeme]

theorem live_suspend {r : Reader} (h : r.Live []) : r.suspend.Live [] := by
  refine ⟨?_, ?_, ?_⟩
  · have resumed := r.resumed_suspend
    rw [Resumed] at resumed
    rw [Aligned]
    cases lexeme : r.suspend.lexeme with
    | number phase fractional segment =>
      rw [lexeme] at resumed
      exact resumed ▸ Segment.aligned_resume _ []
    | text utf8 segment =>
      rw [lexeme] at resumed
      exact resumed ▸ Segment.aligned_resume _ []
    | _ => trivial
  · exact (congrArg (fun place => place.2.2.2) r.place_suspend).trans h.failure
  · have root : r.suspend.machine.root = r.machine.root := by rw [machine_suspend]
    exact fun done => h.root (root.symm.trans done)

theorem failed_yields (r : Reader) (closed : Bool) (code : ErrorCode) (rest : Bytes) :
    (r.machine.refuse r.position code).Yields closed
      ((r.failWith code).1, ⟨(r.failWith code).2, rest⟩) :=
  Reading.Yields.failed (f := ⟨(r.failWith code).2, rest⟩) rfl

theorem atEnd_of_lexeme_eq_none {r : Reader} (h : r.lexeme = .none) :
    r.atEnd = if r.frames = [] ∧ r.root = .afterValue then .ok (.done, { r with root := .done })
      else .error .unexpectedEnd := by
  obtain ⟨_, _, _, _, _, _, _, _, _⟩ := r
  cases h
  rfl

/-- Only a scalar and the document are completed by the end of input. -/
theorem atEnd_eq_ok {r next : Reader} {token : Token} (h : r.atEnd = .ok (token, next)) :
    (token = .done ∧ r.lexeme = .none ∧ r.frames = [] ∧ r.root = .afterValue ∧
        next = { r with root := .done }) ∨
      r.machine.unfinished ≠ .nothing ∧ token.isOngoing = true ∧ next = r.endScalar := by
  have unfinished : r.machine.unfinished = r.lexeme.unfinished r.carried := rfl
  rw [unfinished]
  rw [atEnd] at h
  cases lexeme : r.lexeme with
  | none =>
    rw [lexeme] at h
    dsimp only at h
    split_ifs at h with complete
    cases h
    exact .inl ⟨rfl, rfl, complete.1, complete.2, rfl⟩
  | keyword word missing =>
    rw [lexeme] at h
    cases missing with
    | nil =>
      cases h
      exact .inr ⟨fun same => by contradiction, Token.isOngoing_ofKeyword word, rfl⟩
    | cons => contradiction
  | number phase fractional segment =>
    rw [lexeme] at h
    dsimp only at h
    split_ifs at h
    obtain ⟨rfl, text, -, read⟩ := endNumber_eq_ok h
    exact .inr ⟨fun same => by contradiction, Token.isOngoing_of_ofLiteral read, rfl⟩
  | text =>
    rw [lexeme] at h
    contradiction
  | escape =>
    rw [lexeme] at h
    contradiction

theorem documentEnd_yields {r : Reader} (h : r.Live []) (closed : r.closed = true)
    (lexeme : r.lexeme = .none) :
    (r.machine.documentEnd r.position).Yields r.closed (r.scan []) := by
  have frames : r.machine.frames = r.frames := rfl
  have root : r.machine.root = r.root := rfl
  rw [scan, Machine.documentEnd]
  rw [if_pos closed, atEnd_of_lexeme_eq_none lexeme, frames, root]
  by_cases complete : r.frames = [] ∧ r.root = .afterValue
  · rw [if_pos complete, if_pos complete]
    exact Reading.Yields.done (r := { r with root := .done }) h.failure closed
  · rw [if_neg complete, if_neg complete]
    exact r.failed_yields _ _ _

/-- A scalar that the end of input completes, and then the document. -/
theorem endOfScalar_yields {r next : Reader} {token : Token} (h : r.Live [])
    (closed : r.closed = true) (ongoing : token.isOngoing = true) (follows : next.Follows r [])
    (machine : next.machine = r.machine.endScalar) :
    ((next.machine.documentEnd r.position).report token r.position).Yields r.closed
      (.ok token, ⟨next, []⟩) := by
  have continues : next.Continues r [] := by
    refine Follows.continues follows h.failure ?_
    have root := Machine.root_endScalar (m := r.machine) h.root
    rw [← machine] at root
    exact root
  have nothing : next.machine.unfinished = .nothing := by
    rw [machine, Machine.unfinished_endScalar]
  have reading : next.reading [] = next.machine.documentEnd next.position := by
    rw [Reader.reading]
    rw [if_pos (continues.closed.trans closed), Machine.readAll_nil, Machine.finish, nothing]
  rw [← continues.position, ← reading]
  exact Reading.Yields.token (f := ⟨next, []⟩) ongoing continues.live continues.closed

theorem finish_yields {r : Reader} (h : r.Live []) (closed : r.closed = true) :
    (r.machine.finish r.position).Yields r.closed (r.scan []) := by
  have unfinished : r.machine.unfinished = r.lexeme.unfinished r.carried := rfl
  rw [Machine.finish]
  rw [unfinished]
  cases lexeme : r.lexeme with
  | none => exact documentEnd_yields h closed lexeme
  | keyword word missing =>
    rw [scan, atEnd]
    rw [if_pos closed, lexeme]
    cases missing with
    | nil =>
      have ended := endOfScalar_yields h closed
        (Token.isOngoing_ofKeyword word) (r.follows_endScalar []) r.machine_endScalar
      rw [machine_endScalar] at ended
      exact ended
    | cons byte missing => exact r.failed_yields _ _ _
  | number phase fractional segment =>
    have aligned : segment.Aligned r.carry [] := by
      have aligned := h.aligned
      rw [Aligned, lexeme] at aligned
      exact aligned
    have same := machine_endNumber aligned fractional
    rw [scan, atEnd]
    rw [if_pos closed, lexeme]
    dsimp only [Lexeme.unfinished]
    rw [← same]
    by_cases complete : phase.isComplete
    · rw [if_pos complete, if_pos complete]
      cases ended : r.endNumber fractional segment with
      | error code => exact r.failed_yields _ _ _
      | ok done =>
        obtain ⟨token, next⟩ := done
        rw [ended] at same
        obtain ⟨machine, text, -, read⟩ := Machine.endNumber_eq_ok same.symm
        exact endOfScalar_yields h closed (Token.isOngoing_of_ofLiteral read)
          (endNumber_follows ended []) machine
    · rw [if_neg complete, if_neg complete]
      exact r.failed_yields _ _ _
  | text utf8 segment =>
    rw [scan, atEnd]
    rw [if_pos closed, lexeme]
    exact r.failed_yields _ _ _
  | escape state =>
    rw [scan, atEnd]
    rw [if_pos closed, lexeme]
    exact r.failed_yields _ _ _

/-! ### One more byte -/

section
variable {r next : Reader} {byte : UInt8} {rest : Bytes} {token : Token}

theorem reading_advance (h : next.Continues r rest)
    (step : r.machine.step byte = .advance next.machine) :
    r.reading (byte :: rest) = (next.moveOver byte).reading rest := by
  rw [reading]
  rw [Machine.readAll_advance step, Machine.read_advance step, ← h.closed, ← h.position]
  rfl

theorem reading_emit (h : next.Continues r rest)
    (step : r.machine.step byte = .emit token next.machine) :
    r.reading (byte :: rest) =
      ((next.moveOver byte).reading rest).report token (next.moveOver byte).position := by
  rw [reading]
  rw [Machine.readAll_emit step, Machine.read_emit step, ← h.closed, ← h.position]
  show _ = Reading.report (if next.closed = true then _ else _) _ _
  split <;> rfl

theorem reading_emitBefore (h : next.Continues r rest)
    (step : r.machine.step byte = .emitBefore token next.machine) :
    r.reading (byte :: rest) = (next.reading (byte :: rest)).report token next.position := by
  simp only [reading]
  rw [Machine.readAll_emitBefore step, Machine.read_emitBefore step, ← h.closed, ← h.position]
  split <;> rfl

theorem reading_fail {code : ErrorCode} (step : r.machine.step byte = .fail code) :
    r.reading (byte :: rest) = r.machine.refuse r.position code := by
  rw [reading]
  rw [Machine.readAll_fail step, Machine.read_fail step, ite_self]

theorem Continues.live_moveOver (h : next.Continues r rest) : (next.moveOver byte).Live rest :=
  ⟨h.live.aligned, h.live.failure, h.live.root⟩

end

/-- **One call takes the first token off the reading that is left.** -/
theorem scan_yields {r : Reader} {input : Bytes} (h : r.Live input) :
    (r.reading input).Yields r.closed (r.scan input) := by
  induction input generalizing r with
  | nil =>
    rw [reading]
    cases closed : r.closed with
    | true =>
      rw [if_pos rfl, Machine.readAll_nil, ← closed]
      exact finish_yields h closed
    | false =>
      have position : r.suspend.position = r.position := congrArg Prod.fst r.place_suspend
      have same : r.suspend.closed = r.closed :=
        congrArg (fun place => place.2.1) r.place_suspend
      have more := Reading.Yields.needMore (live_suspend h) r.resumed_suspend rfl (same.trans closed)
      rw [machine_suspend, position] at more
      rw [if_neg Bool.false_ne_true, Machine.read_nil]
      rw [scan]
      rw [closed]
      exact more
  | cons byte rest ih =>
    have machine := machine_step h.aligned
    have all := h.step_all
    have goesOn := Machine.step_goesOn (m := r.machine) h.root byte
    rw [scan]
    cases step : r.step byte rest with
    | advance next =>
      rw [step] at machine all
      rw [reading_advance all machine.symm, ← all.closed]
      exact ih (r := next.moveOver byte) all.live_moveOver
    | emit token next =>
      rw [step] at machine all
      rw [← machine] at goesOn
      rw [reading_emit all machine.symm]
      exact Reading.Yields.token (f := ⟨next.moveOver byte, rest⟩) goesOn.1 all.live_moveOver
        all.closed
    | emitBefore token next =>
      rw [step] at machine all
      rw [← machine] at goesOn
      have aligned : next.Aligned (byte :: rest) :=
        aligned_of_unfinished (Machine.step_emitBefore machine.symm).2 _
      rw [reading_emitBefore all machine.symm]
      exact Reading.Yields.token (f := ⟨next, byte :: rest⟩) goesOn.1
        ⟨aligned, all.live.failure, all.live.root⟩ all.closed
    | fail code =>
      rw [step] at machine
      rw [reading_fail machine.symm]
      exact r.failed_yields _ _ _

end Reader

/-! ### All calls up to the last one -/

/-- The calls report a reading token by token, and the last one is at the end of it. -/
inductive Reading.Shows (closed : Bool) : Reading → List Call → Prop where
  | token {token : Token} {f : Feed} {x : Reading} {calls : List Call}
      (ongoing : token.isOngoing = true) (more : Shows closed x calls) :
      Shows closed (x.report token f.position) ((.ok token, f) :: calls)
  | needMore {r : Reader} (live : r.Live []) (resumed : r.Resumed) (opened : closed = false)
      (same : r.closed = closed) :
      Shows closed { machine := r.machine, position := r.position } [(.ok .needMore, ⟨r, []⟩)]
  | done {r : Reader} (failure : r.failure = none) (ended : closed = true) :
      Shows closed { tokens := [(.done, r.position)], machine := r.machine, position := r.position }
        [(.ok .done, ⟨r, []⟩)]
  | failed {f : Feed} {code : ErrorCode} (failure : f.reader.failure = some ⟨code, f.position⟩) :
      Shows closed { machine := f.reader.machine, position := f.position, failure := some code }
        [(.error ⟨code, f.position⟩, f)]

namespace Feed

/-- Before a failure and the end of the document, a call reads on. -/
theorem next_eq_scan {f : Feed} (h : f.reader.Live f.rest) : f.next = f.reader.scan f.rest := by
  rw [next]
  rw [h.failure]
  dsimp only
  cases root : f.reader.root with
  | done => exact absurd root h.root
  | value => rfl
  | afterValue => rfl

theorem next_yields {f : Feed} (h : f.reader.Live f.rest) :
    (f.reader.reading f.rest).Yields f.reader.closed f.next := by
  rw [next_eq_scan h]
  exact Reader.scan_yields h

theorem calls_of_ongoing {f g : Feed} {token : Token} (next : f.next = (.ok token, g))
    (ongoing : token.isOngoing = true) : f.calls = (.ok token, g) :: g.calls := by
  rw [calls]
  split <;> simp_all

theorem calls_of_last {f g : Feed} {token : Token} (next : f.next = (.ok token, g))
    (last : ¬token.isOngoing = true) : f.calls = [(.ok token, g)] := by
  rw [calls]
  split <;> simp_all

theorem calls_of_error {f g : Feed} {e : ParseError} (next : f.next = (.error e, g)) :
    f.calls = [(.error e, g)] := by
  rw [calls]
  split <;> simp_all

/-- **The calls on a chunk show the reading of the chunk.** -/
theorem calls_shows {f : Feed} (h : f.reader.Live f.rest) :
    (f.reader.reading f.rest).Shows f.reader.closed f.calls := by
  have yields := next_yields h
  generalize reading : f.reader.reading f.rest = x at yields
  induction f using calls.induct generalizing x with
  | case1 f token g next ongoing ih =>
    rw [calls_of_ongoing next ongoing]
    rw [next] at yields
    cases yields with
    | token _ live same =>
      rw [← same]
      exact .token ongoing (ih live _ rfl (next_yields live))
    | needMore => contradiction
    | done => contradiction
  | case2 f token g next last =>
    rw [calls_of_last next last]
    rw [next] at yields
    cases yields with
    | token ongoing => contradiction
    | needMore live resumed opened same => exact .needMore live resumed opened same
    | done failure ended => exact .done failure ended
  | case3 f e g next =>
    rw [calls_of_error next]
    rw [next] at yields
    cases yields with
    | failed failure => exact .failed failure

end Feed

/-- What a call reports, with the place right after it; a request for more input reports
nothing. -/
def Call.report : Call → Option (Except ParseError Token × Position)
  | (.ok .needMore, _) => none
  | (answer, feed) => some (answer, feed.position)

theorem Call.report_ok {token : Token} (h : token.isOngoing = true) (f : Feed) :
    Call.report (.ok token, f) = some (.ok token, f.position) := by
  cases token <;> first | rfl | contradiction

/-- The reports of some calls, in order. -/
def Call.reports (calls : List Call) : List (Except ParseError Token × Position) :=
  calls.filterMap Call.report

/-- Where a reading ends, its last call is. -/
structure Call.Ends (call : Call) (closed : Bool) (x : Reading) : Prop where
  machine : call.2.reader.machine = x.machine
  position : call.2.position = x.position
  failure : call.2.reader.failure = x.failure.map (⟨·, x.position⟩)
  wantsMore : call.wantsMore = (!closed && x.failure.isNone)
  waiting : call.wantsMore = true →
    call.2.rest = [] ∧ call.2.reader.Live [] ∧ call.2.reader.Resumed ∧
      call.2.reader.closed = false

namespace Reading

/-- The tokens of a reading and then its failure, each with the place right after it. -/
def reports (x : Reading) : List (Except ParseError Token × Position) :=
  x.tokens.map (fun reported => (.ok reported.1, reported.2)) ++
    (x.failure.map fun code => (.error ⟨code, x.position⟩, x.position)).toList

/-- A reading that has not failed reports its tokens. -/
theorem reports_of_accepted {x : Reading} (accepted : x.failure = none) :
    x.reports = x.tokens.map fun reported => (.ok reported.1, reported.2) := by
  rw [reports, accepted, Option.map_none, Option.toList_none, List.append_nil]

namespace Shows

variable {closed : Bool} {x : Reading} {calls : List Call}

theorem reports_eq (h : x.Shows closed calls) : Call.reports calls = x.reports := by
  induction h with
  | token ongoing _ ih =>
    rw [Call.reports, List.filterMap_cons, Call.report_ok ongoing, ← Call.reports, ih]
    rfl
  | needMore => rfl
  | done => rfl
  | failed => rfl

theorem getLast (h : x.Shows closed calls) :
    ∃ last, calls.getLast? = some last ∧ last.Ends closed x := by
  induction h with
  | token _ _ ih =>
    obtain ⟨last, at_end, ends⟩ := ih
    refine ⟨last, ?_, ⟨ends.machine, ends.position, ends.failure, ends.wantsMore, ends.waiting⟩⟩
    rw [List.getLast?_cons, at_end, Option.getD_some]
  | needMore live resumed opened same =>
    refine ⟨_, rfl, ⟨rfl, rfl, live.failure, ?_, fun _ => ⟨rfl, live, resumed, ?_⟩⟩⟩
    · rw [opened]
      rfl
    · exact same.trans opened
  | done failure ended =>
    refine ⟨_, rfl, ⟨rfl, rfl, failure, ?_, nofun⟩⟩
    rw [ended]
    rfl
  | failed failure =>
    refine ⟨_, rfl, ⟨rfl, rfl, failure, ?_, nofun⟩⟩
    rw [Option.isNone_some, Bool.and_false]
    rfl

/-- The tokens of the calls are those of the reading, unless it fails. -/
theorem tokens_eq (h : x.Shows closed calls) :
    Call.tokens calls =
      match x.failure with
      | some code => .error ⟨code, x.position⟩
      | none => .ok (x.tokens.map Prod.fst) := by
  induction h with
  | @token token f x calls ongoing _ ih =>
    have cons : Call.tokens ((.ok token, f) :: calls) = (Call.tokens calls).map (token :: ·) := by
      cases token <;> first | rfl | contradiction
    rw [cons, ih]
    show _ = match x.failure with | some code => _ | none => _
    cases x.failure <;> rfl
  | needMore => rfl
  | done => rfl
  | failed => rfl

/-- Only closed input shows the end of the document, and always does unless it fails. -/
theorem getLast?_eq_done_iff (h : x.Shows closed calls) (accepted : x.failure = none) :
    (x.tokens.map Prod.fst).getLast? = some .done ↔ closed = true := by
  induction h with
  | @token token f x calls ongoing _ ih =>
    rw [← ih accepted]
    show (token :: x.tokens.map Prod.fst).getLast? = some .done ↔ _
    rw [List.getLast?_cons]
    cases (x.tokens.map Prod.fst).getLast? with
    | some last => rfl
    | none =>
      refine ⟨fun same => ?_, nofun⟩
      cases same
      contradiction
  | needMore _ _ opened => exact ⟨nofun, fun ended => nomatch opened.symm.trans ended⟩
  | done _ ended => exact ⟨fun _ => ended, fun _ => rfl⟩
  | failed => contradiction

end Shows

end Reading

end JsonStream
