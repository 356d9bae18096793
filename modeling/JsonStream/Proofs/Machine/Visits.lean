import Mathlib.Logic.Relation
import JsonStream.Proofs.Machine.Calls
import JsonStream.Proofs.Machine.Viable

/-!
# States within a call

A call takes bytes one after another until one of them completes a token, ends a scalar or is
refused, or until there are no more. `Feed.Visits` are the states it comes by, `Feed.Ends` says how
it ends in the last of them.

* `Reader.exists_ends`: every call that reads is of this form.
* `Feed.Passes`: what calls do to the place of a reader. It composes, so it is shown byte by byte.
* `Feed.Steady.leads_next`: one call, whatever it answers.
-/

namespace JsonStream

/-- A complete string is reported with its role. -/
theorem Machine.endString_eq_ok {m next : Machine} {content : Bytes} {token : Token}
    (h : m.endString content = .ok (token, next)) :
    next = m.endScalar ∧ ∃ text, Utf8.text? content = some text ∧
      token = if m.takesKey then .key text else .string text := by
  rw [endString] at h
  cases decoded : Utf8.text? content with
  | none =>
    rw [decoded] at h
    contradiction
  | some text =>
    rw [decoded] at h
    cases h
    exact ⟨rfl, text, rfl, rfl⟩

/-- A byte that completes a token leaves nothing in progress. -/
theorem Machine.step_emit {m next : Machine} {byte : UInt8} {token : Token}
    (h : m.step byte = .emit token next) : next.unfinished = .nothing := by
  rw [step] at h
  cases unfinished : m.unfinished with
  | nothing =>
    have opened : ∀ frame, (m.openContainer frame).unfinished = .nothing := fun _ =>
      m.unfinished_valueStarted.trans unfinished
    have closed : ∀ outer, (m.closeContainer outer).unfinished = .nothing := fun outer =>
      (unfinished_valueCompleted { m with frames := outer }).trans unfinished
    rw [unfinished] at h
    simp only [stepStructure, stepArray, stepObject, stepValue] at h
    repeat' split at h
    all_goals first
      | contradiction
      | (injection h with _ h; exact h ▸ opened _)
      | (injection h with _ h; exact h ▸ closed _)
  | keyword keyword missing =>
    rw [unfinished] at h
    simp only [stepKeyword] at h
    repeat' split at h
    all_goals contradiction
  | number phase fractional literal =>
    rw [unfinished] at h
    simp only [stepNumber] at h
    repeat' split at h
    all_goals contradiction
  | text utf8 content =>
    rw [unfinished] at h
    simp only [stepText, stepUtf8] at h
    repeat' split at h
    all_goals first
      | contradiction
      | (injection h with _ h; exact h ▸ (endString_eq_ok ‹_›).1 ▸ m.unfinished_endScalar)
  | escape state content =>
    rw [unfinished] at h
    simp only [stepEscape, pushEscaped] at h
    repeat' split at h
    all_goals contradiction

/-- Nothing is in progress in a reader if its machine has nothing unfinished. -/
theorem Reader.lexeme_eq_none {r : Reader} (h : r.machine.unfinished = .nothing) :
    r.lexeme = .none := by
  have nothing : r.lexeme.unfinished r.carried = .nothing := h
  cases lexeme : r.lexeme with
  | none => rfl
  | _ => rw [lexeme] at nothing; contradiction

namespace Feed

/-- A byte is taken, and nothing is reported. -/
inductive Takes : Feed → Feed → Prop where
  | intro {r next : Reader} {byte : UInt8} {rest : Bytes}
      (step : r.step byte rest = .advance next) : Takes ⟨r, byte :: rest⟩ ⟨next.moveOver byte, rest⟩

/-- The states that a call comes by. -/
abbrev Visits : Feed → Feed → Prop :=
  Relation.ReflTransGen Takes

/-- How a call ends that has come this far. -/
inductive Ends : Feed → Call → Prop where
  | emit {r next : Reader} {byte : UInt8} {rest : Bytes} {token : Token}
      (step : r.step byte rest = .emit token next) :
      Ends ⟨r, byte :: rest⟩ (.ok token, ⟨next.moveOver byte, rest⟩)
  | emitBefore {r next : Reader} {byte : UInt8} {rest : Bytes} {token : Token}
      (step : r.step byte rest = .emitBefore token next) :
      Ends ⟨r, byte :: rest⟩ (.ok token, ⟨next, byte :: rest⟩)
  | refused {r : Reader} {byte : UInt8} {rest : Bytes} {code : ErrorCode}
      (step : r.step byte rest = .fail code) :
      Ends ⟨r, byte :: rest⟩ ((r.failWith code).1, ⟨(r.failWith code).2, byte :: rest⟩)
  | suspended {r : Reader} (opened : r.closed = false) :
      Ends ⟨r, []⟩ (.ok .needMore, ⟨r.suspend, []⟩)
  | finished {r next : Reader} {token : Token} (closed : r.closed = true)
      (ended : r.atEnd = .ok (token, next)) : Ends ⟨r, []⟩ (.ok token, ⟨next, []⟩)
  | incomplete {r : Reader} {code : ErrorCode} (closed : r.closed = true)
      (ended : r.atEnd = .error code) :
      Ends ⟨r, []⟩ ((r.failWith code).1, ⟨(r.failWith code).2, []⟩)

end Feed

/-- **A call that reads takes some bytes and then ends.** -/
theorem Reader.exists_ends (r : Reader) (input : Bytes) :
    ∃ q, Feed.Visits ⟨r, input⟩ q ∧ q.Ends (r.scan input) := by
  induction input generalizing r with
  | nil =>
    refine ⟨⟨r, []⟩, .refl, ?_⟩
    rw [scan]
    by_cases closed : r.closed = true
    · rw [if_pos closed]
      cases ended : r.atEnd with
      | ok done => exact .finished closed ended
      | error code => exact .incomplete closed ended
    · rw [if_neg closed]
      exact .suspended (Bool.eq_false_iff.2 closed)
  | cons byte rest ih =>
    rw [scan]
    cases step : r.step byte rest with
    | advance next =>
      obtain ⟨q, visits, ends⟩ := ih (next.moveOver byte)
      exact ⟨q, .head (.intro step) visits, ends⟩
    | emit token next => exact ⟨_, .refl, .emit step⟩
    | emitBefore token next => exact ⟨_, .refl, .emitBefore step⟩
    | fail code => exact ⟨_, .refl, .refused step⟩

namespace Feed

/-! ### The place of a reader -/

/-- What calls that lead from one feed to another do to its place: the position moves over the bytes
that are taken, and what is known of the chunk stays. -/
structure Passes (f g : Feed) : Prop where
  options : g.reader.options = f.reader.options
  closed : g.reader.closed = f.reader.closed
  unread : g.reader.unread = f.reader.unread
  taken : ∃ taken, f.rest = taken ++ g.rest ∧ g.position = f.position.after taken

theorem Passes.refl (f : Feed) : f.Passes f :=
  ⟨rfl, rfl, rfl, [], rfl, rfl⟩

theorem Passes.trans {f g h : Feed} (first : f.Passes g) (second : g.Passes h) : f.Passes h := by
  obtain ⟨taken, rest, position⟩ := first.taken
  obtain ⟨taken', rest', position'⟩ := second.taken
  refine ⟨second.options.trans first.options, second.closed.trans first.closed,
    second.unread.trans first.unread, taken ++ taken', ?_, ?_⟩
  · rw [rest, rest', List.append_assoc]
  · rw [position', position, Position.after_append]

/-- The reader is in the middle of a call: it can go on, and what is in progress can be
completed. -/
structure Underway (f : Feed) : Prop where
  live : f.reader.Live f.rest
  viable : f.reader.machine.Viable

end Feed

/-- What a step leaves to the reader: it can go on from the same place. -/
structure Reader.Moves (next r : Reader) (rest : Bytes) : Prop where
  follows : next.Follows r rest
  options : next.options = r.options
  root : next.root ≠ .done
  viable : next.machine.Viable

namespace Reader

variable {r next : Reader} {byte : UInt8} {rest : Bytes} {token : Token} {code : ErrorCode}

theorem Follows.position_eq (h : next.Follows r rest) : next.position = r.position :=
  congrArg Prod.fst h.place

theorem Follows.closed_eq (h : next.Follows r rest) : next.closed = r.closed :=
  congrArg (fun place => place.2.1) h.place

theorem Follows.unread_eq (h : next.Follows r rest) : next.unread = r.unread :=
  congrArg (fun place => place.2.2.1) h.place

theorem Follows.failure_eq (h : next.Follows r rest) : next.failure = r.failure :=
  congrArg (fun place => place.2.2.2) h.place

/-- The reader takes the byte after the step. -/
theorem Moves.passes_moveOver (h : next.Moves r rest) (byte : UInt8) :
    Feed.Passes ⟨r, byte :: rest⟩ ⟨next.moveOver byte, rest⟩ where
  options := h.options
  closed := h.follows.closed_eq
  unread := h.follows.unread_eq
  taken := by
    refine ⟨[byte], rfl, ?_⟩
    show next.position.advance byte = r.position.advance byte
    rw [h.follows.position_eq]

/-- The reader leaves the bytes. -/
theorem Moves.passes (h : next.Moves r rest) (input : Bytes) :
    Feed.Passes ⟨r, input⟩ ⟨next, input⟩ :=
  ⟨h.options, h.follows.closed_eq, h.follows.unread_eq, [], rfl, h.follows.position_eq⟩

theorem Moves.underway (h : next.Moves r rest) (failure : r.failure = none) :
    Feed.Underway ⟨next.moveOver byte, rest⟩ :=
  ⟨⟨h.follows.aligned, h.follows.failure_eq.trans failure, h.root⟩, h.viable⟩

end Reader

namespace Feed

variable {f g q : Feed} {call : Call}

/-- **Every step of a call keeps the place of the reader** and leaves something that can be
completed. -/
theorem Underway.step_all {r : Reader} {byte : UInt8} {rest : Bytes}
    (h : Underway ⟨r, byte :: rest⟩) : (r.step byte rest).All (·.Moves r rest) := by
  have follows := Reader.step_all h.live.aligned
  have goesOn := Machine.step_goesOn (m := r.machine) h.live.root byte
  have options := r.machine.step_options byte
  have viable := Machine.step_viable h.viable byte
  rw [← Reader.machine_step h.live.aligned] at goesOn options viable
  cases step : r.step byte rest with
  | advance next =>
    rw [step] at follows goesOn options viable
    exact ⟨follows, options, goesOn, viable⟩
  | emit token next | emitBefore token next =>
    rw [step] at follows goesOn options viable
    exact ⟨follows, options, goesOn.2, viable⟩
  | fail code => trivial

theorem Takes.passes (h : f.Takes q) (underway : f.Underway) : f.Passes q ∧ q.Underway := by
  cases h with
  | @intro r next byte rest step =>
    have moves := underway.step_all
    rw [step] at moves
    exact ⟨moves.passes_moveOver byte, moves.underway underway.live.failure⟩

/-- What one byte keeps, the way to any state within the call keeps. -/
theorem Visits.passes (h : f.Visits q) (underway : f.Underway) : f.Passes q ∧ q.Underway := by
  induction h with
  | refl => exact ⟨.refl f, underway⟩
  | tail _ takes ih =>
    obtain ⟨passes, underway⟩ := ih
    obtain ⟨more, next⟩ := takes.passes underway
    exact ⟨passes.trans more, next⟩

/-! ### Between calls -/

/-- **What holds between calls** of a reader with a chunk attached. At the end of a chunk that more
may follow, all bytes of the scalar in progress are carried. -/
structure Steady (f : Feed) : Prop where
  aligned : f.reader.Aligned f.rest
  resumed : f.rest = [] → f.reader.closed = false → f.reader.Resumed
  ended : f.reader.root = .done → f.reader.closed = true
  viable : f.reader.root ≠ .done → f.reader.machine.Viable
  failure : ∀ e, f.reader.failure = some e → e.position = f.position

theorem Steady.underway (h : f.Steady) (failure : f.reader.failure = none)
    (root : f.reader.root ≠ .done) : f.Underway :=
  ⟨⟨h.aligned, failure, root⟩, h.viable root⟩

theorem resumed_of_lexeme_eq_none {r : Reader} (h : r.lexeme = .none) : r.Resumed := by
  rw [Reader.Resumed, h]
  trivial

/-- A refusal leaves nothing in progress. -/
theorem Underway.steady_failWith (h : q.Underway) (code : ErrorCode) :
    Steady ⟨(q.reader.failWith code).2, q.rest⟩ where
  aligned := trivial
  resumed _ _ := trivial
  ended done := absurd done h.live.root
  viable _ := by
    refine ⟨?_, trivial⟩
    rcases h.viable.root with value | ⟨root, frames, -⟩
    · exact .inl value
    · exact .inr ⟨root, frames, rfl⟩
  failure e failed := by
    cases failed
    rfl

/-- Some calls lead from one feed to another, and the last of them may have failed. -/
structure Leads (f g : Feed) (refusal : Option ParseError) : Prop where
  passes : f.Passes g
  steady : g.Steady
  failure : g.reader.failure = refusal
  /-- After a failure nothing changes. -/
  stuck : ∀ e, f.reader.failure = some e → g = f

end Feed

/-- Why a call fails, if it does. -/
def Call.refusal : Call → Option ParseError
  | (.ok _, _) => none
  | (.error e, _) => some e

namespace Feed

variable {f g q : Feed} {call : Call}

theorem Underway.stuck (h : q.Underway) (e : ParseError) (failed : q.reader.failure = some e) :
    g = q := by
  rw [h.live.failure] at failed
  contradiction

theorem Underway.leads_failWith (h : q.Underway) (code : ErrorCode) :
    q.Leads ⟨(q.reader.failWith code).2, q.rest⟩ (some ⟨code, q.position⟩) :=
  ⟨⟨rfl, rfl, rfl, [], rfl, rfl⟩, h.steady_failWith code, rfl, h.stuck⟩

/-- A token is reported, and nothing is in progress. -/
theorem Passes.leads_idle (passes : q.Passes g) (underway : q.Underway)
    (idle : g.reader.lexeme = .none) (failure : g.reader.failure = none)
    (ended : g.reader.root = .done → g.reader.closed = true)
    (viable : g.reader.root ≠ .done → g.reader.machine.Viable) : q.Leads g none where
  passes := passes
  steady := by
    refine ⟨Reader.aligned_of_lexeme_eq_none idle _, fun _ _ => ?_, ended, viable, ?_⟩
    · exact resumed_of_lexeme_eq_none idle
    · intro e failed
      rw [failure] at failed
      contradiction
  failure := failure
  stuck := underway.stuck

theorem Underway.leads_suspend {r : Reader} (h : Underway ⟨r, []⟩) :
    Leads ⟨r, []⟩ ⟨r.suspend, []⟩ none := by
  have live := Reader.live_suspend h.live
  have machine := r.machine_suspend
  have place : r.suspend.Follows r [] := ⟨live.aligned, r.place_suspend⟩
  have options : r.suspend.options = r.options := congrArg Machine.options machine
  refine ⟨⟨options, place.closed_eq, place.unread_eq, [], rfl, place.position_eq⟩, ?_, live.failure,
    h.stuck⟩
  refine ⟨live.aligned, fun _ _ => r.resumed_suspend, fun done => absurd done live.root, ?_, ?_⟩
  · intro
    show r.suspend.machine.Viable
    rw [machine]
    exact h.viable
  · intro e failed
    rw [live.failure] at failed
    contradiction

/-- The end of input completes the document, or a scalar. -/
theorem Underway.leads_atEnd {r next : Reader} {token : Token} (h : Underway ⟨r, []⟩)
    (closed : r.closed = true) (ended : r.atEnd = .ok (token, next)) :
    Leads ⟨r, []⟩ ⟨next, []⟩ none := by
  rcases Reader.atEnd_eq_ok ended with ⟨rfl, idle, -, -, rfl⟩ | ⟨inside, -, rfl⟩
  · have passes : Passes ⟨r, []⟩ ⟨{ r with root := .done }, []⟩ := ⟨rfl, rfl, rfl, [], rfl, rfl⟩
    exact passes.leads_idle h idle h.live.failure (fun _ => closed) fun other => absurd rfl other
  · have machine := r.machine_endScalar
    have follows := r.follows_endScalar []
    have root := h.viable.root_eq inside
    have viable := Machine.viable_endScalar root
    have options : r.endScalar.options = r.options := by
      have same : r.machine.endScalar.options = r.options := Machine.options_valueCompleted _
      rw [← machine] at same
      exact same
    rw [← machine] at viable
    have passes : Passes ⟨r, []⟩ ⟨r.endScalar, []⟩ :=
      ⟨options, follows.closed_eq, follows.unread_eq, [], rfl, follows.position_eq⟩
    exact passes.leads_idle h (Reader.lexeme_valueCompleted _)
      (follows.failure_eq.trans h.live.failure) (fun _ => follows.closed_eq.trans closed)
      fun _ => viable

/-- **However a call ends**, the reader keeps its place, and it fails if and only if the call
does. -/
theorem Ends.leads (h : q.Ends call) (underway : q.Underway) : q.Leads call.2 call.refusal := by
  cases h with
  | @emit r next byte rest token step =>
    have moves := underway.step_all
    have machine := Reader.machine_step underway.live.aligned
    rw [step] at moves machine
    have idle := Reader.lexeme_eq_none (Machine.step_emit machine.symm)
    exact (moves.passes_moveOver byte).leads_idle underway idle
      (moves.follows.failure_eq.trans underway.live.failure) (fun done => absurd done moves.root)
      fun _ => moves.viable
  | @emitBefore r next byte rest token step =>
    have moves := underway.step_all
    have machine := Reader.machine_step underway.live.aligned
    rw [step] at moves machine
    have idle := Reader.lexeme_eq_none (Machine.step_emitBefore machine.symm).2
    exact (moves.passes (byte :: rest)).leads_idle underway idle
      (moves.follows.failure_eq.trans underway.live.failure) (fun done => absurd done moves.root)
      fun _ => moves.viable
  | refused step => exact underway.leads_failWith _
  | suspended opened => exact underway.leads_suspend
  | finished closed ended => exact underway.leads_atEnd closed ended
  | incomplete closed ended => exact underway.leads_failWith _

/-! ### One call -/

theorem next_of_failure {e : ParseError} (h : f.reader.failure = some e) :
    f.next = (.error e, f) := by
  rw [next, h]

theorem next_of_done (failure : f.reader.failure = none) (root : f.reader.root = .done) :
    f.next = (.ok .done, f) := by
  rw [next, failure, root]

/-- Before a failure and the end of the document, a call takes some bytes and then ends. -/
theorem exists_ends (failure : f.reader.failure = none) (root : f.reader.root ≠ .done) :
    ∃ q, f.Visits q ∧ q.Ends f.next := by
  have next : f.next = f.reader.scan f.rest := by
    rw [Feed.next, failure]
    cases state : f.reader.root with
    | done => exact absurd state root
    | value | afterValue => rfl
  rw [next]
  exact f.reader.exists_ends f.rest

/-- **One call**, whatever it answers. -/
theorem Steady.leads_next (h : f.Steady) : f.Leads f.next.2 (Call.refusal f.next) := by
  cases failure : f.reader.failure with
  | some e =>
    rw [next_of_failure failure]
    exact ⟨.refl f, h, failure, fun _ _ => rfl⟩
  | none =>
    by_cases root : f.reader.root = .done
    · rw [next_of_done failure root]
      exact ⟨.refl f, h, failure, fun _ _ => rfl⟩
    · obtain ⟨q, visits, ends⟩ := exists_ends failure root
      obtain ⟨passes, underway⟩ := visits.passes (h.underway failure root)
      have leads := ends.leads underway
      refine ⟨passes.trans leads.passes, leads.steady, leads.failure, fun e failed => ?_⟩
      rw [failure] at failed
      contradiction

/-- Only the end of input reports the end of the document. -/
theorem Ends.root_eq_done (h : q.Ends (.ok .done, g)) (underway : q.Underway) :
    g.reader.root = .done := by
  cases h with
  | @emit r next byte rest token step =>
    have goesOn := Machine.step_goesOn (m := r.machine) underway.live.root byte
    rw [← Reader.machine_step underway.live.aligned, step] at goesOn
    exact absurd goesOn.1 nofun
  | @emitBefore r next byte rest token step =>
    have goesOn := Machine.step_goesOn (m := r.machine) underway.live.root byte
    rw [← Reader.machine_step underway.live.aligned, step] at goesOn
    exact absurd goesOn.1 nofun
  | finished closed ended =>
    rcases Reader.atEnd_eq_ok ended with ⟨-, -, -, -, rfl⟩ | ⟨-, ongoing, -⟩
    · rfl
    · contradiction

/-- A call that reports the end of the document leaves the reader there. -/
theorem Steady.root_eq_done (h : f.Steady) (answer : f.next = (.ok .done, g)) :
    g.reader.root = .done := by
  cases failure : f.reader.failure with
  | some e =>
    rw [next_of_failure failure] at answer
    cases answer
  | none =>
    by_cases root : f.reader.root = .done
    · rw [next_of_done failure root] at answer
      cases answer
      exact root
    · obtain ⟨q, visits, ends⟩ := exists_ends failure root
      rw [answer] at ends
      exact ends.root_eq_done (visits.passes (h.underway failure root)).2

end Feed

end JsonStream
