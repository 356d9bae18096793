import JsonStream.Proofs.Machine.Chunks

/-!
# How input is cut makes no difference

Chunks of a document are read one after another. Between two of them a caller may ask for more
tokens any number of times, in vain. `Reader.poll` reads by such a schedule, and `Outcome` is all
that a caller sees of it: what the calls report and where the reader then stands.

* `Reader.poll_tells`: by any schedule, what is read is what the machine of the reader reads from
  the concatenation of the chunks.
* `Reader.outcome_poll_eq`: two schedules for the same bytes have the same outcome, before the end
  of input and after it.
-/

namespace JsonStream

/-! ### Schedules -/

/-- Calls `next` a number of times. -/
def Feed.again : Nat → Feed → List Call × Feed
  | 0, f => ([], f)
  | n + 1, f => (f.next :: (again n f.next.2).1, (again n f.next.2).2)

/-- Reads chunks in turn, each with the number of calls that are made after it has been used up. It
stops for good at a refused chunk, at a failure and at the end of the document. -/
def Reader.poll (r : Reader) : List (Bytes × Nat) → List Call × Reader
  | [] => ([], r)
  | (chunk, further) :: schedule =>
    match r.feed chunk with
    | .error _ => ([], r)
    | .ok feed =>
      match feed.calls.getLast? with
      | none => ([], feed.release)
      | some last =>
        if Call.wantsMore last then
          let repeated := last.2.again further
          let more := repeated.2.release.poll schedule
          (feed.calls ++ (repeated.1 ++ more.1), more.2)
        else (feed.calls, last.2.release)

/-- What a caller sees of reading: what was reported, each report with the place right after it,
and then the place, the depth and the failure of the reader. -/
structure Outcome where
  reports : List (Except ParseError Token × Position)
  position : Position
  depth : Nat
  failure : Option ParseError

/-- What a caller sees of some calls and of the reader after them. -/
def outcome (polled : List Call × Reader) : Outcome :=
  { reports := Call.reports polled.1
    position := polled.2.position
    depth := polled.2.depth
    failure := polled.2.failure }

/-- Without further calls, a schedule is read as its chunks are run. -/
theorem Reader.poll_eq_run (r : Reader) (chunks : List Bytes) :
    r.poll (chunks.map (·, 0)) = ((r.run chunks).1.flatten, (r.run chunks).2) := by
  induction chunks generalizing r with
  | nil => rfl
  | cons chunk chunks ih =>
    rw [List.map_cons, poll, run]
    cases r.feed chunk with
    | error e => rfl
    | ok f =>
      dsimp only
      cases at_end : f.calls.getLast? with
      | none =>
        rw [List.getLast?_eq_none_iff.1 at_end]
        rfl
      | some last =>
        dsimp only
        by_cases more : Call.wantsMore last
        · rw [if_pos more, if_pos more, Feed.again, ih]
          rfl
        · rw [if_neg more, if_neg more, List.flatten_singleton]

/-! ### Asking in vain -/

namespace Reader

theorem suspend_of_resumed {r : Reader} (h : r.Resumed) : r.suspend = r := by
  obtain ⟨options, frames, root, lexeme, carry, position, closed, unread, failure⟩ := r
  cases lexeme with
  | number phase fractional segment => cases h; rfl
  | text utf8 segment => cases h; rfl
  | _ => rfl

end Reader

namespace Call

variable {call : Call} {closed : Bool} {x : Reading}

/-- A feed that has asked for more asks again and stays as it is. -/
theorem Ends.next_eq (ends : call.Ends closed x) (more : call.wantsMore = true) :
    call.2.next = (.ok .needMore, call.2) := by
  obtain ⟨rest, live, resumed, opened⟩ := ends.waiting more
  obtain ⟨_, r, input⟩ := call
  cases (show input = [] from rest)
  have stays : ¬r.closed = true := Bool.eq_false_iff.1 opened
  show Feed.next ⟨r, []⟩ = _
  rw [Feed.next_eq_scan (f := ⟨r, []⟩) live, Reader.scan]
  rw [if_neg stays, Reader.suspend_of_resumed resumed]

theorem Ends.again_eq (ends : call.Ends closed x) (more : call.wantsMore = true) (n : Nat) :
    call.2.again n = (List.replicate n (.ok .needMore, call.2), call.2) := by
  induction n with
  | zero => rfl
  | succ n ih => rw [Feed.again, ends.next_eq more, ih, List.replicate_succ]

theorem reports_replicate (n : Nat) (f : Feed) :
    reports (List.replicate n (.ok .needMore, f)) = [] := by
  induction n with
  | zero => rfl
  | succ n ih => exact ih

theorem reports_append (first second : List Call) :
    reports (first ++ second) = reports first ++ reports second :=
  List.filterMap_append

end Call

/-! ### Schedules and their bytes -/

/-- What has been read by a schedule is the given reading. -/
structure Reading.Tells (x : Reading) (polled : List Call × Reader) : Prop where
  reports : Call.reports polled.1 = x.reports
  machine : polled.2.machine = x.machine
  position : polled.2.position = x.position
  failure : polled.2.failure = x.failure.map (⟨·, x.position⟩)

theorem Reading.Tells.accepted {x : Reading} {polled : List Call × Reader} (h : x.Tells polled)
    (alive : polled.2.failure = none) : x.failure = none :=
  Option.map_eq_none_iff.1 (h.failure.symm.trans alive)

theorem Reading.reports_andThen {x : Reading} (h : x.failure = none)
    (next : Machine → Position → Reading) :
    (x.andThen next).reports = x.reports ++ (next x.machine x.position).reports := by
  rw [andThen_eq h, reports, reports, reports, h]
  simp only [List.map_append, Option.map_none, Option.toList_none, List.append_nil,
    List.append_assoc]

theorem Reading.andThen_stop (x : Reading) :
    (x.andThen fun m p => { machine := m, position := p }) = x := by
  obtain ⟨tokens, machine, position, _ | code⟩ := x
  · rw [andThen_eq rfl]
    simp only [List.append_nil]
  · exact andThen_of_failure rfl _

namespace Reader

theorem poll_of_stop {r : Reader} {chunk : Bytes} {f : Feed} {last : Call}
    (feed : r.feed chunk = .ok f) (at_end : f.calls.getLast? = some last)
    (stop : Call.wantsMore last = false) (further : Nat) (schedule : List (Bytes × Nat)) :
    r.poll ((chunk, further) :: schedule) = (f.calls, last.2.release) := by
  rw [poll, feed]
  dsimp only
  rw [at_end]
  dsimp only
  rw [if_neg (Bool.eq_false_iff.1 stop)]

theorem poll_of_more {r : Reader} {chunk : Bytes} {f : Feed} {last : Call} {closed : Bool}
    {x : Reading} (feed : r.feed chunk = .ok f) (at_end : f.calls.getLast? = some last)
    (ends : last.Ends closed x) (more : last.wantsMore = true) (further : Nat)
    (schedule : List (Bytes × Nat)) :
    r.poll ((chunk, further) :: schedule) =
      (f.calls ++ (List.replicate further (.ok .needMore, last.2) ++
        (last.2.release.poll schedule).1), (last.2.release.poll schedule).2) := by
  rw [poll, feed]
  dsimp only
  rw [at_end]
  dsimp only
  rw [if_pos more, ends.again_eq more]

/-- Chunks and then a last part are read like their bytes and then the last part. -/
theorem poll_tells {r : Reader} (h : r.Resting) {schedule tail : List (Bytes × Nat)}
    (bytes : ∀ chunk ∈ schedule, chunk.1 ≠ []) {final : Machine → Position → Reading}
    (ends : ∀ r : Reader, r.Resting → (final r.machine r.position).Tells (r.poll tail)) :
    ((r.machine.read r.position (schedule.map Prod.fst).flatten).andThen final).Tells
      (r.poll (schedule ++ tail)) := by
  induction schedule generalizing r with
  | nil =>
    rw [List.map_nil, List.flatten_nil, Machine.read_nil, Reading.andThen_eq rfl]
    exact ends r h
  | cons entry schedule ih =>
    obtain ⟨chunk, further⟩ := entry
    have nonempty : chunk ≠ [] := bytes _ List.mem_cons_self
    have opened : (r.attach chunk).closed = false := List.isEmpty_eq_false_iff.2 nonempty
    have shows := Feed.calls_shows (f := ⟨r.attach chunk, chunk⟩) (h.live_attach chunk)
    rw [h.reading_attach nonempty, opened] at shows
    obtain ⟨last, at_end, ended⟩ := shows.getLast
    rw [List.map_cons, List.flatten_cons, Machine.read_append, Reading.andThen_andThen,
      List.cons_append]
    cases failure : (r.machine.read r.position chunk).failure with
    | some code =>
      have stop : Call.wantsMore last = false := by rw [ended.wantsMore, failure]; rfl
      rw [Reading.andThen_of_failure failure, poll_of_stop (h.feed_eq chunk) at_end stop]
      exact ⟨shows.reports_eq, ended.machine, ended.position, ended.failure⟩
    | none =>
      have more : Call.wantsMore last = true := by rw [ended.wantsMore, failure]; rfl
      have ih := ih (Resting.of_ends ended more) fun c mem => bytes c (List.mem_cons_of_mem _ mem)
      have machine : last.2.release.machine = (r.machine.read r.position chunk).machine :=
        ended.machine
      have position : last.2.release.position = (r.machine.read r.position chunk).position :=
        ended.position
      rw [machine, position] at ih
      rw [poll_of_more (h.feed_eq chunk) at_end ended more]
      have reports := Reading.reports_andThen failure fun m p =>
        (m.read p (schedule.map Prod.fst).flatten).andThen final
      rw [Reading.andThen_eq failure] at reports ⊢
      refine ⟨?_, ih.machine, ih.position, ih.failure⟩
      rw [reports, Call.reports_append, Call.reports_append, Call.reports_replicate,
        List.nil_append, shows.reports_eq, ih.reports]

/-- Without a last part nothing more is read. -/
theorem poll_nil_tells {r : Reader} (h : r.Resting) :
    Reading.Tells { machine := r.machine, position := r.position } (r.poll []) :=
  ⟨rfl, rfl, rfl, h.failure⟩

/-- The end of input is read by the machine. -/
theorem poll_end_tells {r : Reader} (h : r.Resting) :
    (r.machine.finish r.position).Tells (r.poll [([], 0)]) := by
  have shows := Feed.calls_shows (f := ⟨r.attach [], []⟩) (h.live_attach [])
  rw [h.reading_attach_nil] at shows
  obtain ⟨last, at_end, ended⟩ := shows.getLast
  have stop : Call.wantsMore last = false := by rw [ended.wantsMore]; rfl
  rw [poll_of_stop (h.feed_eq []) at_end stop]
  exact ⟨shows.reports_eq, ended.machine, ended.position, ended.failure⟩

end Reader

/-! ### Outcomes -/

/-- What a caller sees of a reading. -/
def Reading.outcome (x : Reading) : Outcome :=
  { reports := x.reports
    position := x.position
    depth := x.machine.frames.length
    failure := x.failure.map (⟨·, x.position⟩) }

theorem Reading.Tells.outcome_eq {x : Reading} {polled : List Call × Reader} (h : x.Tells polled) :
    JsonStream.outcome polled = x.outcome := by
  have depth : polled.2.depth = x.machine.frames.length := by rw [← h.machine]; rfl
  rw [JsonStream.outcome, Reading.outcome]
  rw [h.reports, h.position, depth, h.failure]

namespace Reader

section
variable (options : ReaderOptions) {schedule : List (Bytes × Nat)}

/-- Before the end of input, what is read is what the machine reads from the bytes. -/
theorem tells_poll (bytes : ∀ chunk ∈ schedule, chunk.1 ≠ []) :
    (({ options } : Machine).read {} (schedule.map Prod.fst).flatten).Tells
      (({ options } : Reader).poll schedule) := by
  have tells : ((({ options } : Machine).read {} (schedule.map Prod.fst).flatten).andThen
      fun m p => { machine := m, position := p }).Tells
      (({ options } : Reader).poll (schedule ++ [])) :=
    poll_tells (resting_new options) bytes fun r rests => poll_nil_tells rests
  rw [List.append_nil, Reading.andThen_stop] at tells
  exact tells

/-- After the end of input, it is what the machine reads from the whole document. -/
theorem tells_poll_end (bytes : ∀ chunk ∈ schedule, chunk.1 ≠ []) :
    (({ options } : Machine).readAll {} (schedule.map Prod.fst).flatten).Tells
      (({ options } : Reader).poll (schedule ++ [([], 0)])) :=
  poll_tells (resting_new options) bytes fun _ rests => poll_end_tells rests

theorem map_fst_once (chunks : List Bytes) : (chunks.map (·, 0)).map Prod.fst = chunks := by
  rw [List.map_map]
  exact List.map_id chunks

/-- Chunks alone are read like their bytes. -/
theorem tells_run {chunks : List Bytes} (bytes : ∀ chunk ∈ chunks, chunk ≠ []) :
    (({ options } : Machine).read {} chunks.flatten).Tells
      ((({ options } : Reader).run chunks).1.flatten, (({ options } : Reader).run chunks).2) := by
  have nonempty : ∀ chunk ∈ chunks.map (·, 0), chunk.1 ≠ [] := by simpa using bytes
  have tells := tells_poll options nonempty
  rw [poll_eq_run, map_fst_once] at tells
  exact tells

/-- Chunks and the end of input are read like the whole document. -/
theorem tells_run_end {chunks : List Bytes} (bytes : ∀ chunk ∈ chunks, chunk ≠ []) :
    (({ options } : Machine).readAll {} chunks.flatten).Tells
      ((({ options } : Reader).run (chunks ++ [[]])).1.flatten,
        (({ options } : Reader).run (chunks ++ [[]])).2) := by
  have nonempty : ∀ chunk ∈ chunks.map (·, 0), chunk.1 ≠ [] := by simpa using bytes
  have ended : (chunks.map (·, 0)) ++ [([], 0)] = (chunks ++ [[]]).map (·, 0) := by
    rw [List.map_append]
    rfl
  have tells := tells_poll_end options nonempty
  rw [ended, poll_eq_run, map_fst_once] at tells
  exact tells

/-- Before the end of input, the outcome is that of the machine on the bytes. -/
theorem outcome_poll (bytes : ∀ chunk ∈ schedule, chunk.1 ≠ []) :
    outcome (({ options } : Reader).poll schedule) =
      (({ options } : Machine).read {} (schedule.map Prod.fst).flatten).outcome :=
  (tells_poll options bytes).outcome_eq

/-- After the end of input, the outcome is that of the machine on the whole document. -/
theorem outcome_poll_end (bytes : ∀ chunk ∈ schedule, chunk.1 ≠ []) :
    outcome (({ options } : Reader).poll (schedule ++ [([], 0)])) =
      (({ options } : Machine).readAll {} (schedule.map Prod.fst).flatten).outcome :=
  (tells_poll_end options bytes).outcome_eq

end

/-- **The outcome depends on the bytes only.** Two schedules for the same bytes lead to the same
reports at the same places, to the same failure or to none, and to the same place and depth, both
before the end of input is signalled and after it. -/
theorem outcome_poll_eq (options : ReaderOptions) (first second : List (Bytes × Nat))
    (first_bytes : ∀ chunk ∈ first, chunk.1 ≠ []) (second_bytes : ∀ chunk ∈ second, chunk.1 ≠ [])
    (same : (first.map Prod.fst).flatten = (second.map Prod.fst).flatten) :
    outcome (({ options } : Reader).poll first) = outcome (({ options } : Reader).poll second) ∧
      outcome (({ options } : Reader).poll (first ++ [([], 0)])) =
        outcome (({ options } : Reader).poll (second ++ [([], 0)])) := by
  constructor
  · rw [outcome_poll options first_bytes, outcome_poll options second_bytes, same]
  · rw [outcome_poll_end options first_bytes, outcome_poll_end options second_bytes, same]

/-- A string cut inside both halves of a surrogate pair and inside a UTF-8 sequence, with calls in
vain at each cut, and the same string in one piece. -/
theorem outcome_poll_cut_pair :
    outcome (({} : Reader).poll
        [([0x22, 0x5c, 0x75, 0x64], 2), ([0x38, 0x33, 0x64, 0x5c], 0), ([0x75, 0x64, 0x65], 1),
          ([0x30, 0x30, 0xc3], 3), ([0xa9, 0x22], 0), ([], 0)]) =
      outcome (({} : Reader).poll
        [([0x22, 0x5c, 0x75, 0x64, 0x38, 0x33, 0x64, 0x5c, 0x75, 0x64, 0x65, 0x30, 0x30, 0xc3, 0xa9,
          0x22], 1), ([], 0)]) :=
  (outcome_poll_eq {}
    [([0x22, 0x5c, 0x75, 0x64], 2), ([0x38, 0x33, 0x64, 0x5c], 0), ([0x75, 0x64, 0x65], 1),
      ([0x30, 0x30, 0xc3], 3), ([0xa9, 0x22], 0)]
    [([0x22, 0x5c, 0x75, 0x64, 0x38, 0x33, 0x64, 0x5c, 0x75, 0x64, 0x65, 0x30, 0x30, 0xc3, 0xa9,
      0x22], 1)] (by decide) (by decide) rfl).2

end Reader

end JsonStream
