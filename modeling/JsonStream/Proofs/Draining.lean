import JsonStream.Proofs.Acceptance
import JsonStream.Proofs.Transcript

/-!
# Every chunk drains

A call may report a token without taking a byte: a number or a keyword ends where the byte after it
stands, or where the input ends. Then it was in progress before the call, and nothing is after it.
So the unread bytes together with the scalar in progress pay for all tokens, and calls on a chunk
come to an end soon: with a failure, with the end of the document, or with a request for more input
that stands for as long as no chunk is attached.

* `Feed.Ends.size_lt`, `Feed.Steady.next_size_lt`: every token has its price.
* `Feed.Steady.exists_calls_eq`: how many tokens a chunk yields, and what comes after them.
* `Feed.Steady.needMore`: a request for more input.
* `Reader.collect_settles`: reading a whole document.
* `Transcript.drains`: all of this after any moves of a caller.
-/

namespace JsonStream

namespace Feed

variable {f g q : Feed} {token : Token}

/-! ### The price of a token -/

/-- What is left to pay for tokens: the unread bytes and the scalar in progress. -/
def size (f : Feed) : Nat :=
  f.rest.length + f.reader.inFlight

theorem size_le (f : Feed) : f.size ≤ f.rest.length + 1 :=
  Nat.add_le_add_left f.reader.inFlight_le_one _

/-- Between tokens only the unread bytes are left. -/
theorem size_eq (idle : g.reader.lexeme = .none) : g.size = g.rest.length := by
  rw [size, Reader.inFlight, if_pos idle, Nat.add_zero]

/-- A byte that is taken may start a scalar. -/
theorem Takes.size_le (h : f.Takes q) : q.size ≤ f.size := by
  cases h with
  | @intro r next byte rest step =>
    have started := Feed.size_le ⟨next.moveOver byte, rest⟩
    exact Nat.le_trans started (Nat.le_add_right _ _)

theorem Visits.size_le (h : f.Visits q) : q.size ≤ f.size := by
  induction h with
  | refl => exact Nat.le_refl _
  | tail _ takes ih => exact Nat.le_trans takes.size_le ih

/-- **A token costs a byte or the scalar in progress.** -/
theorem Ends.size_lt (h : q.Ends (.ok token, g)) (underway : q.Underway)
    (ongoing : token.isOngoing = true) : g.size < q.size := by
  cases h with
  | @emit r next byte rest token step =>
    have machine := Reader.machine_step underway.live.aligned
    rw [step] at machine
    have idle : (next.moveOver byte).lexeme = .none :=
      Reader.lexeme_eq_none (Machine.step_emit machine.symm)
    rw [size_eq (g := ⟨next.moveOver byte, rest⟩) idle]
    exact Nat.lt_of_lt_of_le (Nat.lt_succ_self _) (Nat.le_add_right _ _)
  | @emitBefore r next byte rest token step =>
    obtain ⟨before, after⟩ := Reader.step_emitBefore_inFlight step
    rw [size, size, before, after]
    exact Nat.lt_succ_self _
  | suspended => contradiction
  | @finished r next token closed ended =>
    obtain ⟨before, after⟩ := Reader.atEnd_inFlight ended ongoing
    rw [size, size, before, after]
    exact Nat.lt_succ_self _

/-- Every call that reports a token lowers what is left. -/
theorem Steady.next_size_lt (h : f.Steady) (answer : f.next = (.ok token, g))
    (ongoing : token.isOngoing = true) : g.size < f.size := by
  cases failure : f.reader.failure with
  | some e =>
    rw [next_of_failure failure] at answer
    cases answer
  | none =>
    by_cases root : f.reader.root = .done
    · rw [next_of_done failure root] at answer
      cases answer
      contradiction
    · obtain ⟨q, visits, ends⟩ := exists_ends failure root
      rw [answer] at ends
      have lower := ends.size_lt (visits.passes (h.underway failure root)).2 ongoing
      exact Nat.lt_of_lt_of_le lower visits.size_le

end Feed

/-- The call reports a token after which more may follow at once. -/
def Call.GoesOn (call : Call) : Prop :=
  ∃ token, call.1 = .ok token ∧ token.isOngoing = true

/-- The call is the last one on a chunk: it asks for more input, ends the document or fails. -/
def Call.Stops (call : Call) : Prop :=
  call.1 = .ok .needMore ∨ call.1 = .ok .done ∨ ∃ e, call.1 = .error e

theorem Token.eq_of_not_isOngoing {token : Token} (h : ¬token.isOngoing = true) :
    token = .needMore ∨ token = .done := by
  cases token <;> simp [isOngoing] at h ⊢

namespace Feed

variable {f g : Feed}

/-- **The calls on a chunk**: not more tokens than can be paid for, and then one call that stops. -/
theorem Steady.exists_calls_eq (h : f.Steady) :
    ∃ (told : List Call) (last : Call), f.calls = told ++ [last] ∧
      (∀ call ∈ told, Call.GoesOn call) ∧ Call.Stops last ∧ told.length ≤ f.size := by
  induction f using calls.induct with
  | case1 f token g answer ongoing ih =>
    have leads := h.leads_next
    rw [answer] at leads
    obtain ⟨told, last, calls, tokens, stops, bound⟩ := ih leads.steady
    refine ⟨(.ok token, g) :: told, last, ?_, ?_, stops, ?_⟩
    · rw [calls_of_ongoing answer ongoing, calls, List.cons_append]
    · exact List.forall_mem_cons.2 ⟨⟨token, rfl, ongoing⟩, tokens⟩
    · exact Nat.le_trans (Nat.succ_le_succ bound) (h.next_size_lt answer ongoing)
  | case2 f token g answer last =>
    rw [calls_of_last answer last]
    refine ⟨[], (.ok token, g), rfl, List.forall_mem_nil _, ?_, Nat.zero_le _⟩
    rcases Token.eq_of_not_isOngoing last with rfl | rfl
    · exact .inl rfl
    · exact .inr (.inl rfl)
  | case3 f e g answer =>
    rw [calls_of_error answer]
    exact ⟨[], (.error e, g), rfl, List.forall_mem_nil _, .inr (.inr ⟨e, rfl⟩), Nat.zero_le _⟩

/-! ### Requests for more input -/

/-- **A request for more input** comes when the chunk is used up and the input has not ended. It
stands, nothing changes, and the next chunk is taken, whatever it is. -/
theorem Steady.needMore (h : f.Steady) (answer : f.next = (.ok .needMore, g)) :
    g.rest = [] ∧ f.reader.closed = false ∧
      (∀ n, g.again n = (List.replicate n (.ok .needMore, g), g)) ∧
      ∀ chunk, ∃ r, g.release.feed chunk = .ok ⟨r, chunk⟩ := by
  cases failure : f.reader.failure with
  | some e =>
    rw [next_of_failure failure] at answer
    cases answer
  | none =>
    by_cases root : f.reader.root = .done
    · rw [next_of_done failure root] at answer
      cases answer
    · have shows := calls_shows (h.underway failure root).live
      rw [calls_of_last answer nofun] at shows
      obtain ⟨last, same, ends⟩ := shows.getLast
      cases same
      obtain ⟨used, -, -, opened⟩ := ends.waiting rfl
      have leads := h.leads_next
      rw [answer] at leads
      refine ⟨used, leads.passes.closed.symm.trans opened, ends.again_eq rfl, fun chunk => ?_⟩
      exact ⟨_, (Reader.Resting.of_ends ends rfl).feed_eq chunk⟩

end Feed

/-! ### Whole documents -/

namespace Reader

/-- **Reading a document ends** as reading its chunks does: it is refused with the failure that this
ends with, or the tokens that are reported are kept, of which the last is the end. -/
theorem collect_settles (options : ReaderOptions) (chunks : List Bytes) :
    let ran := ({ options } : Reader).run (chunks.filter (!·.isEmpty) ++ [[]])
    (∃ e, ran.2.failure = some e ∧ ({ options } : Reader).collect chunks = .error (.parse e)) ∨
      ran.2.failure = none ∧
        ∃ tokens, ({ options } : Reader).collect chunks = .ok (tokens ++ [.done]) ∧
          .done ∉ tokens ∧ .needMore ∉ tokens ∧
          (Call.reports ran.1.flatten).map Prod.fst = (tokens ++ [.done]).map .ok := by
  intro ran
  have same : (chunks.filter (!·.isEmpty)).flatten = chunks.flatten := List.flatten_filter_not_isEmpty
  have tells := tells_run_end options (ne_nil_of_mem_filter chunks)
  rw [same] at tells
  have collects := collect_eq options chunks
  generalize ({ options } : Machine).readAll {} chunks.flatten = x at tells collects
  have failure : ran.2.failure = x.failure.map (⟨·, x.position⟩) := tells.failure
  cases outcome : x.failure with
  | some code =>
    rw [outcome] at failure
    rw [Reading.collected, outcome] at collects
    exact .inl ⟨_, failure, collects⟩
  | none =>
    rw [outcome] at failure
    rw [Reading.collected, outcome] at collects
    have reports : Call.reports ran.1.flatten = x.reports := tells.reports
    rw [Reading.reports_of_accepted outcome] at reports
    obtain ⟨v, -, tokens⟩ := collect_eq_ok_iff_document.1 collects
    refine .inr ⟨failure, v.flatten, ?_, v.done_not_mem_flatten, fun mem => ?_, ?_⟩
    · rw [collects, tokens]
    · have ongoing := v.isOngoing_of_mem_flatten mem
      contradiction
    · rw [reports, ← tokens, List.map_map, List.map_map]
      rfl

end Reader

namespace Transcript

/-- **Every call ends and every chunk drains.** After any moves, with `rest` unread of a chunk: a
call takes some of these bytes and then ends. The calls report at most one token more than there are
bytes, and then one of them asks for more input, ends the document or fails. It asks for more input
only when the chunk is used up and the end of input has not been signalled; every further call asks
again and changes nothing, and the next chunk is taken. So a document is never read in vain: with a
new reader or with one that starts over, collecting its tokens gives the failure that reading its
chunks ends with, or, if it does not fail, the tokens that reading reports, of which only the last is
an end and none is a request for more input. -/
theorem drains (options : ReaderOptions) (moves : List Move) :
    let t := playAll options moves
    let s := t.session
    (∀ rest, s.chunk? = some rest →
      let f : Feed := ⟨s.reader, rest⟩
      (s.reader.failure = none → s.reader.root ≠ .done →
        ∃ q taken, f.Visits q ∧ rest = taken ++ q.rest ∧ q.Ends f.next) ∧
      (∃ (told : List Call) (last : Call), f.calls = told ++ [last] ∧
        (∀ call ∈ told, Call.GoesOn call) ∧ Call.Stops last ∧ told.length ≤ rest.length + 1) ∧
      ∀ g, f.next = (.ok .needMore, g) →
        g.remaining = 0 ∧ [] ∉ t.chunks ∧
          (∀ n, g.again n = (List.replicate n (.ok .needMore, g), g)) ∧
          ∀ chunk, ∃ r, g.release.feed chunk = .ok ⟨r, chunk⟩) ∧
    ∀ r, r = { options } ∨ r = s.reader.reset → ∀ chunks,
      let ran := r.run (chunks.filter (!·.isEmpty) ++ [[]])
      (∃ e, ran.2.failure = some e ∧ r.collect chunks = .error (.parse e)) ∨
        ran.2.failure = none ∧
          ∃ tokens, r.collect chunks = .ok (tokens ++ [.done]) ∧ .done ∉ tokens ∧
            .needMore ∉ tokens ∧
            (Call.reports ran.1.flatten).map Prod.fst = (tokens ++ [.done]).map .ok := by
  intro t s
  have kept := kept_playAll options moves
  constructor
  · intro rest attached f
    have steady : f.Steady := kept.steady rest attached
    refine ⟨fun failure root => ?_, ?_, fun g answer => ?_⟩
    · obtain ⟨q, visits, ends⟩ := Feed.exists_ends (f := f) failure root
      obtain ⟨taken, bytes, -⟩ := (visits.passes (steady.underway failure root)).1.taken
      exact ⟨q, taken, visits, bytes, ends⟩
    · obtain ⟨told, last, calls, tokens, stops, bound⟩ := steady.exists_calls_eq
      exact ⟨told, last, calls, tokens, stops, Nat.le_trans bound f.size_le⟩
    · obtain ⟨used, opened, again, feeds⟩ := steady.needMore answer
      refine ⟨congrArg List.length used, fun mem => ?_, again, feeds⟩
      exact Bool.false_ne_true (opened.symm.trans (kept.closed.2 mem))
  · intro r start chunks
    have new : r = { options } := by
      rcases start with rfl | rfl
      · rfl
      · rw [Reader.reset, kept.options]
    rw [new]
    exact Reader.collect_settles options chunks

/-- The number `12` in two chunks: after the first digit more input is asked for, again and again,
and the second is then taken. A reader that starts over collects the number and its end, and of `1.`
the failure behind the point. -/
theorem drains_number :
    let s := (playAll {} [.feed [0x31]]).session
    let g := (Feed.next ⟨s.reader, [0x31]⟩).2
    (∃ q taken, Feed.Visits ⟨s.reader, [0x31]⟩ q ∧ [0x31] = taken ++ q.rest ∧
        q.Ends (Feed.next ⟨s.reader, [0x31]⟩)) ∧
      g.again 2 = ([(.ok .needMore, g), (.ok .needMore, g)], g) ∧
      (∃ r, g.release.feed [0x32] = .ok ⟨r, [0x32]⟩) ∧
      s.reader.reset.collect [[0x31], [0x32]] =
        .ok [.number (.float ⟨0x4028000000000000⟩), .done] ∧
      s.reader.reset.collect [[0x31], [], [0x2e]] = .error (.parse ⟨.unexpectedEnd, ⟨1, 3⟩⟩) := by
  intro s g
  obtain ⟨attached, settles⟩ := drains {} [.feed [0x31]]
  obtain ⟨ends, -, waits⟩ := attached [0x31] (by decide)
  obtain ⟨-, -, again, feeds⟩ := waits g (by decide)
  refine ⟨ends (by decide) (by decide), again 2, feeds [0x32], ?_, ?_⟩
  · have ended : (({} : Reader).run [[0x31], [0x32], []]).2.failure = none := by decide +kernel
    have told : (Call.reports (({} : Reader).run [[0x31], [0x32], []]).1.flatten).map Prod.fst =
        [.number (.float ⟨0x4028000000000000⟩), .done].map .ok := by decide +kernel
    rcases settles _ (.inr rfl) [[0x31], [0x32]] with
      ⟨e, failed, -⟩ | ⟨-, tokens, collected, -, -, reports⟩
    · cases ended.symm.trans failed
    · have same := List.map_injective_iff.2 (fun _ _ => Except.ok.inj) (told.symm.trans reports)
      rw [same]
      exact collected
  · have ended : (({} : Reader).run [[0x31], [0x2e], []]).2.failure =
        some ⟨.unexpectedEnd, ⟨1, 3⟩⟩ := by decide +kernel
    rcases settles _ (.inr rfl) [[0x31], [], [0x2e]] with ⟨e, failed, refused⟩ | ⟨alive, -⟩
    · cases ended.symm.trans failed
      exact refused
    · cases ended.symm.trans alive

end Transcript

end JsonStream
