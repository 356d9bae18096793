import JsonStream.Proofs.Transcript

/-!
# The feed protocol

When a chunk is taken, and what a failure, the end of the document and a reset mean for all that
comes after, follows from what the caller was told since the last reset.

* `Transcript.Kept.reply_feed`: a chunk is taken unless the record gives a reason to refuse it.
* `Session.Halts.foldl`: after a failure nothing changes until the reader is reset.
* `Session.Rests.foldl`: nor does anything after the end of the document.
* `Session.report_reset`: a reader that starts over is a new one.
* `Transcript.protocol`: all of it, after any moves.
-/

namespace JsonStream

/-- What the caller can see of a reader between moves. -/
structure View where
  position : Position
  depth : Nat
  /-- How many bytes of the attached chunk are unread. -/
  remaining : Option Nat
  failure : Option ParseError
deriving DecidableEq

namespace Session

/-- What the caller can see. -/
def view (s : Session) : View where
  position := s.reader.position
  depth := s.reader.depth
  remaining := s.chunk?.map List.length
  failure := s.reader.failure

/-- What some moves give back, each with what can be seen then. -/
def report (s : Session) : List Move → List (Reply × View)
  | [] => []
  | move :: later => (s.reply move, (s.play move).view) :: (s.play move).report later

end Session

/-! ### When a chunk is taken -/

/-- Why a reader refuses a chunk, whatever the chunk is. -/
def Reader.refusal (r : Reader) : Option FeedError :=
  match r.failure with
  | some e => some (.failed e)
  | none =>
    if 0 < r.unread then some (.unconsumed r.unread)
    else if r.closed then some .closed
    else none

theorem Reader.feed_eq (r : Reader) (chunk : Bytes) :
    r.feed chunk =
      match r.refusal with
      | some refusal => .error refusal
      | none => .ok ⟨r.attach chunk, chunk⟩ := by
  obtain ⟨options, frames, root, lexeme, carry, position, closed, unread, _ | e⟩ := r
  · rw [feed, refusal]
    dsimp only
    split_ifs <;> rfl
  · rfl

namespace Transcript

variable {options : ReaderOptions} {t : Transcript}

/-- The reader refuses chunks for the reasons that the record gives, and for no others. -/
theorem Kept.refusal_eq (h : t.Kept options) : t.session.reader.refusal = t.refusal := by
  rw [Reader.refusal, refusal, h.failure, h.leftOver]
  cases t.failure with
  | some e => rfl
  | none =>
    dsimp only
    by_cases closed : [] ∈ t.chunks
    · rw [if_pos closed, if_pos (h.closed.2 closed)]
    · rw [if_neg closed, if_neg fun ended => closed (h.closed.1 ended)]

/-- **A chunk is taken unless the record gives a reason to refuse it**, and a refusal changes
nothing. -/
theorem Kept.reply_feed (h : t.Kept options) (detached : t.session.chunk? = none) (chunk : Bytes) :
    t.session.reply (.feed chunk) = .fed chunk t.refusal ∧
      (t.refusal = none → (t.session.play (.feed chunk)).chunk? = some chunk) ∧
      (t.refusal ≠ none → (t.session.play (.feed chunk)).reader = t.session.reader ∧
        (t.session.play (.feed chunk)).chunk? = none) := by
  have fed := t.session.reader.feed_eq chunk
  rw [h.refusal_eq] at fed
  rw [Session.reply, Session.play, detached]
  dsimp only
  cases reason : t.refusal with
  | none =>
    rw [reason] at fed
    rw [fed]
    exact ⟨rfl, fun _ => rfl, fun refused => absurd rfl refused⟩
  | some refusal =>
    rw [reason] at fed
    rw [fed]
    refine ⟨rfl, (fun same => by cases same), fun _ => ?_⟩
    cases refusal with
    | failed e => exact ⟨rfl, rfl⟩
    | unconsumed | closed => exact ⟨rfl, detached⟩

end Transcript

/-! ### After a failure -/

namespace Session

variable {s s' : Session} {rest : Bytes} {e : ParseError}

/-- `s'` is where `s` was halted by a failure; the chunk may have been detached since. -/
structure Halts (e : ParseError) (s s' : Session) : Prop where
  reader : s'.reader = { s.reader with unread := s'.reader.unread }
  failure : s'.reader.failure = some e
  chunk : s'.chunk? ≠ none → s'.chunk? = s.chunk?

theorem Halts.of_eq (failed : s.reader.failure = some e) (reader : s'.reader = s.reader)
    (chunk : s'.chunk? = s.chunk?) : Halts e s s' :=
  ⟨by rw [reader], by rw [reader, failed], fun _ => chunk⟩

theorem Halts.trans {last : Session} (first : Halts e s s') (second : Halts e s' last) :
    Halts e s last where
  reader := by rw [second.reader, first.reader]
  failure := second.failure
  chunk attached := by
    have same := second.chunk attached
    rw [same] at attached ⊢
    exact first.chunk attached

theorem halts_play (failed : s.reader.failure = some e) {move : Move} (other : move ≠ .reset) :
    Halts e s (s.play move) := by
  cases attached : s.chunk? with
  | none =>
    cases move with
    | feed chunk =>
      have refused : s.reader.feed chunk = .error (.failed e) := by rw [Reader.feed, failed]
      have same : s.play (.feed chunk) = { s with errors := s.errors ++ [e.code] } := by
        rw [play, attached]
        dsimp only
        rw [refused]
      rw [same]
      exact .of_eq failed rfl rfl
    | reset => exact absurd rfl other
    | next | drive | release =>
      rw [play, attached]
      exact .of_eq failed rfl rfl
  | some rest =>
    have answer : Feed.next ⟨s.reader, rest⟩ = (.error e, ⟨s.reader, rest⟩) :=
      Feed.next_of_failure failed
    cases move with
    | feed chunk =>
      rw [play, attached]
      exact .of_eq failed rfl rfl
    | next =>
      rw [play, attached]
      dsimp only
      rw [answer]
      exact .of_eq failed rfl attached.symm
    | drive v state =>
      rw [play, attached]
      dsimp only
      rw [Feed.drive_of_error answer]
      exact .of_eq failed rfl attached.symm
    | release =>
      rw [play, attached]
      exact ⟨rfl, failed, fun still => absurd rfl still⟩
    | reset => exact absurd rfl other

/-- **After a failure nothing changes** until the reader is reset. -/
theorem Halts.foldl (failed : s.reader.failure = some e) (later : List Move)
    (others : ∀ move ∈ later, move ≠ .reset) : Halts e s (later.foldl play s) := by
  induction later generalizing s with
  | nil => exact .of_eq failed rfl rfl
  | cons move later ih =>
    have halts := halts_play failed (others move List.mem_cons_self)
    exact halts.trans (ih halts.failure fun m mem => others m (List.mem_cons_of_mem _ mem))

/-- What can be seen of a halted reader, apart from the chunk, is what could be seen before. -/
theorem Halts.view_eq (h : Halts e s s') :
    s'.view = { s.view with remaining := s'.view.remaining } := by
  rw [view, view, h.reader]
  rfl

/-- The failure is answered to every call and to every drive. -/
theorem Halts.reply_eq (h : Halts e s s') (attached : s'.chunk? ≠ none) :
    s'.reply .next = .told (.error e) ∧
      ∀ {ε σ : Type} (v : Visitor ε σ) (state : σ),
        s'.reply (.drive v state) =
          .driven (.error (.parse e) : Except (DriveError ε) Progress) state := by
  obtain ⟨rest, attached⟩ := Option.ne_none_iff_exists'.1 attached
  have answer : Feed.next ⟨s'.reader, rest⟩ = (.error e, ⟨s'.reader, rest⟩) :=
    Feed.next_of_failure h.failure
  refine ⟨?_, fun v state => ?_⟩
  · rw [reply, attached]
    dsimp only
    rw [answer]
  · rw [reply, attached]
    dsimp only
    rw [Feed.drive_of_error answer]

/-! ### After the end of the document -/

/-- The end of the document has been reported. -/
structure Ended (s : Session) : Prop where
  root : s.reader.root = .done
  failure : s.reader.failure = none
  closed : s.reader.closed = true

/-- `s'` is where `s` came to rest, or the chunk has been detached, and no other one is taken. -/
def Rests (s s' : Session) : Prop :=
  (s'.reader = s.reader ∧ s'.chunk? = s.chunk?) ∨
    s'.chunk? = none ∧ s'.reader.closed = true

theorem drive_feed_of_done {ε σ : Type} {f : Feed} (answer : f.next = (.ok .done, f))
    (v : Visitor ε σ) (state : σ) : (f.drive v state).feed = f := by
  cases visit : v.visit .done state with
  | ok _ state' => rw [Feed.drive_of_last answer visit nofun]
  | error e state' => rw [Feed.drive_of_stop answer visit]

theorem Ended.rests_play (h : s.Ended) (attached : s.chunk? = some rest) {move : Move}
    (other : move ≠ .reset) : Rests s (s.play move) := by
  have answer : Feed.next ⟨s.reader, rest⟩ = (.ok .done, ⟨s.reader, rest⟩) :=
    Feed.next_of_done h.failure h.root
  cases move with
  | feed chunk =>
    rw [play, attached]
    exact .inl ⟨rfl, rfl⟩
  | next =>
    rw [play, attached]
    dsimp only
    rw [answer]
    exact .inl ⟨rfl, attached.symm⟩
  | drive v state =>
    have driven := drive_feed_of_done answer v.logged (state, [])
    rw [play, attached]
    refine .inl ⟨congrArg Feed.reader driven, ?_⟩
    rw [attached]
    exact congrArg (some ∘ Feed.rest) driven
  | release =>
    rw [play, attached]
    exact .inr ⟨rfl, h.closed⟩
  | reset => exact absurd rfl other

/-- A closed reader takes no chunk. -/
theorem detached_play (detached : s.chunk? = none) (closed : s.reader.closed = true) {move : Move}
    (other : move ≠ .reset) : (s.play move).chunk? = none ∧ (s.play move).reader.closed = true := by
  cases move with
  | feed chunk =>
    rw [play, detached]
    dsimp only
    cases fed : s.reader.feed chunk with
    | ok f =>
      obtain ⟨-, -, opened, -⟩ := Reader.feed_eq_ok fed
      rw [closed] at opened
      contradiction
    | error refusal =>
      cases refusal with
      | failed e => exact ⟨rfl, closed⟩
      | unconsumed | closed => exact ⟨detached, closed⟩
  | reset => exact absurd rfl other
  | next | drive | release =>
    rw [play, detached]
    exact ⟨detached, closed⟩

/-- **After the end of the document nothing changes** while the chunk is attached. -/
theorem Ended.rests_foldl (h : s.Ended) (attached : s.chunk? = some rest) (later : List Move)
    (others : ∀ move ∈ later, move ≠ .reset) : Rests s (later.foldl play s) := by
  have keeps (s' : Session) (rests : Rests s s') : Rests s (later.foldl play s') := by
    induction later generalizing s' with
    | nil => exact rests
    | cons move later ih =>
      have other := others move List.mem_cons_self
      refine ih (fun m mem => others m (List.mem_cons_of_mem _ mem)) _ ?_
      rcases rests with ⟨reader, chunk⟩ | ⟨detached, closed⟩
      · have ended : s'.Ended := by
          refine ⟨?_, ?_, ?_⟩ <;> rw [reader]
          · exact h.root
          · exact h.failure
          · exact h.closed
        rcases ended.rests_play (chunk.trans attached) other with ⟨reader', chunk'⟩ | still
        · exact .inl ⟨reader'.trans reader, chunk'.trans chunk⟩
        · exact .inr still
      · exact .inr (detached_play detached closed other)
  exact keeps s (.inl ⟨rfl, rfl⟩)

/-- What has been reported of the end of the document, the reader remembers. -/
structure Marked (s : Session) : Prop where
  steady : ∀ rest, s.chunk? = some rest → Feed.Steady ⟨s.reader, rest⟩
  done : .done ∈ s.tokens → s.reader.root = .done ∧ s.reader.failure = none

/-- A call leaves the reader ready for the next one, and at the end of the document if it reports
that. -/
theorem marked_attached {f g : Feed} {tokens : List Token} {errors : List ErrorCode}
    {refusal : Option ParseError} (leads : f.Leads g refusal)
    (done : .done ∈ tokens → g.reader.root = .done ∧ g.reader.failure = none) :
    (attached g tokens errors).Marked := by
  refine ⟨fun rest at_chunk => ?_, done⟩
  cases at_chunk
  exact leads.steady

theorem Marked.next (h : s.Marked) : (s.play .next).Marked := by
  cases at_chunk : s.chunk? with
  | none =>
    rw [play, at_chunk]
    exact h
  | some rest =>
    have steady := h.steady rest at_chunk
    have leads := steady.leads_next
    -- Once the end has been reported, a call changes nothing.
    have before : ∀ g, (Feed.next ⟨s.reader, rest⟩).2 = g → .done ∈ s.tokens →
        g.reader.root = .done ∧ g.reader.failure = none := by
      intro g same mem
      obtain ⟨root, failure⟩ := h.done mem
      rw [Feed.next_of_done failure root] at same
      subst same
      exact ⟨root, failure⟩
    rw [eq_attached at_chunk]
    cases answer : Feed.next ⟨s.reader, rest⟩ with
    | mk result g =>
      rw [answer] at leads before
      cases result with
      | ok token =>
        rw [play_next_ok answer]
        refine marked_attached leads fun mem => ?_
        rcases List.mem_append.1 mem with old | new
        · exact before g rfl old
        · cases token with
          | done => exact ⟨steady.root_eq_done answer, leads.failure⟩
          | needMore => contradiction
          | _ => cases List.mem_singleton.1 new
      | error e =>
        rw [play_next_error answer]
        exact marked_attached leads (before g rfl)

theorem Marked.ask (h : s.Marked) (n : Nat) : (s.ask n).Marked := by
  induction n generalizing s with
  | zero => exact h
  | succ n ih => exact ih h.next

/-- Every move keeps the end of the document in mind, until the reader is reset. -/
theorem Marked.play (h : s.Marked) (move : Move)
    (steady : ∀ rest, (s.play move).chunk? = some rest →
      Feed.Steady ⟨(s.play move).reader, rest⟩) : (s.play move).Marked := by
  cases move with
  | feed chunk =>
    refine ⟨steady, ?_⟩
    rw [Session.play]
    cases s.chunk? with
    | some rest => exact h.done
    | none =>
      dsimp only
      cases fed : s.reader.feed chunk with
      | ok f =>
        obtain ⟨-, -, -, rfl⟩ := Reader.feed_eq_ok fed
        show .done ∈ s.tokens ++ [] → _
        rw [List.append_nil]
        exact h.done
      | error refusal => cases refusal <;> exact h.done
  | next => exact h.next
  | drive v state =>
    obtain ⟨n, asked⟩ := s.play_drive v state
    rw [asked]
    exact h.ask n
  | release =>
    refine ⟨steady, ?_⟩
    rw [Session.play]
    cases s.chunk? with
    | none => exact h.done
    | some rest => exact h.done
  | reset => exact ⟨steady, fun mem => absurd mem List.not_mem_nil⟩

end Session

theorem Transcript.marked_playAll (options : ReaderOptions) (moves : List Move) :
    (playAll options moves).session.Marked := by
  refine playAll_induction (P := fun t => t.session.Marked) ⟨nofun, nofun⟩ ?_ moves
  intro t move kept marked
  have steady := (kept.play move).steady
  rw [session_play] at steady ⊢
  exact marked.play move steady

/-! ### Starting over -/

namespace Session

variable {s s' : Session}

/-- Only the reader and the chunk decide what a move gives back and where it leads. -/
theorem reply_congr (reader : s.reader = s'.reader) (chunk : s.chunk? = s'.chunk?) (move : Move) :
    s.reply move = s'.reply move ∧ (s.play move).reader = (s'.play move).reader ∧
      (s.play move).chunk? = (s'.play move).chunk? := by
  obtain ⟨r, chunk?, tokens, errors⟩ := s
  obtain ⟨r', chunk?', tokens', errors'⟩ := s'
  cases reader
  cases chunk
  refine ⟨rfl, ?_⟩
  cases move with
  | feed bytes =>
    cases chunk? with
    | some rest => exact ⟨rfl, rfl⟩
    | none =>
      simp only [play]
      rcases r.feed bytes with (e | n | _) | f <;> exact ⟨rfl, rfl⟩
  | next =>
    cases chunk? with
    | none => exact ⟨rfl, rfl⟩
    | some rest =>
      simp only [play]
      rcases Feed.next ⟨r, rest⟩ with ⟨e | token, g⟩ <;> exact ⟨rfl, rfl⟩
  | drive v state => cases chunk? <;> exact ⟨rfl, rfl⟩
  | release => cases chunk? <;> exact ⟨rfl, rfl⟩
  | reset => exact ⟨rfl, rfl⟩

theorem report_congr (reader : s.reader = s'.reader) (chunk : s.chunk? = s'.chunk?)
    (later : List Move) : s.report later = s'.report later := by
  induction later generalizing s s' with
  | nil => rfl
  | cons move later ih =>
    obtain ⟨reply, reader, chunk⟩ := reply_congr reader chunk move
    rw [report, report, reply, ih reader chunk, view, view, reader, chunk]

/-- **A reader that starts over is a new one** with the same options: all that follows gives back
the same. -/
theorem report_reset (s : Session) (later : List Move) :
    (s.play .reset).report later =
      ({ reader := { options := s.reader.options } } : Session).report later :=
  @report_congr (s.play .reset) { reader := { options := s.reader.options } } rfl rfl later

end Session

/-! ### After any moves -/

namespace Transcript

/-- **The feed protocol.** After any moves: a chunk is taken if and only if no call has failed, the
last chunk was used up when it was detached, and no empty chunk was taken, all since the last reset;
otherwise it is refused for the first reason that applies, and nothing changes. After a failure
every call and drive answers the same failure, and what can be seen stays as it is until the reader
is reset. After the end of the document every call answers the end again, and nothing changes while the
chunk is attached. After a reset all that follows is as with a new reader. -/
theorem protocol (options : ReaderOptions) (moves : List Move) :
    let t := playAll options moves
    let s := t.session
    (s.chunk? = none → ∀ chunk, s.reply (.feed chunk) = .fed chunk t.refusal ∧
      (t.refusal = none → (s.play (.feed chunk)).chunk? = some chunk) ∧
      (t.refusal ≠ none → (s.play (.feed chunk)).reader = s.reader ∧
        (s.play (.feed chunk)).chunk? = none)) ∧
    (∀ e, t.failure = some e → ∀ later : List Move, (∀ move ∈ later, move ≠ .reset) →
      let s' := later.foldl Session.play s
      s'.view = { s.view with remaining := s'.view.remaining } ∧ s'.view.failure = some e ∧
        (s'.chunk? ≠ none → s'.chunk? = s.chunk? ∧ s'.reply .next = .told (.error e) ∧
          ∀ {ε σ : Type} (v : Visitor ε σ) (state : σ), s'.reply (.drive v state) =
            .driven (.error (.parse e) : Except (DriveError ε) Progress) state)) ∧
    (.done ∈ s.tokens → s.chunk? ≠ none → ∀ later : List Move, (∀ move ∈ later, move ≠ .reset) →
      let s' := later.foldl Session.play s
      s'.chunk? ≠ none → s'.reader = s.reader ∧ s'.chunk? = s.chunk? ∧
        s'.reply .next = .told (.ok .done)) ∧
    ∀ later, (s.play .reset).report later = ({ reader := { options } } : Session).report later := by
  intro t s
  have kept := kept_playAll options moves
  have marked := marked_playAll options moves
  refine ⟨kept.reply_feed, ?_, ?_, ?_⟩
  · intro e failed later others s'
    have halts := Session.Halts.foldl (kept.failure.trans failed) later others
    refine ⟨halts.view_eq, halts.failure, fun attached => ?_⟩
    exact ⟨halts.chunk attached, halts.reply_eq attached⟩
  · intro done attached later others s' attached'
    obtain ⟨rest, at_chunk⟩ := Option.ne_none_iff_exists'.1 attached
    obtain ⟨root, failure⟩ := marked.done done
    have ended : s.Ended := ⟨root, failure, (kept.steady rest at_chunk).ended root⟩
    rcases ended.rests_foldl at_chunk later others with ⟨reader, chunk⟩ | ⟨detached, -⟩
    · refine ⟨reader, chunk, ?_⟩
      have answer : Feed.next ⟨s.reader, rest⟩ = (.ok .done, ⟨s.reader, rest⟩) :=
        Feed.next_of_done failure root
      rw [(Session.reply_congr reader chunk .next).1, Session.reply, at_chunk]
      dsimp only
      rw [answer]
    · exact absurd detached attached'
  · intro later
    have fresh := s.report_reset later
    rw [kept.options] at fresh
    exact fresh

/-- A letter is refused, and so is every chunk after it. After `[]` and the end of input every call
answers the end again. -/
theorem protocol_runs :
    let failed : List Move := [.feed [0x78], .next, .release]
    let ended : List Move :=
      [.feed [Byte.openBracket, Byte.closeBracket], .next, .next, .next, .release, .feed [], .next]
    let e : ParseError := ⟨.unexpectedCharacter, {}⟩
    (playAll {} failed).session.reply (.feed [Byte.quote]) = .fed [Byte.quote] (some (.failed e)) ∧
      (([.next] : List Move).foldl Session.play (playAll {} failed).session).view.failure = some e ∧
      (([.next] : List Move).foldl Session.play (playAll {} ended).session).reply .next =
        .told (.ok .done) := by
  intro failed ended e
  obtain ⟨feed, halted, -, -⟩ := protocol {} failed
  obtain ⟨-, -, finished, -⟩ := protocol {} ended
  have refusal : (playAll {} failed).refusal = some (.failed e) := by decide
  have failure : (playAll {} failed).failure = some e := by decide
  have tokens : (playAll {} ended).session.tokens = [.beginArray, .endArray, .done] := by decide
  have done : .done ∈ (playAll {} ended).session.tokens := by
    rw [tokens]
    exact .tail _ (.tail _ (.head _))
  have answer := (feed (by decide) [Byte.quote]).1
  rw [refusal] at answer
  refine ⟨answer, (halted e failure [.next] (by simp)).2.1, ?_⟩
  exact (finished done (by decide) [.next] (by simp) (by decide)).2.2

end Transcript

end JsonStream
