import JsonStream.Proofs.Driving
import JsonStream.Proofs.Machine.Visits

/-!
# What a caller remembers

A caller of a reader knows which chunks were taken, which calls failed, and how much of a chunk was
unread when it was detached. A `Transcript` keeps the replies to all moves since the last reset, and
the bytes that were consumed. It is a record beside the session: no move depends on it.

* `Transcript.moves_play`: what one move does, in terms of the feed and of the record.
* `Transcript.Kept`: the flags of the reader say what the record says.
-/

namespace JsonStream

/-- What a move gives back to the caller. -/
inductive Reply : Type 1 where
  /-- The chunk is attached, or refused for a reason. -/
  | fed (chunk : Bytes) (refusal : Option FeedError)
  | told (answer : Except ParseError Token)
  | driven {ε σ : Type} (outcome : Except (DriveError ε) Progress) (state : σ)
  /-- The chunk is detached with as many bytes unread. -/
  | released (remaining : Nat)
  | nothing

namespace Reply

/-- The failure of the reader that the caller is told. -/
def failure : Reply → Option ParseError
  | .told (.error e) => some e
  | .driven (.error (.parse e)) _ => some e
  | _ => none

/-- The chunk that is taken. -/
def accepted : Reply → Option Bytes
  | .fed chunk none => some chunk
  | _ => none

/-- How much of a chunk is unread when it is detached. -/
def leftOver : Reply → Option Nat
  | .released remaining => some remaining
  | _ => none

end Reply

namespace Session

/-- What a move gives back; it is nothing if the move is impossible. -/
def reply (s : Session) : Move → Reply
  | .feed chunk =>
    match s.chunk? with
    | some _ => .nothing
    | none =>
      match s.reader.feed chunk with
      | .ok _ => .fed chunk none
      | .error refusal => .fed chunk (some refusal)
  | .next =>
    match s.chunk? with
    | some rest => .told (Feed.next ⟨s.reader, rest⟩).1
    | none => .nothing
  | .drive v state =>
    match s.chunk? with
    | some rest =>
      let driven := Feed.drive v state ⟨s.reader, rest⟩
      .driven driven.outcome driven.state
    | none => .nothing
  | .release =>
    match s.chunk? with
    | some rest => .released rest.length
    | none => .nothing
  | .reset => .nothing

section
variable {s : Session} {rest : Bytes}

theorem reply_next (attached : s.chunk? = some rest) :
    s.reply .next = .told (Feed.next ⟨s.reader, rest⟩).1 := by
  rw [reply, attached]

theorem reply_drive {ε σ : Type} (attached : s.chunk? = some rest) (v : Visitor ε σ) (state : σ) :
    s.reply (.drive v state) =
      .driven (Feed.drive v state ⟨s.reader, rest⟩).outcome
        (Feed.drive v state ⟨s.reader, rest⟩).state := by
  rw [reply, attached]

/-- A call leads to the feed that it leaves behind. -/
theorem feed_next (attached : s.chunk? = some rest) :
    (s.play .next).reader = (Feed.next ⟨s.reader, rest⟩).2.reader ∧
      (s.play .next).chunk? = some (Feed.next ⟨s.reader, rest⟩).2.rest := by
  rw [play, attached]
  dsimp only
  generalize Feed.next ⟨s.reader, rest⟩ = call
  obtain ⟨_ | _, g⟩ := call <;> exact ⟨rfl, rfl⟩

/-- So does a drive. -/
theorem feed_drive {ε σ : Type} (attached : s.chunk? = some rest) (v : Visitor ε σ) (state : σ) :
    (s.play (.drive v state)).reader = (Feed.drive v state ⟨s.reader, rest⟩).feed.reader ∧
      (s.play (.drive v state)).chunk? = some (Feed.drive v state ⟨s.reader, rest⟩).feed.rest := by
  obtain ⟨log, logged⟩ := Feed.exists_drive_logged v state ⟨s.reader, rest⟩ []
  rw [play, attached]
  dsimp only
  rw [logged]
  exact ⟨rfl, rfl⟩

end

/-- The bytes of the attached chunk that a move leaves behind. -/
def taken (s : Session) (move : Move) : Bytes :=
  match s.chunk?, (s.play move).chunk? with
  | some rest, some later => rest.take (rest.length - later.length)
  | _, _ => []

end Session

/-- A session with the record of its moves since the last reset. -/
structure Transcript where
  session : Session
  replies : List Reply := []
  /-- The bytes consumed, across all chunks. -/
  taken : Bytes := []

namespace Transcript

/-- Makes a move and records it. -/
def play (t : Transcript) : Move → Transcript
  | .reset => { session := t.session.play .reset }
  | move =>
    { session := t.session.play move
      replies := t.replies ++ [t.session.reply move]
      taken := t.taken ++ t.session.taken move }

/-- The transcript of some moves of a new reader. -/
def playAll (options : ReaderOptions) (moves : List Move) : Transcript :=
  moves.foldl play { session := { reader := { options } } }

theorem session_play (t : Transcript) (move : Move) :
    (t.play move).session = t.session.play move := by
  cases move <;> rfl

/-- The record changes nothing. -/
theorem session_playAll (options : ReaderOptions) (moves : List Move) :
    (playAll options moves).session = Session.playAll options moves := by
  have same (t : Transcript) :
      (moves.foldl play t).session = moves.foldl Session.play t.session := by
    induction moves generalizing t with
    | nil => rfl
    | cons move moves ih => rw [List.foldl_cons, ih, session_play, List.foldl_cons]
  exact same _

/-! ### Questions to the record -/

/-- The first failure that the caller was told. -/
def failure (t : Transcript) : Option ParseError :=
  t.replies.findSome? Reply.failure

/-- The chunks that were taken. -/
def chunks (t : Transcript) : List Bytes :=
  t.replies.filterMap Reply.accepted

/-- How much of the last chunk was unread when it was detached. -/
def leftOver (t : Transcript) : Nat :=
  (t.replies.filterMap Reply.leftOver).getLast?.getD 0

/-- Why no further chunk is taken, if none is: the document was refused, bytes would be lost, or the
input has ended. -/
def refusal (t : Transcript) : Option FeedError :=
  match t.failure with
  | some e => some (.failed e)
  | none =>
    if 0 < t.leftOver then some (.unconsumed t.leftOver)
    else if [] ∈ t.chunks then some .closed
    else none

end Transcript

/-! ### One move -/

/-- Why a drive fails, if the reader does. -/
def Driven.refusal {ε σ : Type} (driven : Driven ε σ) : Option ParseError :=
  match driven.outcome with
  | .error (.parse e) => some e
  | .error (.visitor _) | .ok _ => none

namespace Feed

theorem Leads.trans {f g h : Feed} {first second : Option ParseError} (begin : f.Leads g first)
    (rest : g.Leads h second) : f.Leads h second := by
  refine ⟨begin.passes.trans rest.passes, rest.steady, rest.failure, fun e failed => ?_⟩
  have same := begin.stuck e failed
  subst same
  exact rest.stuck e failed

/-- After a failure nothing changes. -/
theorem after_of_failure {f : Feed} {e : ParseError} (h : f.reader.failure = some e) (n : Nat) :
    f.after n = f := by
  induction n with
  | zero => rfl
  | succ n ih => rw [after_succ, next_of_failure h, ih]

/-- If some calls have not failed, nothing had failed before. -/
theorem alive_of_after {f : Feed} {n : Nat} (h : (f.after n).reader.failure = none) :
    f.reader.failure = none := by
  cases failed : f.reader.failure with
  | none => rfl
  | some e =>
    rw [after_of_failure failed] at h
    exact failed.symm.trans h

theorem Steady.after {f : Feed} (h : f.Steady) (n : Nat) : (f.after n).Steady := by
  induction n generalizing f with
  | zero => exact h
  | succ n ih => exact ih h.leads_next.steady

/-- **Driving**, as calls do, keeps the place of the reader, and it fails if and only if the reader
does. -/
theorem Steady.leads_drive {ε σ : Type} {f : Feed} (h : f.Steady) (v : Visitor ε σ) (s : σ) :
    f.Leads (f.drive v s).feed (f.drive v s).refusal := by
  fun_induction drive v s f with
  | case1 s f e g answer =>
    have leads := h.leads_next
    rw [answer] at leads
    exact leads
  | case2 s f token g answer e next visit =>
    have leads := h.leads_next
    rw [answer] at leads
    exact leads
  | case3 s f token g answer _ next visit ongoing ih =>
    have leads := h.leads_next
    rw [answer] at leads
    exact leads.trans (ih leads.steady)
  | case4 s f token g answer _ next visit last =>
    have leads := h.leads_next
    rw [answer] at leads
    exact leads

end Feed

namespace Transcript

variable {t : Transcript}

/-- **What a move does.** A chunk is taken or refused, calls lead from one feed to another, the
chunk is detached, the reader starts over, or nothing happens. -/
inductive Moves (t : Transcript) : Transcript → Prop where
  | idle : Moves t { t with replies := t.replies ++ [.nothing] }
  | accepted {s : Session} {chunk : Bytes} {f : Feed} (detached : t.session.chunk? = none)
      (fed : t.session.reader.feed chunk = .ok f) (reader : s.reader = f.reader)
      (attached : s.chunk? = some f.rest) :
      Moves t { t with session := s, replies := t.replies ++ [.fed chunk none] }
  | refused {s : Session} {chunk : Bytes} {refusal : FeedError} (detached : t.session.chunk? = none)
      (fed : t.session.reader.feed chunk = .error refusal) (reader : s.reader = t.session.reader)
      (still : s.chunk? = none) :
      Moves t { t with session := s, replies := t.replies ++ [.fed chunk (some refusal)] }
  | called {s : Session} {rest taken : Bytes} {g : Feed} {reply : Reply}
      (attached : t.session.chunk? = some rest)
      (calls : ∃ n, g = Feed.after ⟨t.session.reader, rest⟩ n)
      (leads : Feed.Leads ⟨t.session.reader, rest⟩ g reply.failure)
      (other : reply.accepted = none ∧ reply.leftOver = none) (bytes : rest = taken ++ g.rest)
      (reader : s.reader = g.reader) (still : s.chunk? = some g.rest) :
      Moves t ⟨s, t.replies ++ [reply], t.taken ++ taken⟩
  | released {s : Session} {rest : Bytes} (attached : t.session.chunk? = some rest)
      (reader : s.reader = Feed.release ⟨t.session.reader, rest⟩) (detached : s.chunk? = none) :
      Moves t { t with session := s, replies := t.replies ++ [.released rest.length] }
  | reset {s : Session} (reader : s.reader = t.session.reader.reset) (detached : s.chunk? = none) :
      Moves t { session := s }

theorem play_of_ne_reset {move : Move} (other : move ≠ .reset) :
    t.play move = ⟨t.session.play move, t.replies ++ [t.session.reply move],
      t.taken ++ t.session.taken move⟩ := by
  cases move with
  | reset => exact absurd rfl other
  | _ => rfl

/-- A move that takes no byte of the chunk. -/
theorem play_of_quiet (move : Move) {reply : Reply} (other : move ≠ .reset)
    (answer : t.session.reply move = reply) (quiet : t.session.taken move = []) :
    t.play move = { t with session := t.session.play move, replies := t.replies ++ [reply] } := by
  rw [play_of_ne_reset other, answer, quiet, List.append_nil]

/-- Nothing happens. -/
theorem moves_idle {move : Move} (other : move ≠ .reset) (still : t.session.play move = t.session)
    (answer : t.session.reply move = .nothing) : t.Moves (t.play move) := by
  have quiet : t.session.taken move = [] := by
    rw [Session.taken, still]
    cases t.session.chunk? with
    | none => rfl
    | some rest =>
      dsimp only
      rw [Nat.sub_self, List.take_zero]
  rw [play_of_quiet move other answer quiet, still]
  exact .idle

theorem moves_feed (t : Transcript) (chunk : Bytes) : t.Moves (t.play (.feed chunk)) := by
  have other : Move.feed chunk ≠ .reset := fun same => by cases same
  cases attached : t.session.chunk? with
  | some rest =>
    have still : t.session.play (.feed chunk) = t.session := by rw [Session.play, attached]
    exact moves_idle other still (by rw [Session.reply, attached])
  | none =>
    have quiet : t.session.taken (.feed chunk) = [] := by rw [Session.taken, attached]
    cases fed : t.session.reader.feed chunk with
    | ok f =>
      have answer : t.session.reply (.feed chunk) = .fed chunk none := by
        rw [Session.reply, attached]
        dsimp only
        rw [fed]
      have next : t.session.play (.feed chunk) = t.session.after f [] [] := by
        rw [Session.play, attached]
        dsimp only
        rw [fed]
      rw [play_of_quiet (.feed chunk) other answer quiet, next]
      exact .accepted attached fed rfl rfl
    | error refusal =>
      have answer : t.session.reply (.feed chunk) = .fed chunk (some refusal) := by
        rw [Session.reply, attached]
        dsimp only
        rw [fed]
      rw [play_of_quiet (.feed chunk) other answer quiet]
      refine .refused attached fed ?_ ?_
      · rw [Session.play, attached]
        dsimp only
        rw [fed]
        cases refusal <;> rfl
      · rw [Session.play, attached]
        dsimp only
        rw [fed]
        cases refusal with
        | failed e => rfl
        | unconsumed | closed => exact attached

/-- Calls on the attached chunk leave behind the bytes that they take. -/
theorem moves_called {move : Move} {rest : Bytes} {g : Feed}
    (attached : t.session.chunk? = some rest) (other : move ≠ .reset)
    (calls : ∃ n, g = Feed.after ⟨t.session.reader, rest⟩ n)
    (leads : Feed.Leads ⟨t.session.reader, rest⟩ g (t.session.reply move).failure)
    (silent : (t.session.reply move).accepted = none ∧ (t.session.reply move).leftOver = none)
    (reader : (t.session.play move).reader = g.reader)
    (still : (t.session.play move).chunk? = some g.rest) : t.Moves (t.play move) := by
  obtain ⟨taken, bytes, -⟩ := leads.passes.taken
  have bytes : rest = taken ++ g.rest := bytes
  have front : t.session.taken move = taken := by
    rw [Session.taken, attached, still]
    dsimp only
    rw [bytes, List.length_append, Nat.add_sub_cancel, List.take_left]
  rw [play_of_ne_reset other, front]
  exact .called attached calls leads silent bytes reader still

theorem moves_play (steady : ∀ rest, t.session.chunk? = some rest →
    Feed.Steady ⟨t.session.reader, rest⟩) (move : Move) : t.Moves (t.play move) := by
  cases move with
  | feed chunk => exact t.moves_feed chunk
  | next =>
    have other : Move.next ≠ .reset := fun same => by cases same
    cases attached : t.session.chunk? with
    | none =>
      have still : t.session.play .next = t.session := by rw [Session.play, attached]
      exact moves_idle other still (by rw [Session.reply, attached])
    | some rest =>
      have leads := (steady rest attached).leads_next
      obtain ⟨reader, still⟩ := Session.feed_next attached
      have calls : ∃ n, (Feed.next ⟨t.session.reader, rest⟩).2 =
          Feed.after ⟨t.session.reader, rest⟩ n := ⟨1, rfl⟩
      refine moves_called attached other calls ?_ ?_ reader still
      · rw [Session.reply_next attached]
        generalize Feed.next ⟨t.session.reader, rest⟩ = call at leads
        obtain ⟨_ | _, g⟩ := call <;> exact leads
      · rw [Session.reply_next attached]
        exact ⟨rfl, rfl⟩
  | drive v state =>
    have other : Move.drive v state ≠ .reset := fun same => by cases same
    cases attached : t.session.chunk? with
    | none =>
      have still : t.session.play (.drive v state) = t.session := by rw [Session.play, attached]
      exact moves_idle other still (by rw [Session.reply, attached])
    | some rest =>
      have leads := (steady rest attached).leads_drive v state
      obtain ⟨reader, still⟩ := Session.feed_drive attached v state
      refine moves_called attached other (Feed.exists_drive_feed v state _) ?_ ?_ reader still
      · rw [Session.reply_drive attached]
        generalize Feed.drive v state ⟨t.session.reader, rest⟩ = driven at leads
        obtain ⟨(_ | _) | _, _, g⟩ := driven <;> exact leads
      · rw [Session.reply_drive attached]
        exact ⟨rfl, rfl⟩
  | release =>
    have other : Move.release ≠ .reset := fun same => by cases same
    cases attached : t.session.chunk? with
    | none =>
      have still : t.session.play .release = t.session := by rw [Session.play, attached]
      exact moves_idle other still (by rw [Session.reply, attached])
    | some rest =>
      have next : t.session.play .release =
          { t.session with reader := Feed.release ⟨t.session.reader, rest⟩, chunk? := none } := by
        rw [Session.play, attached]
      have quiet : t.session.taken .release = [] := by rw [Session.taken, attached, next]
      have answer : t.session.reply .release = .released rest.length := by
        rw [Session.reply, attached]
      rw [play_of_quiet .release other answer quiet]
      refine .released attached ?_ ?_
      · rw [next]
      · rw [next]
  | reset => exact .reset rfl rfl

/-! ### What the flags of the reader say -/

section
variable (t : Transcript) (s : Session) (reply : Reply) (taken : Bytes)

theorem failure_append :
    failure ⟨s, t.replies ++ [reply], taken⟩ = t.failure.or reply.failure := by
  cases h : reply.failure <;> simp [failure, List.findSome?_append, h]

theorem chunks_append :
    chunks ⟨s, t.replies ++ [reply], taken⟩ = t.chunks ++ reply.accepted.toList := by
  cases h : reply.accepted <;> simp [chunks, List.filterMap_append, h]

theorem leftOver_append :
    leftOver ⟨s, t.replies ++ [reply], taken⟩ = reply.leftOver.getD t.leftOver := by
  cases h : reply.leftOver <;> simp [leftOver, List.filterMap_append, h]

end

/-- A reply that takes no chunk adds none. -/
theorem chunks_append_of_quiet {s : Session} {reply : Reply} {taken : Bytes}
    (quiet : reply.accepted = none) : chunks ⟨s, t.replies ++ [reply], taken⟩ = t.chunks := by
  rw [chunks_append, quiet]
  exact List.append_nil _

/-- **The flags of the reader say what the record says**, and between moves it is ready for the next
one. -/
structure Kept (options : ReaderOptions) (t : Transcript) : Prop where
  options : t.session.reader.options = options
  failure : t.session.reader.failure = t.failure
  leftOver : t.session.reader.unread = t.leftOver
  closed : t.session.reader.closed = true ↔ [] ∈ t.chunks
  place : ∀ e, t.session.reader.failure = some e → e.position = t.session.reader.position
  steady : ∀ rest, t.session.chunk? = some rest → Feed.Steady ⟨t.session.reader, rest⟩
  rests : t.session.chunk? = none → t.session.reader.failure = none → t.session.reader.unread = 0 →
    t.session.reader.closed = false →
      t.session.reader.Resting ∧ t.session.reader.machine.Viable

theorem kept_start (options : ReaderOptions) :
    Kept options { session := { reader := { options } } } where
  options := rfl
  failure := rfl
  leftOver := rfl
  closed := ⟨nofun, nofun⟩
  place := nofun
  steady := nofun
  rests _ _ _ _ := ⟨Reader.resting_new options, Machine.viable_new options⟩

end Transcript

namespace Reader

/-- A chunk is taken by a reader that has not failed, has lost no bytes and is not closed. -/
theorem feed_eq_ok {r : Reader} {chunk : Bytes} {f : Feed} (h : r.feed chunk = .ok f) :
    r.failure = none ∧ r.unread = 0 ∧ r.closed = false ∧ f = ⟨r.attach chunk, chunk⟩ := by
  rw [feed] at h
  split at h
  · contradiction
  · split_ifs at h with lost closed
    cases h
    exact ⟨‹_›, by omega, Bool.eq_false_iff.2 closed, rfl⟩

/-- A reader at rest is ready for calls once a chunk is attached. -/
theorem Resting.steady {r : Reader} (h : r.Resting) (viable : r.machine.Viable) (chunk : Bytes) :
    Feed.Steady ⟨r.attach chunk, chunk⟩ where
  aligned := h.aligned_attach chunk
  resumed empty opened := by
    have empty : chunk = [] := empty
    subst empty
    contradiction
  ended done := absurd done h.root
  viable _ := by
    show (r.attach chunk).machine.Viable
    rw [h.machine_attach]
    exact viable
  failure e failed := by
    have failed : r.failure = some e := failed
    rw [h.failure] at failed
    contradiction

end Reader

/-- A reader rests when a chunk is detached that is used up, unless it has failed or is closed. -/
theorem Feed.Steady.resting {f : Feed} (h : f.Steady) (failure : f.reader.failure = none)
    (used : f.rest = []) (opened : f.reader.closed = false) :
    f.release.Resting ∧ f.release.machine.Viable := by
  have root : f.reader.root ≠ .done := fun done => by
    rw [h.ended done] at opened
    contradiction
  refine ⟨⟨failure, opened, ?_, root, h.resumed used opened⟩, h.viable root⟩
  show f.rest.length = 0
  rw [used]
  rfl

namespace Transcript

variable {options : ReaderOptions} {t next : Transcript} {s : Session} {rest chunk taken : Bytes}

theorem Kept.accepted {f : Feed} (h : t.Kept options) (detached : t.session.chunk? = none)
    (fed : t.session.reader.feed chunk = .ok f) (reader : s.reader = f.reader)
    (attached : s.chunk? = some f.rest) :
    Kept options { t with session := s, replies := t.replies ++ [.fed chunk none] } := by
  obtain ⟨failure, unread, opened, rfl⟩ := Reader.feed_eq_ok fed
  obtain ⟨resting, viable⟩ := h.rests detached failure unread opened
  have reader : s.reader = t.session.reader.attach chunk := reader
  have attached : s.chunk? = some chunk := attached
  refine ⟨?_, ?_, ?_, ?_, ?_, ?_, ?_⟩
  · rw [reader]
    exact h.options
  · rw [failure_append, ← h.failure, reader]
    exact Option.or_none.symm
  · rw [leftOver_append, reader]
    exact h.leftOver
  · -- No empty chunk was taken before, so the input has ended if this one is empty.
    have before : [] ∉ t.chunks := fun mem => by
      rw [h.closed.2 mem] at opened
      contradiction
    rw [chunks_append, reader]
    show chunk.isEmpty = true ↔ [] ∈ t.chunks ++ [chunk]
    rw [List.isEmpty_iff, List.mem_append, List.mem_singleton]
    exact ⟨fun empty => .inr empty.symm, fun mem => mem.elim (absurd · before) Eq.symm⟩
  · intro e failed
    rw [reader] at failed ⊢
    exact h.place e failed
  · intro rest attached'
    cases attached.symm.trans attached'
    rw [reader]
    exact resting.steady viable chunk
  · intro detached'
    cases attached.symm.trans detached'

theorem Kept.refused {refusal : FeedError} (h : t.Kept options) (detached : t.session.chunk? = none)
    (reader : s.reader = t.session.reader) (still : s.chunk? = none) :
    Kept options { t with session := s, replies := t.replies ++ [.fed chunk (some refusal)] } := by
  refine ⟨?_, ?_, ?_, ?_, ?_, ?_, ?_⟩
  · rw [reader]
    exact h.options
  · rw [failure_append, ← h.failure, reader]
    exact Option.or_none.symm
  · rw [leftOver_append, reader]
    exact h.leftOver
  · rw [chunks_append_of_quiet rfl, reader]
    exact h.closed
  · rw [reader]
    exact h.place
  · intro rest attached
    cases still.symm.trans attached
  · intro _
    rw [reader]
    exact h.rests detached

theorem Kept.called {g : Feed} {reply : Reply} (h : t.Kept options)
    (leads : Feed.Leads ⟨t.session.reader, rest⟩ g reply.failure)
    (other : reply.accepted = none ∧ reply.leftOver = none) (reader : s.reader = g.reader)
    (still : s.chunk? = some g.rest) : Kept options ⟨s, t.replies ++ [reply], taken⟩ := by
  refine ⟨?_, ?_, ?_, ?_, ?_, ?_, ?_⟩
  · rw [reader, leads.passes.options]
    exact h.options
  · rw [failure_append, ← h.failure, reader]
    cases failed : t.session.reader.failure with
    | none => exact leads.failure
    | some e =>
      rw [leads.stuck e failed]
      exact failed
  · rw [leftOver_append, reader, leads.passes.unread, other.2]
    exact h.leftOver
  · rw [chunks_append_of_quiet other.1, reader, leads.passes.closed]
    exact h.closed
  · intro e failed
    rw [reader] at failed ⊢
    exact leads.steady.failure e failed
  · intro rest' attached
    cases still.symm.trans attached
    rw [reader]
    exact leads.steady
  · intro detached
    cases still.symm.trans detached

theorem Kept.released (h : t.Kept options) (attached : t.session.chunk? = some rest)
    (reader : s.reader = Feed.release ⟨t.session.reader, rest⟩) (detached : s.chunk? = none) :
    Kept options { t with session := s, replies := t.replies ++ [.released rest.length] } := by
  refine ⟨?_, ?_, ?_, ?_, ?_, ?_, ?_⟩
  · rw [reader]
    exact h.options
  · rw [failure_append, ← h.failure, reader]
    exact Option.or_none.symm
  · rw [leftOver_append, reader]
    rfl
  · rw [chunks_append_of_quiet rfl, reader]
    exact h.closed
  · rw [reader]
    exact h.place
  · intro rest' attached'
    cases detached.symm.trans attached'
  · intro _
    rw [reader]
    intro failure unread opened
    exact (h.steady rest attached).resting failure (List.length_eq_zero_iff.1 unread) opened

/-- A reader that starts over is a new one with the same options. -/
theorem Kept.reset (h : t.Kept options) (reader : s.reader = t.session.reader.reset)
    (detached : s.chunk? = none) : Kept options { session := s } := by
  have reader : s.reader = { options } := by rw [reader, Reader.reset, h.options]
  have start := kept_start options
  refine ⟨?_, ?_, ?_, ?_, ?_, ?_, ?_⟩
  · rw [reader]
  · rw [reader]
    rfl
  · rw [reader]
    rfl
  · rw [reader]
    exact start.closed
  · rw [reader]
    exact nofun
  · intro rest attached
    cases detached.symm.trans attached
  · rw [reader]
    exact fun _ => start.rests rfl

theorem Kept.idle (h : t.Kept options) :
    Kept options { t with replies := t.replies ++ [.nothing] } := by
  refine ⟨h.options, ?_, ?_, ?_, h.place, h.steady, h.rests⟩
  · rw [failure_append, ← h.failure]
    exact Option.or_none.symm
  · rw [leftOver_append]
    exact h.leftOver
  · rw [chunks_append_of_quiet rfl]
    exact h.closed

/-- **Every move keeps the flags true.** -/
theorem Kept.moves (h : t.Kept options) (made : t.Moves next) : next.Kept options := by
  cases made with
  | idle => exact h.idle
  | accepted detached fed reader attached => exact h.accepted detached fed reader attached
  | refused detached fed reader still => exact h.refused detached reader still
  | called attached calls leads other bytes reader still => exact h.called leads other reader still
  | released attached reader detached => exact h.released attached reader detached
  | reset reader detached => exact h.reset reader detached

theorem Kept.play (h : t.Kept options) (move : Move) : (t.play move).Kept options :=
  h.moves (moves_play h.steady move)

/-- What every move keeps holds after any moves of a new reader. -/
theorem playAll_induction {P : Transcript → Prop}
    (start : P { session := { reader := { options } } })
    (step : ∀ t move, t.Kept options → P t → P (t.play move)) (moves : List Move) :
    P (playAll options moves) := by
  have all (t : Transcript) (kept : t.Kept options) (h : P t) : P (moves.foldl play t) := by
    induction moves generalizing t with
    | nil => exact h
    | cons move moves ih => exact ih _ (kept.play move) (step t move kept h)
  exact all _ (kept_start options) start

/-- **The flags of the reader always say what the record says.** -/
theorem kept_playAll (options : ReaderOptions) (moves : List Move) :
    (playAll options moves).Kept options :=
  playAll_induction (kept_start options) (fun _ move kept _ => kept.play move) moves

end Transcript

end JsonStream
