import JsonStream.Proofs.Transcript

/-!
# Positions

The consumed bytes are a prefix of the input, and the position of a reader is the place after them.
A failure is at the place where it was raised, and the byte that is refused stays unread.

* `Position.after_eq`: the place after some bytes, counted.
* `Transcript.Measured`: what is consumed and what is unread, chunk by chunk.
* `Feed.Refuses`: the state that a failure is raised in.
* `Transcript.positions_exact`: all of it, after any moves.
-/

namespace JsonStream

/-! ### Counting lines and columns -/

/-- The bytes after the last line feed. -/
def lastLine (bytes : Bytes) : Bytes :=
  (bytes.reverse.takeWhile (· ≠ Byte.lineFeed)).reverse

theorem lastLine_append_lineFeed (bytes : Bytes) : lastLine (bytes ++ [Byte.lineFeed]) = [] := by
  simp [lastLine]

theorem lastLine_append {byte : UInt8} (other : byte ≠ Byte.lineFeed) (bytes : Bytes) :
    lastLine (bytes ++ [byte]) = lastLine bytes ++ [byte] := by
  simp [lastLine, other]

/-- **The place after some bytes**: its line counts the line feeds, its column the bytes after the
last of them. -/
theorem Position.after_eq (bytes : Bytes) :
    ({} : Position).after bytes =
      ⟨1 + bytes.count Byte.lineFeed, 1 + (lastLine bytes).length⟩ := by
  induction bytes using List.reverseRecOn with
  | nil => rfl
  | append_singleton bytes byte ih =>
    rw [after_append, ih, after_cons, after_nil, advance, List.count_append]
    by_cases feed : byte = Byte.lineFeed
    · subst feed
      rw [if_pos rfl, lastLine_append_lineFeed, List.count_singleton_self]
      rfl
    · rw [if_neg feed, lastLine_append feed, List.length_append]
      have none : [byte].count Byte.lineFeed = 0 := by simp [feed]
      rw [none]
      rfl

/-! ### What is consumed -/

namespace Transcript

variable {options : ReaderOptions} {t next : Transcript}

/-- **What is consumed and what is unread make up the input**, and the reader is at the place after
what is consumed. A failure that was told is the one that the reader remembers. -/
structure Measured (t : Transcript) : Prop where
  /-- The attached chunk was consumed up to what is unread, and all before it. -/
  attached : ∀ rest, t.session.chunk? = some rest → ∃ earlier part,
    t.chunks = earlier ++ [part ++ rest] ∧ t.taken = earlier.flatten ++ part
  detached : t.session.chunk? = none → ∃ lost,
    t.chunks.flatten = t.taken ++ lost ∧ lost.length = t.session.reader.unread
  position : t.session.reader.position = ({} : Position).after t.taken
  told : ∀ reply ∈ t.replies, ∀ e, reply.failure = some e → t.session.reader.failure = some e

theorem measured_start (options : ReaderOptions) :
    Measured { session := { reader := { options } } } :=
  ⟨nofun, fun _ => ⟨[], rfl, rfl⟩, rfl, nofun⟩

variable {s : Session} {rest chunk taken : Bytes}

/-- A reply that tells no failure adds none. -/
theorem Measured.told_append (h : t.Measured) {reply : Reply} {failure : Option ParseError}
    (quiet : reply.failure = none) (same : failure = t.session.reader.failure) :
    ∀ told ∈ t.replies ++ [reply], ∀ e, told.failure = some e → failure = some e := by
  intro told mem e failed
  rw [same]
  rcases List.mem_append.1 mem with old | new
  · exact h.told told old e failed
  · cases List.mem_singleton.1 new
    rw [quiet] at failed
    contradiction

theorem Measured.accepted {f : Feed} (h : t.Measured) (detached : t.session.chunk? = none)
    (fed : t.session.reader.feed chunk = .ok f) (reader : s.reader = f.reader)
    (attached : s.chunk? = some f.rest) :
    Measured { t with session := s, replies := t.replies ++ [.fed chunk none] } := by
  obtain ⟨-, unread, -, rfl⟩ := Reader.feed_eq_ok fed
  obtain ⟨lost, input, length⟩ := h.detached detached
  rw [unread] at length
  rw [List.length_eq_zero_iff.1 length, List.append_nil] at input
  refine ⟨?_, ?_, ?_, ?_⟩
  · intro rest attached'
    cases attached.symm.trans attached'
    refine ⟨t.chunks, [], chunks_append t s _ _, ?_⟩
    show t.taken = _
    rw [input, List.append_nil]
  · intro detached'
    cases attached.symm.trans detached'
  · rw [reader]
    exact h.position
  · refine h.told_append rfl ?_
    rw [reader]
    rfl

theorem Measured.refused {refusal : FeedError} (h : t.Measured) (detached : t.session.chunk? = none)
    (reader : s.reader = t.session.reader) (still : s.chunk? = none) :
    Measured { t with session := s, replies := t.replies ++ [.fed chunk (some refusal)] } := by
  refine ⟨?_, ?_, ?_, ?_⟩
  · intro rest attached
    cases still.symm.trans attached
  · intro _
    rw [chunks_append_of_quiet rfl, reader]
    exact h.detached detached
  · rw [reader]
    exact h.position
  · exact h.told_append rfl (congrArg Reader.failure reader)

/-- Calls consume the next bytes of the chunk. -/
theorem Measured.called {g : Feed} {reply : Reply} (h : t.Measured)
    (attached : t.session.chunk? = some rest)
    (leads : Feed.Leads ⟨t.session.reader, rest⟩ g reply.failure)
    (other : reply.accepted = none) (bytes : rest = taken ++ g.rest) (reader : s.reader = g.reader)
    (still : s.chunk? = some g.rest) : Measured ⟨s, t.replies ++ [reply], t.taken ++ taken⟩ := by
  obtain ⟨earlier, part, chunks, before⟩ := h.attached rest attached
  refine ⟨?_, ?_, ?_, ?_⟩
  · intro rest' attached'
    cases still.symm.trans attached'
    refine ⟨earlier, part ++ taken, ?_, ?_⟩
    · rw [chunks_append_of_quiet other, chunks, bytes, List.append_assoc]
    · show t.taken ++ taken = _
      rw [before, List.append_assoc]
  · intro detached
    cases still.symm.trans detached
  · obtain ⟨taken', bytes', position⟩ := leads.passes.taken
    have same : taken' = taken := List.append_cancel_right (bytes'.symm.trans bytes)
    subst same
    show s.reader.position = _
    rw [reader, Position.after_append, ← h.position]
    exact position
  · intro told mem e failed
    show s.reader.failure = some e
    rw [reader]
    rcases List.mem_append.1 mem with old | new
    · have failed := h.told told old e failed
      rw [leads.stuck e failed]
      exact failed
    · cases List.mem_singleton.1 new
      rw [leads.failure]
      exact failed

theorem Measured.released (h : t.Measured) (attached : t.session.chunk? = some rest)
    (reader : s.reader = Feed.release ⟨t.session.reader, rest⟩) (detached : s.chunk? = none) :
    Measured { t with session := s, replies := t.replies ++ [.released rest.length] } := by
  obtain ⟨earlier, part, chunks, before⟩ := h.attached rest attached
  refine ⟨?_, ?_, ?_, ?_⟩
  · intro rest' attached'
    cases detached.symm.trans attached'
  · intro _
    refine ⟨rest, ?_, ?_⟩
    · rw [chunks_append_of_quiet rfl, chunks]
      show _ = t.taken ++ rest
      rw [before, List.flatten_append, List.flatten_singleton, List.append_assoc]
    · rw [reader]
      rfl
  · rw [reader]
    exact h.position
  · refine h.told_append rfl ?_
    rw [reader]
    rfl

/-- **Every move keeps the count.** -/
theorem Measured.moves (h : t.Measured) (made : t.Moves next) : next.Measured := by
  cases made with
  | idle =>
    refine ⟨?_, ?_, h.position, h.told_append rfl rfl⟩
    · rw [chunks_append_of_quiet rfl]
      exact h.attached
    · rw [chunks_append_of_quiet rfl]
      exact h.detached
  | accepted detached fed reader attached => exact h.accepted detached fed reader attached
  | refused detached fed reader still => exact h.refused detached reader still
  | called attached calls leads other bytes reader still =>
    exact h.called attached leads other.1 bytes reader still
  | released attached reader detached => exact h.released attached reader detached
  | @reset s reader detached =>
    refine ⟨?_, fun _ => ⟨[], rfl, ?_⟩, ?_, nofun⟩
    · intro rest attached
      cases detached.symm.trans attached
    · rw [reader]
      rfl
    · rw [reader]
      rfl

theorem measured_playAll (options : ReaderOptions) (moves : List Move) :
    (playAll options moves).Measured :=
  playAll_induction (measured_start options)
    (fun _ move kept h => h.moves (moves_play kept.steady move)) moves

end Transcript

/-! ### Where a failure is raised -/

namespace Feed

variable {f g q : Feed} {call : Call} {e : ParseError}

/-- **The failure is raised in this state**: the next byte is refused, or the input ends too
early. -/
structure Refuses (q : Feed) (e : ParseError) : Prop where
  position : e.position = q.position
  cause : match q.rest with
    | byte :: more => q.reader.step byte more = .fail e.code
    | [] => q.reader.closed = true ∧ q.reader.atEnd = .error e.code

/-- A call that reads comes by this state: the reader has neither failed nor reported the end. -/
structure Reads (f q : Feed) : Prop where
  failure : f.reader.failure = none
  root : f.reader.root ≠ .done
  visits : f.Visits q

/-- A call that fails leaves the offending byte unread. -/
theorem Ends.refuses (h : q.Ends call) (failed : call.1 = .error e) :
    q.Refuses e ∧ call.2.rest = q.rest ∧ call.2.position = q.position := by
  cases h with
  | refused step =>
    obtain rfl := Except.error.inj failed
    exact ⟨⟨rfl, step⟩, rfl, rfl⟩
  | incomplete closed ended =>
    obtain rfl := Except.error.inj failed
    exact ⟨⟨rfl, closed, ended⟩, rfl, rfl⟩
  | emit | emitBefore | suspended | finished => contradiction

theorem exists_refuses (failure : f.reader.failure = none) (answer : f.next = (.error e, g)) :
    f.reader.root ≠ .done ∧
      ∃ q, f.Visits q ∧ q.Refuses e ∧ g.rest = q.rest ∧ g.position = q.position := by
  by_cases root : f.reader.root = .done
  · rw [next_of_done failure root] at answer
    cases answer
  · obtain ⟨q, visits, ends⟩ := exists_ends failure root
    rw [answer] at ends
    exact ⟨root, q, visits, ends.refuses rfl⟩

/-- A drive that fails does so in one of its calls. -/
theorem exists_drive_refuses {ε σ : Type} (h : f.Steady) (failure : f.reader.failure = none)
    (v : Visitor ε σ) (s : σ) (refused : (f.drive v s).refusal = some e) :
    ∃ m, (f.after m).reader.failure = none ∧
      (f.after m).next = (.error e, (f.drive v s).feed) := by
  fun_induction drive v s f with
  | case1 s f e' g answer =>
    cases refused
    exact ⟨0, failure, answer⟩
  | case2 | case4 => contradiction
  | case3 s f token g answer _ next visit ongoing ih =>
    have leads := h.leads_next
    rw [answer] at leads
    obtain ⟨m, before, last⟩ := ih leads.steady leads.failure refused
    refine ⟨m + 1, ?_, ?_⟩
    · rw [after_succ, answer]
      exact before
    · rw [after_succ, answer]
      exact last

end Feed

/-- Whichever move tells a failure, it was raised in a state that the calls on the chunk come by,
and the chunk is unread from there. -/
theorem Session.exists_refuses {s : Session} {e : ParseError}
    (steady : ∀ rest, s.chunk? = some rest → Feed.Steady ⟨s.reader, rest⟩)
    (failure : s.reader.failure = none) (move : Move) (told : (s.reply move).failure = some e) :
    ∃ rest m q, s.chunk? = some rest ∧ (Feed.after ⟨s.reader, rest⟩ m).Reads q ∧ q.Refuses e ∧
      (s.play move).chunk? = some q.rest ∧ (s.play move).reader.position = q.position := by
  cases attached : s.chunk? with
  | none =>
    cases move with
    | feed chunk =>
      rw [reply, attached] at told
      dsimp only at told
      cases fed : s.reader.feed chunk <;> rw [fed] at told <;> contradiction
    | next | drive | release =>
      rw [reply, attached] at told
      contradiction
    | reset => contradiction
  | some rest =>
    cases move with
    | next =>
      obtain ⟨reader, still⟩ := feed_next attached
      rw [reply_next attached] at told
      cases answer : Feed.next ⟨s.reader, rest⟩ with
      | mk result g =>
        rw [answer] at reader still told
        cases result with
        | ok token => contradiction
        | error e' =>
          cases told
          obtain ⟨root, q, visits, refuses, unread, position⟩ :=
            Feed.exists_refuses failure answer
          refine ⟨rest, 0, q, rfl, ⟨failure, root, visits⟩, refuses, ?_, ?_⟩
          · rw [still, unread]
          · rw [reader]
            exact position
    | drive v state =>
      obtain ⟨reader, still⟩ := feed_drive attached v state
      rw [reply_drive attached] at told
      have refused : (Feed.drive v state ⟨s.reader, rest⟩).refusal = some e := by
        generalize Feed.drive v state ⟨s.reader, rest⟩ = driven at told
        obtain ⟨(_ | _) | _, _, g⟩ := driven <;> exact told
      obtain ⟨m, before, last⟩ :=
        Feed.exists_drive_refuses (steady rest attached) failure v state refused
      obtain ⟨root, q, visits, refuses, unread, position⟩ := Feed.exists_refuses before last
      refine ⟨rest, m, q, rfl, ⟨before, root, visits⟩, refuses, ?_, ?_⟩
      · rw [still, unread]
      · rw [reader]
        exact position
    | feed chunk | release =>
      rw [reply, attached] at told
      contradiction
    | reset => contradiction

namespace Transcript

/-- **Positions are exact.** After any moves: the consumed bytes are a prefix of the chunks that
were taken, the rest is what is unread of the attached chunk, or was when the last one was detached. The
line counts the line feeds among the consumed bytes, the column the bytes after the last of them.
Every failure that was told is at the place where the reader is. A move that tells one leaves unread
what was unread in the state that it was raised in, and so the offending byte. -/
theorem positions_exact (options : ReaderOptions) (moves : List Move) :
    let t := playAll options moves
    let s := t.session
    (∃ unread, t.chunks.flatten = t.taken ++ unread ∧
      unread.length = (s.chunk?.map List.length).getD s.reader.unread) ∧
    s.reader.position = ⟨1 + t.taken.count Byte.lineFeed, 1 + (lastLine t.taken).length⟩ ∧
    (∀ rest, s.chunk? = some rest → ∃ earlier chunk part, t.chunks = earlier ++ [chunk] ∧
      chunk = part ++ rest ∧ t.taken = earlier.flatten ++ part ∧
      Feed.remaining ⟨s.reader, rest⟩ = chunk.length - part.length) ∧
    (∀ reply ∈ t.replies, ∀ e, reply.failure = some e → e.position = s.reader.position) ∧
    ∀ move e, s.reader.failure = none → (s.reply move).failure = some e →
      ∃ rest m q, s.chunk? = some rest ∧ (Feed.after ⟨s.reader, rest⟩ m).Visits q ∧ q.Refuses e ∧
        (s.play move).chunk? = some q.rest ∧ (s.play move).reader.position = q.position := by
  intro t s
  have kept := kept_playAll options moves
  have measured := measured_playAll options moves
  refine ⟨?_, ?_, ?_, ?_, ?_⟩
  · cases attached : s.chunk? with
    | none => exact measured.detached attached
    | some rest =>
      obtain ⟨earlier, part, chunks, taken⟩ := measured.attached rest attached
      refine ⟨rest, ?_, rfl⟩
      rw [chunks, taken, List.flatten_append, List.flatten_singleton, List.append_assoc]
  · rw [← Position.after_eq]
    exact measured.position
  · intro rest attached
    obtain ⟨earlier, part, chunks, taken⟩ := measured.attached rest attached
    refine ⟨earlier, part ++ rest, part, chunks, rfl, taken, ?_⟩
    rw [List.length_append, Nat.add_sub_cancel_left]
    rfl
  · intro reply mem e failed
    exact kept.place e (measured.told reply mem e failed)
  · intro move e failure told
    obtain ⟨rest, m, q, attached, reads, raised⟩ :=
      Session.exists_refuses kept.steady failure move told
    exact ⟨rest, m, q, attached, reads.visits, raised⟩

/-- After `[` and a line feed the second line starts with a space, and the letter after it is
refused in column 2. -/
theorem positions_exact_refused :
    let moves : List Move :=
      [.feed [Byte.openBracket, Byte.lineFeed], .next, .next, .release, .feed [Byte.space, 0x78]]
    let s := (playAll {} moves).session
    (s.reply .next).failure = some ⟨.unexpectedCharacter, ⟨2, 2⟩⟩ ∧
      ∃ rest m q, s.chunk? = some rest ∧ (Feed.after ⟨s.reader, rest⟩ m).Visits q ∧
        q.Refuses ⟨.unexpectedCharacter, ⟨2, 2⟩⟩ ∧ (s.play .next).chunk? = some q.rest ∧
        (s.play .next).reader.position = q.position := by
  intro moves s
  have failure : s.reader.failure = none := by decide
  have told : (s.reply .next).failure = some ⟨.unexpectedCharacter, ⟨2, 2⟩⟩ := by decide
  obtain ⟨-, -, -, -, refused⟩ := positions_exact {} moves
  exact ⟨told, refused .next _ failure told⟩

end Transcript

end JsonStream
