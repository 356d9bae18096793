import JsonStream.Proofs.Machine.Calls

/-!
# Chunks

Between chunks a reader rests: all bytes of the scalar in progress are carried. Attaching a chunk to
a resting reader goes on where it stopped, so that what is read from a list of chunks is what its
machine reads from their concatenation.

* `Reader.collect_eq`: what is collected of a document, its tokens or its failure, does not depend on
  its chunks.
-/

namespace JsonStream

namespace Reader

/-- The reader waits for a chunk. -/
structure Resting (r : Reader) : Prop where
  failure : r.failure = none
  opened : r.closed = false
  unread : r.unread = 0
  root : r.root ≠ .done
  resumed : r.Resumed

/-- A new reader waits for its first chunk. -/
theorem resting_new (options : ReaderOptions) : Resting { options } where
  failure := rfl
  opened := rfl
  unread := rfl
  root := nofun
  resumed := trivial

/-- The reader with a chunk attached. -/
def attach (r : Reader) (chunk : Bytes) : Reader :=
  { r with closed := chunk.isEmpty, lexeme := r.lexeme.attach chunk }

namespace Resting

variable {r : Reader}

theorem feed_eq (h : r.Resting) (chunk : Bytes) : r.feed chunk = .ok ⟨r.attach chunk, chunk⟩ := by
  rw [feed]
  split
  · rename_i failed
    rw [h.failure] at failed
    contradiction
  · rw [if_neg (by rw [h.unread]; exact Nat.lt_irrefl 0),
      if_neg (by rw [h.opened]; exact Bool.false_ne_true)]
    rfl

theorem aligned_attach (h : r.Resting) (chunk : Bytes) : (r.attach chunk).Aligned chunk := by
  have resumed := h.resumed
  rw [Resumed] at resumed
  show (r.lexeme.attach chunk).Aligned r.carry chunk
  cases lexeme : r.lexeme with
  | number phase fractional segment =>
    rw [lexeme] at resumed
    exact resumed ▸ Segment.aligned_resume r.carry chunk
  | text utf8 segment =>
    rw [lexeme] at resumed
    exact resumed ▸ Segment.aligned_resume r.carry chunk
  | _ => trivial

theorem live_attach (h : r.Resting) (chunk : Bytes) : (r.attach chunk).Live chunk where
  aligned := h.aligned_attach chunk
  failure := h.failure
  root := h.root

/-- Attaching a chunk changes no byte of the scalar in progress. -/
theorem machine_attach (h : r.Resting) (chunk : Bytes) : (r.attach chunk).machine = r.machine := by
  have resumed := h.resumed
  rw [Resumed] at resumed
  have unfinished : (r.lexeme.attach chunk).unfinished r.carried =
      r.lexeme.unfinished r.carried := by
    cases lexeme : r.lexeme with
    | number phase fractional segment =>
      rw [lexeme] at resumed
      dsimp only at resumed
      rw [resumed]
      rfl
    | text utf8 segment =>
      rw [lexeme] at resumed
      dsimp only at resumed
      rw [resumed]
      rfl
    | _ => rfl
  show Machine.mk r.options r.frames r.root ((r.lexeme.attach chunk).unfinished r.carried) = _
  rw [unfinished]
  rfl

/-- A chunk with bytes in it is read, and may be followed by more. -/
theorem reading_attach (h : r.Resting) {chunk : Bytes} (bytes : chunk ≠ []) :
    (r.attach chunk).reading chunk = r.machine.read r.position chunk := by
  have opened : (r.attach chunk).closed = false := List.isEmpty_eq_false_iff.2 bytes
  rw [reading]
  rw [opened, h.machine_attach, if_neg Bool.false_ne_true]
  rfl

/-- The empty chunk ends the input. -/
theorem reading_attach_nil (h : r.Resting) :
    (r.attach []).reading [] = r.machine.finish r.position := by
  have ended : (r.attach []).closed = true := rfl
  rw [reading]
  rw [if_pos ended, Machine.readAll_nil, h.machine_attach]
  rfl

/-- After a call that asks for more the reader rests. -/
theorem of_ends {call : Call} {closed : Bool} {x : Reading} (ends : call.Ends closed x)
    (more : call.wantsMore = true) : call.2.release.Resting := by
  obtain ⟨rest, live, resumed, opened⟩ := ends.waiting more
  exact ⟨live.failure, opened, congrArg List.length rest, live.root, resumed⟩

end Resting

end Reader

/-! ### Whole documents -/

namespace Reading

/-- What is collected of a reading: its failure, or else its tokens. -/
def collected (x : Reading) : Except ReadError (List Token) :=
  match x.failure with
  | some code => .error (.parse ⟨code, x.position⟩)
  | none => .ok (x.tokens.map Prod.fst)

theorem toOption_collected (x : Reading) : x.collected.toOption = x.accepted? := by
  rw [collected, accepted?]
  cases x.failure <;> rfl

theorem collected_andThen {x : Reading} (h : x.failure = none)
    (next : Machine → Position → Reading) :
    (x.andThen next).collected =
      (next x.machine x.position).collected.map (x.tokens.map Prod.fst ++ ·) := by
  rw [andThen_eq h, collected, collected]
  dsimp only
  cases (next x.machine x.position).failure with
  | some code => rfl
  | none => exact congrArg Except.ok List.map_append

end Reading

namespace Reader

theorem collectFrom_of_failure {r : Reader} {chunk : Bytes} {f : Feed} {closed : Bool}
    {x : Reading} {code : ErrorCode} (feed : r.feed chunk = .ok f) (shows : x.Shows closed f.calls)
    (failure : x.failure = some code) (chunks : List Bytes) :
    r.collectFrom (chunk :: chunks) = x.collected := by
  have tokens := shows.tokens_eq
  rw [failure] at tokens
  rw [collectFrom, feed, Reading.collected, failure]
  simp only [bind, Except.bind, Except.mapError, tokens]

theorem collectFrom_of_end {r : Reader} {chunk : Bytes} {f : Feed} {x : Reading}
    (feed : r.feed chunk = .ok f) (shows : x.Shows true f.calls) (accepted : x.failure = none)
    (chunks : List Bytes) : r.collectFrom (chunk :: chunks) = x.collected := by
  have tokens := shows.tokens_eq
  have done := (shows.getLast?_eq_done_iff accepted).2 rfl
  rw [accepted] at tokens
  rw [collectFrom, feed, Reading.collected, accepted]
  simp only [bind, Except.bind, Except.mapError, tokens, if_pos done]
  rfl

theorem collectFrom_of_more {r : Reader} {chunk : Bytes} {f : Feed} {x : Reading} {last : Call}
    (feed : r.feed chunk = .ok f) (shows : x.Shows false f.calls) (accepted : x.failure = none)
    (at_end : f.calls.getLast? = some last) (chunks : List Bytes) :
    r.collectFrom (chunk :: chunks) =
      (last.2.release.collectFrom chunks).map (x.tokens.map Prod.fst ++ ·) := by
  have tokens := shows.tokens_eq
  have more : ¬(x.tokens.map Prod.fst).getLast? = some .done := fun done =>
    Bool.false_ne_true ((shows.getLast?_eq_done_iff accepted).1 done)
  rw [accepted] at tokens
  rw [collectFrom, feed]
  simp only [bind, Except.bind, Except.mapError, tokens, if_neg more, at_end, Option.map_some,
    Option.getD_some]
  cases last.2.release.collectFrom chunks <;> rfl

/-- **What is collected of some chunks and the end of input is what the machine reads** from their
bytes: its tokens, or its failure. -/
theorem collectFrom_eq {r : Reader} (h : r.Resting) {chunks : List Bytes}
    (bytes : ∀ chunk ∈ chunks, chunk ≠ []) :
    r.collectFrom (chunks ++ [[]]) = (r.machine.readAll r.position chunks.flatten).collected := by
  induction chunks generalizing r with
  | nil =>
    have shows := Feed.calls_shows (f := ⟨r.attach [], []⟩) (h.live_attach [])
    rw [h.reading_attach_nil] at shows
    rw [List.flatten_nil, Machine.readAll_nil, List.nil_append]
    cases failure : (r.machine.finish r.position).failure with
    | some code => exact collectFrom_of_failure (h.feed_eq []) shows failure []
    | none => exact collectFrom_of_end (h.feed_eq []) shows failure []
  | cons chunk chunks ih =>
    have nonempty := bytes chunk List.mem_cons_self
    have opened : (r.attach chunk).closed = false := List.isEmpty_eq_false_iff.2 nonempty
    have shows := Feed.calls_shows (f := ⟨r.attach chunk, chunk⟩) (h.live_attach chunk)
    rw [h.reading_attach nonempty, opened] at shows
    rw [List.flatten_cons, Machine.readAll, Machine.read_append, Reading.andThen_andThen,
      List.cons_append]
    cases failure : (r.machine.read r.position chunk).failure with
    | some code =>
      rw [collectFrom_of_failure (h.feed_eq chunk) shows failure,
        Reading.andThen_of_failure failure]
    | none =>
      obtain ⟨last, at_end, ends⟩ := shows.getLast
      have more : last.wantsMore = true := by rw [ends.wantsMore, failure]; rfl
      have ih := ih (Resting.of_ends ends more) fun c mem => bytes c (List.mem_cons_of_mem _ mem)
      have machine : last.2.release.machine = (r.machine.read r.position chunk).machine :=
        ends.machine
      have position : last.2.release.position = (r.machine.read r.position chunk).position :=
        ends.position
      rw [machine, position] at ih
      rw [collectFrom_of_more (h.feed_eq chunk) shows failure at_end,
        Reading.collected_andThen failure, ih]
      rfl

/-- No chunk of a document ends the input too early. -/
theorem ne_nil_of_mem_filter (chunks : List Bytes) :
    ∀ chunk ∈ chunks.filter (!·.isEmpty), chunk ≠ [] := fun chunk mem empty => by
  rw [empty, List.mem_filter] at mem
  exact absurd mem.2 Bool.false_ne_true

/-- **What is collected of a document does not depend on how it is cut**: it is what the machine reads
from its bytes. -/
theorem collect_eq (options : ReaderOptions) (chunks : List Bytes) :
    ({ options } : Reader).collect chunks =
      (({ options } : Machine).readAll {} chunks.flatten).collected := by
  have bytes := ne_nil_of_mem_filter chunks
  have same : (chunks.filter (!·.isEmpty)).flatten = chunks.flatten := List.flatten_filter_not_isEmpty
  rw [collect, collectFrom_eq (resting_new options) bytes, same]
  rfl

/-- The tokens of a document, if it is accepted. -/
theorem toOption_collect (options : ReaderOptions) (chunks : List Bytes) :
    (({ options } : Reader).collect chunks).toOption =
      ({ options } : Machine).tokens? chunks.flatten := by
  rw [collect_eq, Reading.toOption_collected]
  rfl

theorem collect_eq_ok_iff {options : ReaderOptions} {chunks : List Bytes} {tokens : List Token} :
    ({ options } : Reader).collect chunks = .ok tokens ↔
      ({ options } : Machine).tokens? chunks.flatten = some tokens := by
  rw [← toOption_collect]
  cases ({ options } : Reader).collect chunks <;> simp [Except.toOption]

end Reader

end JsonStream
