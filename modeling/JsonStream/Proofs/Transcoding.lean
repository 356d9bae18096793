import JsonStream.Proofs.Machine.Chunks
import JsonStream.Proofs.Writer.Prints
import JsonStream.Transcoder

/-!
# Transcoders print what is read

A transcoder writes the items of the tokens that its reader reports, in order and whole, whatever
the size of the slices and however the input is cut.

* `Feed.drive_prints`: one chunk.
* `Transcoder.transcode_prints`: a whole document.
-/

namespace JsonStream

/-- What a token is written as. Keys are written like strings. -/
def Token.items : Token → List Item
  | .needMore | .done => []
  | .null => [.scalar .null]
  | .bool value => [.scalar (.bool value)]
  | .number value => [.scalar (Transcoder.numberScalar value)]
  | .integer value => [.scalar (.integer value)]
  | .string text | .key text => [.scalar (.string text)]
  | .beginArray => [.beginArray]
  | .endArray => [.endArray]
  | .beginObject => [.beginObject]
  | .endObject => [.endObject]

namespace Transcoder

/-- There is room for output, and all of what has been written is handed out. -/
structure Ready (t : Transcoder) : Prop where
  room : 0 < t.capacity
  idle : t.writer.pending = []

/-- The transcoder `next` has handed out `bytes` more than `t`, and its writer is `w`. -/
structure Adds (t next : Transcoder) (bytes : Bytes) (w : Writer) : Prop where
  writer : next.writer = w
  capacity : next.capacity = t.capacity
  output : next.output = t.output ++ bytes

variable {t middle next : Transcoder} {bytes rest : Bytes} {v w : Writer}

theorem Adds.refl (t : Transcoder) : t.Adds t [] t.writer :=
  ⟨rfl, rfl, (List.append_nil _).symm⟩

theorem Adds.trans (first : t.Adds middle bytes v) (second : middle.Adds next rest w) :
    t.Adds next (bytes ++ rest) w := by
  refine ⟨second.writer, second.capacity.trans first.capacity, ?_⟩
  rw [second.output, first.output, List.append_assoc]

theorem Ready.of_adds {items : List Item} (ready : t.Ready) (adds : t.Adds next bytes w)
    (prints : t.writer.Prints items bytes w) : next.Ready := by
  refine ⟨?_, ?_⟩
  · rw [adds.capacity]
    exact ready.room
  · rw [adds.writer, prints.pending]
    exact ready.idle

theorem emit_adds {item : Item} {slots : List Slot} (ready : t.Ready)
    (fragment : t.writer.fragment item = .ok (bytes, slots)) :
    ∃ next, emit item t = .ok () next ∧ t.Adds next bytes { t.writer with slots } := by
  obtain ⟨slices, all, flat⟩ := Writer.writeAll_eq_ok ready.room ready.idle fragment
  refine ⟨{ t with writer := { t.writer with slots }, recent := slices.reverse ++ t.recent }, ?_,
    ⟨rfl, rfl, ?_⟩⟩
  · rw [emit, all]
  · simp only [output]
    rw [List.reverse_append, List.reverse_reverse, List.flatten_append, flat]

/-- The callback of a token prints its items. -/
theorem visit_prints {token : Token} (ready : t.Ready)
    (prints : t.writer.Prints token.items bytes w) :
    ∃ next, visitor.visit token t = .ok () next ∧ t.Adds next bytes w := by
  have emits : ∀ item, t.writer.Prints [item] bytes w →
      ∃ next, emit item t = .ok () next ∧ t.Adds next bytes w := by
    intro item printed
    cases printed with
    | cons fragment more =>
      cases more
      rw [List.append_nil]
      exact emit_adds ready fragment
  cases token with
  | needMore | done =>
    cases prints
    exact ⟨t, rfl, Adds.refl t⟩
  | _ => exact emits _ prints

end Transcoder

/-! ### One chunk -/

/-- A reading that one call shows ends with this call. -/
theorem Reading.Shows.ends_single {closed : Bool} {x : Reading} {call : Call}
    (h : x.Shows closed [call]) : call.Ends closed x := by
  obtain ⟨last, at_end, ends⟩ := h.getLast
  cases at_end
  exact ends

namespace Feed

section
variable {ε σ : Type} {v : Visitor ε σ} {s next : σ} {f g : Feed} {token : Token}

theorem drive_of_ongoing (answer : f.next = (.ok token, g)) (visit : v.visit token s = .ok () next)
    (ongoing : token.isOngoing = true) : f.drive v s = g.drive v next := by
  rw [drive]
  split <;> simp_all

theorem drive_of_last (answer : f.next = (.ok token, g)) (visit : v.visit token s = .ok () next)
    (last : ¬token.isOngoing = true) :
    f.drive v s = ⟨.ok (if token = .done then .finished else .needMore), next, g⟩ := by
  rw [drive]
  split <;> simp_all

end

open Transcoder

/-- **A transcoder prints what is read of a chunk.** -/
theorem drive_prints {f : Feed} {t : Transcoder} {bytes : Bytes} {w : Writer}
    (live : f.reader.Live f.rest) (ready : t.Ready)
    (accepted : (f.reader.reading f.rest).failure = none)
    (prints : t.writer.Prints
      (((f.reader.reading f.rest).tokens.map Prod.fst).flatMap Token.items) bytes w) :
    ∃ next g, f.drive visitor t =
        ⟨.ok (if f.reader.closed then .finished else .needMore), next, g⟩ ∧
      t.Adds next bytes w ∧
        Call.Ends (.ok (if f.reader.closed then .done else .needMore), g) f.reader.closed
          (f.reader.reading f.rest) := by
  have yields := next_yields live
  generalize reading : f.reader.reading f.rest = x at yields accepted prints
  induction f using calls.induct generalizing t x bytes with
  | case1 f token g answer ongoing ih =>
    rw [answer] at yields
    cases yields with
    | token _ live same =>
      obtain ⟨front, back, middle, rfl, before, after⟩ := Writer.Prints.exists_of_append prints
      obtain ⟨between, visit, adds⟩ := visit_prints ready before
      rw [← adds.writer] at after
      obtain ⟨next, h, driven, more, ends⟩ :=
        ih live (ready.of_adds adds before) _ rfl (next_yields live) accepted after
      rw [same] at driven ends
      refine ⟨next, h, ?_, adds.trans more, ?_⟩
      · rw [drive_of_ongoing answer visit ongoing, driven]
      · exact ⟨ends.machine, ends.position, ends.failure, ends.wantsMore, ends.waiting⟩
    | needMore => contradiction
    | done => contradiction
  | case2 f token g answer last =>
    rw [answer] at yields
    cases yields with
    | token ongoing => contradiction
    | @needMore r live resumed opened same =>
      cases prints
      refine ⟨t, ⟨r, []⟩, ?_, Adds.refl t, ?_⟩
      · rw [drive_of_last answer rfl last, opened]
        rfl
      · rw [if_neg (by rw [opened]; exact Bool.false_ne_true)]
        exact (Reading.Shows.needMore live resumed opened same).ends_single
    | @done r failure ended =>
      cases prints
      refine ⟨t, ⟨r, []⟩, ?_, Adds.refl t, ?_⟩
      · rw [drive_of_last answer rfl last, ended]
        rfl
      · rw [if_pos ended]
        exact (Reading.Shows.done failure ended).ends_single
  | case3 f e g answer =>
    rw [answer] at yields
    cases yields
    contradiction

end Feed

/-! ### Whole documents -/

namespace Transcoder

/-- What is read of some chunks and the end of input is printed. -/
theorem run_prints {r : Reader} {t : Transcoder} {chunks : List Bytes} {bytes : Bytes} {w : Writer}
    (rests : r.Resting) (ready : t.Ready) (nonempty : ∀ chunk ∈ chunks, chunk ≠ [])
    (accepted : (r.machine.readAll r.position chunks.flatten).failure = none)
    (prints : t.writer.Prints
      (((r.machine.readAll r.position chunks.flatten).tokens.map Prod.fst).flatMap Token.items)
      bytes w) :
    ∃ next, t.run r (chunks ++ [[]]) = (.finished, next) ∧ t.Adds next bytes w := by
  induction chunks generalizing r t bytes with
  | nil =>
    have reading := rests.reading_attach_nil
    rw [List.flatten_nil, Machine.readAll_nil, ← reading] at accepted prints
    obtain ⟨next, f, driven, adds, -⟩ :=
      Feed.drive_prints (f := ⟨r.attach [], []⟩) (rests.live_attach []) ready accepted prints
    refine ⟨next, ?_, adds⟩
    rw [List.nil_append, run, rests.feed_eq []]
    dsimp only
    rw [driven]
    rfl
  | cons chunk chunks ih =>
    have bytes_of_chunk := nonempty chunk List.mem_cons_self
    have opened : (r.attach chunk).closed = false := List.isEmpty_eq_false_iff.2 bytes_of_chunk
    have reading := rests.reading_attach bytes_of_chunk
    rw [List.flatten_cons, Machine.readAll, Machine.read_append, Reading.andThen_andThen,
      ← reading] at accepted prints
    obtain ⟨first, accepted⟩ := Reading.accepted_andThen accepted
    rw [Reading.andThen_eq first] at prints
    rw [List.map_append, List.flatMap_append] at prints
    obtain ⟨front, back, middle, rfl, before, after⟩ := prints.exists_of_append
    obtain ⟨between, f, driven, adds, ends⟩ :=
      Feed.drive_prints (f := ⟨r.attach chunk, chunk⟩) (rests.live_attach chunk) ready first before
    rw [opened] at driven ends
    have rests' : f.release.Resting := Reader.Resting.of_ends ends rfl
    have machine : f.release.machine = _ := ends.machine
    have position : f.release.position = _ := ends.position
    rw [← adds.writer] at after
    rw [← machine, ← position] at accepted after
    obtain ⟨next, run_rest, more⟩ := ih rests' (ready.of_adds adds before)
      (fun c mem => nonempty c (List.mem_cons_of_mem _ mem)) accepted after
    refine ⟨next, ?_, adds.trans more⟩
    rw [List.cons_append, run, rests.feed_eq chunk]
    dsimp only
    rw [driven]
    exact run_rest

/-- **What is collected of a document is what a transcoder prints.** -/
theorem transcode_prints {input : ReaderOptions} {output : WriterOptions} {capacity : Nat}
    {chunks : List Bytes} {tokens : List Token} {bytes : Bytes} {w : Writer} (room : 0 < capacity)
    (nonempty : ∀ chunk ∈ chunks, chunk ≠ [])
    (collected : ({ options := input } : Reader).collect chunks = .ok tokens)
    (prints : ({ options := output } : Writer).Prints (tokens.flatMap Token.items) bytes w) :
    ∃ t, transcode input output capacity chunks = (.finished, t) ∧ t.output = bytes ∧
      t.writer = w := by
  have accepted := Reader.collect_eq_ok_iff.1 collected
  rw [Machine.tokens?, Reading.accepted?] at accepted
  cases failure : (({ options := input } : Machine).readAll {} chunks.flatten).failure with
  | some code =>
    rw [failure] at accepted
    contradiction
  | none =>
    rw [failure] at accepted
    cases accepted
    obtain ⟨t, run, adds⟩ := run_prints (t := ⟨{ options := output }, capacity, []⟩)
      (Reader.resting_new input) ⟨room, rfl⟩ nonempty failure prints
    exact ⟨t, run, adds.output, adds.writer⟩

end Transcoder

end JsonStream
