import JsonStream.Proofs.Machine.Spelled
import JsonStream.Proofs.Outline.Reader
import JsonStream.Proofs.Transcoding

/-!
# Readers and writers in step

A transcoder hands the tokens of a reader to a writer one at a time. The frames of the one and the
slots of the other show the same outline, so the writer takes every token that the reader reports,
however the document goes on: it need not be accepted in the end.

* `Writer.prints_of_takes`: what an outline takes, a writer prints.
* `Transcoder.InStep.visit`: one token.
* `Feed.drive_inStep`: one chunk.
* `Transcoder.run_inStep`: any chunks.
-/

namespace JsonStream

/-! ### Writers keep to outlines -/

namespace Writer

variable {w : Writer} {o next : Outline} {token : Token}

theorem filledSlots_eq (slots : w.slots = o.slots) : w.filledSlots = o.filled := by
  rw [filledSlots, slots]
  cases o <;> rfl

theorem exists_closing {slot : Slot} {outer : List Slot} {array : Bool}
    (slots : w.slots = slot :: outer) (kind : slot.inArray = array) :
    ∃ bytes, w.closing array = .ok (bytes, outer) := by
  rw [closing, slots]
  exact ⟨_, if_pos kind⟩

/-- A token that makes up a value alone is written as one scalar. -/
theorem exists_scalar {v : Value} (alone : token.scalar? = some v) (writable : token.Writable)
    (asciiOnly : Bool) : ∃ s bytes, token.items = [.scalar s] ∧ s.text asciiOnly = .ok bytes := by
  cases token with
  | number value =>
    obtain ⟨bytes, text⟩ := writable (.other value) rfl asciiOnly
    exact ⟨_, bytes, rfl, text⟩
  | null | bool | integer | string => exact ⟨_, _, rfl, rfl⟩
  | _ => contradiction

theorem fragment_scalar {s : Scalar} {bytes : Bytes} (text : s.text w.options.asciiOnly = .ok bytes) :
    w.fragment (.scalar s) = .ok (w.separator ++ bytes, w.filledSlots) := by
  rw [fragment, text]
  rfl

/-- **What an outline takes, a writer prints.** -/
theorem prints_of_takes (takes : o.Takes token next) (slots : w.slots = o.slots)
    (writable : token.Writable) :
    ∃ bytes, w.Prints token.items bytes { w with slots := next.slots } := by
  have filled := filledSlots_eq slots
  cases takes with
  | scalar due alone =>
    obtain ⟨s, bytes, items, text⟩ := exists_scalar alone writable w.options.asciiOnly
    have fragment := fragment_scalar text
    rw [filled] at fragment
    rw [items, Outline.slots_around]
    exact ⟨_, .single fragment⟩
  | @key slot outer text place =>
    have fragment := fragment_scalar (w := w) (s := .string text) rfl
    rw [filled, Outline.filled, place] at fragment
    exact ⟨_, .single fragment⟩
  | beginArray due =>
    have fragment : w.fragment .beginArray =
        .ok (w.separator ++ [Byte.openBracket], .firstElement :: w.filledSlots) := rfl
    rw [filled] at fragment
    exact ⟨_, .single fragment⟩
  | endArray array =>
    obtain ⟨bytes, fragment⟩ := exists_closing slots array
    have fragment : w.fragment .endArray = _ := fragment
    rw [Outline.slots_around]
    exact ⟨bytes, .single fragment⟩
  | beginObject due =>
    have fragment : w.fragment .beginObject =
        .ok (w.separator ++ [Byte.openBrace], .firstKey :: w.filledSlots) := rfl
    rw [filled] at fragment
    exact ⟨_, .single fragment⟩
  | @endObject slot outer place =>
    have object : slot.inArray = false := by cases slot <;> first | rfl | contradiction
    obtain ⟨bytes, fragment⟩ := exists_closing slots object
    have fragment : w.fragment .endObject = _ := fragment
    rw [Outline.slots_around]
    exact ⟨bytes, .single fragment⟩
  | done =>
    obtain ⟨options, _, pending⟩ := w
    cases slots
    exact ⟨[], .nil _⟩

end Writer

/-! ### One token -/

namespace Transcoder

/-- The writer has taken what the reader has reported, and all of it has been handed out. -/
structure InStep (t : Transcoder) (r : Reader) : Prop where
  ready : t.Ready
  outline : ∃ o, r.At o ∧ t.writer.slots = o.slots

variable {t : Transcoder} {r : Reader}

theorem InStep.feed {chunk : Bytes} {f : Feed} (h : t.InStep r) (fed : r.feed chunk = .ok f) :
    t.InStep f.reader := by
  obtain ⟨o, stands, slots⟩ := h.outline
  exact ⟨h.ready, o, stands.feed fed, slots⟩

theorem InStep.release {f : Feed} (h : t.InStep f.reader) : t.InStep f.release := by
  obtain ⟨o, stands, slots⟩ := h.outline
  exact ⟨h.ready, o, stands.release, slots⟩

theorem InStep.depth (h : t.InStep r) : t.writer.depth = r.depth := by
  obtain ⟨o, stands, slots⟩ := h.outline
  rw [stands.depth_eq, ← slots]
  rfl

/-- **The writer takes what the reader reports.** After the end of the document no container is
open. -/
theorem InStep.visit {f g : Feed} {token : Token} (h : t.InStep f.reader)
    (answer : f.next = (.ok token, g)) (writable : token.Writable) :
    ∃ next, visitor.visit token t = .ok () next ∧ next.InStep g.reader ∧
      (token = .done → g.reader.depth = 0) := by
  obtain ⟨o, stands, slots⟩ := h.outline
  have keeps := Feed.next_keeps stands
  rw [answer] at keeps
  have taken : ∀ after, o.Takes token after → g.reader.At after →
      ∃ next, visitor.visit token t = .ok () next ∧ next.InStep g.reader ∧
        (token = .done → g.reader.depth = 0) := by
    intro after takes stands
    obtain ⟨bytes, prints⟩ := Writer.prints_of_takes takes slots writable
    obtain ⟨next, visit, adds⟩ := visit_prints h.ready prints
    refine ⟨next, visit, ⟨h.ready.of_adds adds prints, after, stands, ?_⟩, ?_⟩
    · rw [adds.writer]
    · rintro rfl
      rw [stands.depth_eq]
      cases takes with
      | scalar _ alone => contradiction
      | done => rfl
  cases token with
  | needMore => exact ⟨t, rfl, ⟨h.ready, o, keeps, slots⟩, nofun⟩
  | _ =>
    obtain ⟨after, takes, stands⟩ := keeps
    exact taken after takes stands

end Transcoder

/-! ### One chunk -/

namespace Feed

/-- What is left to read of a chunk can be written. -/
structure Writable (f : Feed) : Prop where
  live : f.reader.Live f.rest
  reading : (f.reader.reading f.rest).Writable

variable {f g : Feed} {token : Token}

/-- What a call reports can be written, and what is left after it as well. After a request for more
input the reader rests. -/
theorem Writable.next (h : f.Writable) (answer : f.next = (.ok token, g)) :
    token.Writable ∧ (token.isOngoing = true → g.Writable) ∧
      (token = .needMore → g.release.Resting ∧ g.reader.machine.Spelled) := by
  have yields := next_yields h.live
  have writable := h.reading
  rw [answer] at yields
  generalize f.reader.reading f.rest = x at yields writable
  cases yields with
  | token ongoing live =>
    obtain ⟨first, rest⟩ := List.forall_mem_cons.1 writable.tokens
    refine ⟨first, fun _ => ⟨live, rest, writable.machine⟩, ?_⟩
    rintro rfl
    contradiction
  | @needMore r live resumed opened same =>
    have ends := (Reading.Shows.needMore live resumed opened same).ends_single
    exact ⟨Token.writable_of_isNumber rfl, nofun,
      fun _ => ⟨Reader.Resting.of_ends ends rfl, writable.machine⟩⟩
  | done => exact ⟨Token.writable_of_isNumber rfl, nofun, nofun⟩

section
variable {ε σ : Type}

/-- What driving a chunk goes through: the state of the visitor and the feed after each token. -/
def stages (v : Visitor ε σ) (s : σ) (f : Feed) : List (σ × Feed) :=
  match _h : f.next with
  | (.error _, _) => []
  | (.ok token, g) =>
    match v.visit token s with
    | .error _ next => [(next, g)]
    | .ok _ next =>
      if _ongoing : token.isOngoing = true then (next, g) :: g.stages v next else [(next, g)]
termination_by f.budget
decreasing_by exact next_budget_lt _h _ongoing

variable {v : Visitor ε σ} {s next : σ} {e : ParseError}

theorem stages_of_error (answer : f.next = (.error e, g)) : f.stages v s = [] := by
  rw [stages]
  split <;> simp_all

theorem stages_of_ongoing (answer : f.next = (.ok token, g)) (visit : v.visit token s = .ok () next)
    (ongoing : token.isOngoing = true) : f.stages v s = (next, g) :: g.stages v next := by
  rw [stages]
  split <;> simp_all

theorem stages_of_failed {error : ε} (answer : f.next = (.ok token, g))
    (visit : v.visit token s = .error error next) : f.stages v s = [(next, g)] := by
  rw [stages]
  split <;> simp_all

theorem stages_of_last (answer : f.next = (.ok token, g)) (visit : v.visit token s = .ok () next)
    (last : ¬token.isOngoing = true) : f.stages v s = [(next, g)] := by
  rw [stages]
  split <;> simp_all

/-- The stages of a chunk lead to where driving it ends. -/
theorem state_drive (v : Visitor ε σ) (s : σ) (f : Feed) :
    (f.drive v s).state = ((f.stages v s).getLast?.map Prod.fst).getD s := by
  fun_induction Feed.drive v s f with
  | case1 s f e g answer =>
    rw [stages_of_error answer]
    rfl
  | case2 s f token g answer e next visit =>
    rw [stages_of_failed answer visit]
    rfl
  | case3 s f token g answer _ next visit ongoing ih =>
    rw [stages_of_ongoing answer visit ongoing, List.getLast?_cons, ih]
    cases (g.stages v next).getLast? <;> rfl
  | case4 s f token g answer _ next visit last =>
    rw [stages_of_last answer visit last]
    rfl

end

open Transcoder

/-- Where driving a chunk leaves a transcoder and its feed. It stops because the input is refused,
or the last stage is where it has got to; no callback fails. -/
def EndsInStep (stages : List (Transcoder × Feed)) (driven : Driven WriterError Transcoder) : Prop :=
  match driven.outcome with
  | .error (.parse _) => True
  | .error (.visitor _) => False
  | .ok progress =>
    stages.getLast? = some (driven.state, driven.feed) ∧
      match progress with
      | .finished => driven.feed.reader.depth = 0
      | .needMore => driven.feed.release.Resting ∧ driven.feed.reader.machine.Spelled

theorem EndsInStep.cons {stages : List (Transcoder × Feed)}
    {driven : Driven WriterError Transcoder} (h : EndsInStep stages driven)
    (first : Transcoder × Feed) : EndsInStep (first :: stages) driven := by
  obtain ⟨outcome, state, feed⟩ := driven
  cases outcome with
  | error e => cases e <;> exact h
  | ok progress =>
    obtain ⟨last, ends⟩ := h
    refine ⟨?_, ends⟩
    rw [List.getLast?_cons, last, Option.getD_some]

/-- **The writer follows the reader through a chunk.** -/
theorem drive_inStep {t : Transcoder} {f : Feed} (h : t.InStep f.reader) (writable : f.Writable) :
    (∀ stage ∈ f.stages visitor t, stage.1.InStep stage.2.reader) ∧
      EndsInStep (f.stages visitor t) (f.drive visitor t) := by
  fun_induction Feed.drive visitor t f with
  | case1 t f e g answer =>
    rw [stages_of_error answer]
    exact ⟨List.forall_mem_nil _, trivial⟩
  | case2 t f token g answer e next visit =>
    obtain ⟨_, taken, -⟩ := h.visit answer (writable.next answer).1
    rw [visit] at taken
    contradiction
  | case3 t f token g answer _ next visit ongoing ih =>
    obtain ⟨here, more, -⟩ := writable.next answer
    obtain ⟨_, taken, inStep, -⟩ := h.visit answer here
    cases visit.symm.trans taken
    obtain ⟨all, ends⟩ := ih inStep (more ongoing)
    rw [stages_of_ongoing answer taken ongoing]
    exact ⟨List.forall_mem_cons.2 ⟨inStep, all⟩, ends.cons _⟩
  | case4 t f token g answer _ next visit last =>
    obtain ⟨here, -, rests⟩ := writable.next answer
    obtain ⟨_, taken, inStep, ended⟩ := h.visit answer here
    cases visit.symm.trans taken
    rw [stages_of_last answer taken last]
    refine ⟨List.forall_mem_singleton.2 inStep, rfl, ?_⟩
    cases token with
    | needMore => exact rests rfl
    | done => exact ended rfl
    | _ => contradiction

end Feed

/-! ### Any chunks -/

namespace Transcoder

/-- What transcoding goes through: the transcoder and the feed after each token. -/
def stages (t : Transcoder) (r : Reader) : List Bytes → List (Transcoder × Feed)
  | [] => []
  | chunk :: chunks =>
    match r.feed chunk with
    | .error _ => []
    | .ok feed =>
      feed.stages visitor t ++
        match feed.drive visitor t with
        | ⟨.ok .needMore, t, feed⟩ => t.stages feed.release chunks
        | _ => []

/-- The stages lead to where transcoding ends. -/
theorem run_eq_stages (t : Transcoder) (r : Reader) (chunks : List Bytes) :
    (t.run r chunks).2 = ((t.stages r chunks).getLast?.map Prod.fst).getD t := by
  induction chunks generalizing t r with
  | nil => rfl
  | cons chunk chunks ih =>
    rw [stages, run]
    cases r.feed chunk with
    | error e => rfl
    | ok f =>
      dsimp only
      have state := Feed.state_drive visitor t f
      generalize f.drive visitor t = driven at state ⊢
      obtain ⟨outcome, next, g⟩ := driven
      have stop : next = ((f.stages visitor t ++ []).getLast?.map Prod.fst).getD t := by
        rw [List.append_nil]
        exact state
      rcases outcome with (e | e) | progress
      · exact stop
      · exact stop
      · cases progress with
        | finished => exact stop
        | needMore =>
          show (next.run g.release chunks).2 = _
          rw [ih, List.getLast?_append]
          cases (next.stages g.release chunks).getLast? with
          | some last => rfl
          | none => exact state

/-- A chunk that is attached to a resting reader can be written. -/
theorem writable_attach {r : Reader} (rests : r.Resting) (spelled : r.machine.Spelled)
    (chunk : Bytes) : Feed.Writable ⟨r.attach chunk, chunk⟩ := by
  refine ⟨rests.live_attach chunk, ?_⟩
  by_cases empty : chunk = []
  · subst empty
    rw [rests.reading_attach_nil]
    exact Machine.finish_writable spelled _
  · rw [rests.reading_attach empty]
    exact Machine.read_writable spelled _ chunk

variable {t : Transcoder} {r : Reader}

/-- Whatever is read, transcoding ends only because the input is refused, or used up, or read to the
end of its document. -/
theorem run_follows (h : t.InStep r) (rests : r.Resting) (spelled : r.machine.Spelled)
    (chunks : List Bytes) :
    (∀ stage ∈ t.stages r chunks, stage.1.InStep stage.2.reader) ∧
      match (t.run r chunks).1 with
      | .unfinished | .parser _ => True
      | .finished => ∃ f, (t.stages r chunks).getLast? = some ((t.run r chunks).2, f) ∧
          f.reader.depth = 0
      | .writer _ | .feed _ => False := by
  induction chunks generalizing t r with
  | nil => exact ⟨List.forall_mem_nil _, trivial⟩
  | cons chunk chunks ih =>
    obtain ⟨all, ends⟩ := Feed.drive_inStep (f := ⟨r.attach chunk, chunk⟩)
      (h.feed (rests.feed_eq chunk)) (writable_attach rests spelled chunk)
    rw [stages, run, rests.feed_eq chunk]
    dsimp only
    rw [Feed.EndsInStep] at ends
    generalize Feed.drive visitor t ⟨r.attach chunk, chunk⟩ = driven at ends ⊢
    obtain ⟨outcome, next, f⟩ := driven
    cases outcome with
    | error e =>
      cases e with
      | parse e =>
        rw [List.append_nil]
        exact ⟨all, trivial⟩
      | visitor e => exact ends.elim
    | ok progress =>
      obtain ⟨last, ends⟩ := ends
      cases progress with
      | finished =>
        rw [List.append_nil]
        exact ⟨all, f, last, ends⟩
      | needMore =>
        have inStep : next.InStep f.release :=
          InStep.release (all _ (List.mem_of_getLast? last))
        obtain ⟨more, ended⟩ := ih inStep ends.1 ends.2
        refine ⟨List.forall_mem_append.2 ⟨all, more⟩, ?_⟩
        dsimp only
        cases stop : (next.run f.release chunks).1 with
        | finished =>
          rw [stop] at ended
          obtain ⟨g, at_end, closed⟩ := ended
          refine ⟨g, ?_, closed⟩
          rw [List.getLast?_append, at_end, Option.some_or]
        | unfinished | parser => trivial
        | writer | feed =>
          rw [stop] at ended
          exact ended

/-- **A writer never fails on what a reader reports.** Whatever the input and the options are, and
however the input is cut, transcoding is stopped by the reader or not at all: no call of the writer
fails, and no chunk is refused. After every token both are equally deep and nothing is pending, and
what is left in the end is the transcoder after the last token, or the new one if there was none. In
the end of a document no container is open. -/
theorem run_inStep {capacity : Nat} (room : 0 < capacity) (input : ReaderOptions)
    (output : WriterOptions) (chunks : List Bytes) :
    let start : Transcoder := ⟨{ options := output }, capacity, []⟩
    let ended := start.run { options := input } chunks
    (∀ e, ended.1 ≠ .writer e) ∧ (∀ e, ended.1 ≠ .feed e) ∧
      (∀ stage ∈ start.stages { options := input } chunks,
        stage.1.writer.depth = stage.2.reader.depth ∧ stage.1.writer.pending = []) ∧
      ended.2 = ((start.stages { options := input } chunks).getLast?.map Prod.fst).getD start ∧
        (ended.1 = .finished →
          ∃ f, (start.stages { options := input } chunks).getLast? = some (ended.2, f) ∧
            ended.2.writer.depth = 0 ∧ f.reader.depth = 0) := by
  intro start ended
  have begun : start.InStep { options := input } :=
    ⟨⟨room, rfl⟩, .start, Reader.at_start input, rfl⟩
  obtain ⟨all, ends⟩ := run_follows begun (Reader.resting_new input) trivial chunks
  refine ⟨?_, ?_, fun stage mem => ⟨(all stage mem).depth, (all stage mem).ready.idle⟩,
    run_eq_stages start _ chunks, ?_⟩
  · intro e failed
    rw [show (start.run { options := input } chunks).1 = _ from failed] at ends
    exact ends
  · intro e refused
    rw [show (start.run { options := input } chunks).1 = _ from refused] at ends
    exact ends
  · intro finished
    rw [show (start.run { options := input } chunks).1 = _ from finished] at ends
    obtain ⟨f, last, closed⟩ := ends
    have depth := (all _ (List.mem_of_getLast? last)).depth
    exact ⟨f, last, depth.trans closed, closed⟩

/-- An array that is closed as an object, cut inside a number and written one byte at a time: the
array around it is still open in the end. -/
theorem run_inStep_broken :
    let start : Transcoder := ⟨{ options := { indent := some " " } }, 1, []⟩
    let chunks : List Bytes := [[0x5b, 0x31, 0x2e, 0x35], [0x30, 0x2c, 0x5b, 0x5d, 0x7d], []]
    let stages := start.stages { options := { numbers := .components } } chunks
    (start.run { options := { numbers := .components } } chunks).1 =
        .parser ⟨.expectedCommaOrArrayEnd, ⟨1, 9⟩⟩ ∧
      stages.map (fun stage => stage.1.writer.depth) = [1, 1, 1, 2, 1] ∧
      (∀ stage ∈ stages,
        stage.1.writer.depth = stage.2.reader.depth ∧ stage.1.writer.pending = []) ∧
      (start.run { options := { numbers := .components } } chunks).2 =
        (stages.getLast?.map Prod.fst).getD start := by
  obtain ⟨-, -, all, ended, -⟩ := run_inStep (by decide : 0 < 1) { numbers := .components }
    { indent := some " " } [[0x5b, 0x31, 0x2e, 0x35], [0x30, 0x2c, 0x5b, 0x5d, 0x7d], []]
  exact ⟨by decide +kernel, by decide +kernel, all, ended⟩

end Transcoder

end JsonStream
