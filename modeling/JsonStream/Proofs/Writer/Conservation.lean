import JsonStream.Writer.Basic

/-!
# Every byte is handed out once

A caller makes calls of a writer in any order: items, well structured or not, and requests for more,
each with room of its own. What has been handed out and what is still pending make up the fragments
of the items that were taken, one after another. A fragment depends on the options, on the items
taken before and on the item itself, and on nothing else.

* `Writer.answer_answers`: what one call does.
* `Writer.serve_balances`: what calls in turn hand out.
* `Writer.serve_balances_of_drained`: what they hand out to a caller who drains every fragment.
* `Writer.serve_conserves`: no byte is lost, repeated or moved, whatever the sizes of the buffers.
-/

namespace JsonStream

namespace Writer

/-! ### Fragments -/

/-- The slots after an item; a refused one changes none. -/
def slotsWith (o : WriterOptions) (slots : List Slot) (item : Item) : List Slot :=
  match ({ options := o, slots } : Writer).fragment item with
  | .ok (_, next) => next
  | .error _ => slots

/-- The slots after items in turn. -/
def slotsAfter (o : WriterOptions) (items : List Item) : List Slot :=
  items.foldl (slotsWith o) []

/-- The fragment of an item that follows `earlier` ones. -/
def fragmentAfter (o : WriterOptions) (earlier : List Item) (item : Item) :
    Except WriterError Bytes :=
  (({ options := o, slots := slotsAfter o earlier } : Writer).fragment item).map Prod.fst

/-- The fragments of items that follow `earlier` ones; a refused item has none. -/
def fragments (o : WriterOptions) : List Item → List Item → List Bytes
  | _, [] => []
  | earlier, item :: items =>
    (fragmentAfter o earlier item).toOption.toList ++ fragments o (earlier ++ [item]) items

theorem slotsAfter_append_singleton (o : WriterOptions) (earlier : List Item) (item : Item) :
    slotsAfter o (earlier ++ [item]) = slotsWith o (slotsAfter o earlier) item := by
  rw [slotsAfter, List.foldl_append]
  rfl

/-! ### Calls -/

/-- A call: an item or a request for more, with the room for output. -/
inductive Request where
  | write (item : Item) (capacity : Nat)
  | more (capacity : Nat)
deriving Repr, DecidableEq

namespace Request

/-- The room for output. -/
def capacity : Request → Nat
  | .write _ capacity | .more capacity => capacity

/-- The item that is to be written. -/
def item? : Request → Option Item
  | .write item _ => some item
  | .more _ => none

end Request

/-- A call with its answer. -/
abbrev Exchange := Request × Except WriterError Bytes

namespace Exchange

/-- The bytes that the call handed out. -/
def slice : Exchange → Bytes
  | (_, .ok slice) => slice
  | (_, .error _) => []

/-- The item that the call wrote. -/
def taken? : Exchange → Option Item
  | (request, .ok _) => request.item?
  | (_, .error _) => none

/-- Whether the call filled its buffer, so that there may be more. -/
def isFull : Exchange → Bool
  | (request, .ok slice) => slice.length == request.capacity
  | (_, .error _) => false

/-- Whether the call asked for more. -/
def asksMore (exchange : Exchange) : Bool :=
  exchange.1.item?.isNone

end Exchange

/-- All bytes that calls handed out. -/
def handedOut (exchanges : List Exchange) : Bytes :=
  exchanges.flatMap Exchange.slice

/-- The items that calls wrote. -/
def taken (exchanges : List Exchange) : List Item :=
  exchanges.filterMap Exchange.taken?

/-- After every call that filled its buffer the caller asks for more. -/
def drained : List Exchange → Bool
  | [] => true
  | exchange :: exchanges =>
    (!exchange.isFull || exchanges.head?.any Exchange.asksMore) && drained exchanges

/-- Carries a call out. -/
def answer (w : Writer) : Request → Except WriterError Bytes × Writer
  | .write item capacity => w.write item capacity
  | .more capacity => w.continueWrite capacity

/-- Carries calls out in turn. -/
def serve (w : Writer) : List Request → List Exchange × Writer
  | [] => ([], w)
  | request :: requests =>
    let rest := (w.answer request).2.serve requests
    ((request, (w.answer request).1) :: rest.1, rest.2)

/-! ### One call -/

/-- **What a call does.** It is refused and changes nothing, or it loads the fragment of an item
while nothing is pending, or it goes on with what is pending; and it hands out what there is room
for. -/
inductive Answers (w : Writer) : Request → Except WriterError Bytes → Writer → Prop where
  | refused {request : Request} (e : WriterError)
      (cause : ∀ item capacity, request = .write item capacity → 0 < capacity → w.pending = [] →
        w.fragment item = .error e)
      (room : ∀ capacity, request = .more capacity → capacity = 0) :
      Answers w request (.error e) w
  | write {item : Item} {capacity : Nat} {bytes : Bytes} {slots : List Slot}
      (room : 0 < capacity) (idle : w.pending = []) (fragment : w.fragment item = .ok (bytes, slots)) :
      Answers w (.write item capacity) (.ok (bytes.take capacity))
        { w with slots, pending := bytes.drop capacity }
  | more {capacity : Nat} (room : 0 < capacity) :
      Answers w (.more capacity) (.ok (w.pending.take capacity))
        { w with pending := w.pending.drop capacity }

theorem answer_answers (w : Writer) (request : Request) :
    w.Answers request (w.answer request).1 (w.answer request).2 := by
  cases request with
  | write item capacity =>
    rw [answer, write]
    by_cases none : capacity = 0
    · rw [if_pos none]
      refine .refused _ ?_ nofun
      rintro _ _ ⟨⟩ room
      omega
    by_cases idle : w.pending = []
    · rw [if_neg none, if_neg (fun pending => pending idle)]
      cases fragment : w.fragment item with
      | error e =>
        refine .refused e ?_ nofun
        rintro _ _ ⟨⟩ - -
        exact fragment
      | ok done => exact .write (Nat.pos_of_ne_zero none) idle fragment
    · rw [if_neg none, if_pos idle]
      refine .refused _ ?_ nofun
      rintro _ _ ⟨⟩ - nothing
      exact absurd nothing idle
  | more capacity =>
    rw [answer, continueWrite]
    by_cases none : capacity = 0
    · rw [if_pos none]
      refine .refused _ nofun ?_
      rintro _ ⟨⟩
      exact none
    · rw [if_neg none]
      exact .more (Nat.pos_of_ne_zero none)

theorem fragments_append (o : WriterOptions) (earlier first second : List Item) :
    fragments o earlier (first ++ second) =
      fragments o earlier first ++ fragments o (earlier ++ first) second := by
  induction first generalizing earlier with
  | nil => rw [List.nil_append, List.append_nil, fragments, List.nil_append]
  | cons item first ih =>
    rw [List.cons_append, fragments, fragments, ih, List.append_assoc, List.append_assoc]
    rfl

theorem fragments_singleton (o : WriterOptions) (earlier : List Item) (item : Item) :
    fragments o earlier [item] = (fragmentAfter o earlier item).toOption.toList := by
  rw [fragments, fragments, List.append_nil]

/-- The writer has taken the given items since it was new. -/
structure Follows (w : Writer) (o : WriterOptions) (earlier : List Item) : Prop where
  options : w.options = o
  slots : w.slots = slotsAfter o earlier

theorem follows_reset (w : Writer) : w.reset.Follows w.options [] :=
  ⟨rfl, rfl⟩

namespace Follows

variable {w next : Writer} {o : WriterOptions} {earlier : List Item} {item : Item}

theorem fragmentAfter_eq (h : w.Follows o earlier) (item : Item) :
    fragmentAfter o earlier item = (w.fragment item).map Prod.fst := by
  rw [fragmentAfter, ← h.slots, ← h.options]
  rfl

theorem slotsAfter_eq (h : w.Follows o earlier) (item : Item) :
    slotsAfter o (earlier ++ [item]) =
      match w.fragment item with
      | .ok (_, next) => next
      | .error _ => w.slots := by
  rw [slotsAfter_append_singleton, slotsWith, ← h.slots, ← h.options]
  rfl

/-- A refused item leaves no trace. -/
theorem refused (h : w.Follows o earlier) {e : WriterError} (fragment : w.fragment item = .error e) :
    w.Follows o (earlier ++ [item]) ∧ fragments o earlier [item] = [] := by
  refine ⟨⟨h.options, ?_⟩, ?_⟩
  · rw [h.slotsAfter_eq, fragment]
  · rw [fragments_singleton, h.fragmentAfter_eq, fragment]
    rfl

/-- An item that is taken leaves its slots and its fragment. -/
theorem taken (h : w.Follows o earlier) {bytes : Bytes} {slots : List Slot}
    (fragment : w.fragment item = .ok (bytes, slots)) (pending : Bytes) :
    ({ w with slots, pending } : Writer).Follows o (earlier ++ [item]) ∧
      fragments o earlier [item] = [bytes] := by
  refine ⟨⟨h.options, ?_⟩, ?_⟩
  · rw [h.slotsAfter_eq, fragment]
  · rw [fragments_singleton, h.fragmentAfter_eq, fragment]
    rfl

end Follows

/-! ### Calls in turn -/

/-- **The balance of calls that took the given items.** What they handed out and what is pending now
are what was pending and the fragments of the items. -/
structure Balances (w next : Writer) (o : WriterOptions) (earlier items : List Item)
    (out : Bytes) : Prop where
  follows : next.Follows o (earlier ++ items)
  bytes : out ++ next.pending = w.pending ++ (fragments o earlier items).flatten

section
variable {w middle next : Writer} {o : WriterOptions} {earlier items more : List Item}
  {out rest : Bytes} {request : Request} {answer : Except WriterError Bytes}

theorem Follows.balances (h : w.Follows o earlier) : Balances w w o earlier [] [] where
  follows := by
    rw [List.append_nil]
    exact h
  bytes := by
    rw [fragments, List.flatten_nil, List.nil_append, List.append_nil]

theorem Balances.trans (first : Balances w middle o earlier items out)
    (second : Balances middle next o (earlier ++ items) more rest) :
    Balances w next o earlier (items ++ more) (out ++ rest) where
  follows := by
    rw [← List.append_assoc]
    exact second.follows
  bytes := by
    rw [List.append_assoc, second.bytes, ← List.append_assoc, first.bytes, List.append_assoc,
      fragments_append, List.flatten_append]

/-- One call keeps the balance. -/
theorem Answers.balances (h : w.Answers request answer next) (follows : w.Follows o earlier) :
    Balances w next o earlier (Exchange.taken? (request, answer)).toList
      (Exchange.slice (request, answer)) := by
  cases h with
  | refused e => exact follows.balances
  | @write item capacity bytes slots _ idle fragment =>
    obtain ⟨follows, own⟩ := follows.taken fragment (bytes.drop capacity)
    refine ⟨follows, ?_⟩
    show bytes.take capacity ++ bytes.drop capacity = w.pending ++ (fragments o earlier [item]).flatten
    rw [own, idle, List.take_append_drop, List.nil_append, List.flatten_singleton]
  | @more capacity =>
    obtain ⟨same, -⟩ := follows.balances
    refine ⟨⟨same.options, same.slots⟩, ?_⟩
    show w.pending.take capacity ++ w.pending.drop capacity = w.pending ++ []
    rw [List.take_append_drop, List.append_nil]

theorem taken_serve_cons (w : Writer) (request : Request) (requests : List Request) :
    Writer.taken (w.serve (request :: requests)).1 =
      (Exchange.taken? (request, (w.answer request).1)).toList ++
        Writer.taken ((w.answer request).2.serve requests).1 := by
  rw [serve, Writer.taken, List.filterMap_cons]
  cases Exchange.taken? (request, (w.answer request).1) <;> rfl

/-- **Calls in turn keep the balance**, whatever they are. -/
theorem serve_balances (follows : w.Follows o earlier) (requests : List Request) :
    Balances w (w.serve requests).2 o earlier (Writer.taken (w.serve requests).1)
      (handedOut (w.serve requests).1) := by
  induction requests generalizing w earlier with
  | nil => exact follows.balances
  | cons request requests ih =>
    have first := (w.answer_answers request).balances follows
    rw [taken_serve_cons]
    exact first.trans (ih first.follows)

/-! ### Draining -/

theorem filterMap_item?_cons (request : Request) (requests : List Request) :
    (request :: requests).filterMap Request.item? =
      request.item?.toList ++ requests.filterMap Request.item? := by
  rw [List.filterMap_cons]
  cases request.item? <;> rfl

/-- A call that does not fill its buffer leaves nothing pending. -/
theorem short_of_not_isFull {pending : Bytes}
    (part : Exchange.isFull (request, .ok (pending.take request.capacity)) = false) :
    pending.drop request.capacity = [] := by
  have length : (pending.take request.capacity).length ≠ request.capacity :=
    beq_eq_false_iff_ne.1 part
  rw [List.length_take] at length
  exact List.drop_eq_nil_of_le (by omega)

/-- A call by a caller who has drained what was pending, or asks for more of it: its item counts
whether it is refused or not, and unless the buffer is full nothing stays pending. -/
theorem Answers.balances_of_turn (h : w.Answers request answer next) (follows : w.Follows o earlier)
    (room : 0 < request.capacity) (turn : w.pending = [] ∨ request.item? = none) :
    Balances w next o earlier request.item?.toList (Exchange.slice (request, answer)) ∧
      (Exchange.isFull (request, answer) = false → next.pending = []) := by
  cases h with
  | refused e cause nothing =>
    cases request with
    | more capacity => exact absurd (nothing capacity rfl) (Nat.pos_iff_ne_zero.1 room)
    | write item capacity =>
      have idle : w.pending = [] := turn.resolve_right nofun
      obtain ⟨follows, own⟩ := follows.refused (cause item capacity rfl room idle)
      refine ⟨⟨follows, ?_⟩, fun _ => idle⟩
      show [] ++ w.pending = w.pending ++ (fragments o earlier [item]).flatten
      rw [own, List.nil_append, List.flatten_nil, List.append_nil]
  | @write item capacity bytes slots room idle fragment =>
    exact ⟨Answers.balances (.write room idle fragment) follows, short_of_not_isFull⟩
  | @more capacity room =>
    exact ⟨Answers.balances (.more room) follows, short_of_not_isFull⟩

/-- **What a caller gets who drains every fragment.** The sizes of the buffers and the calls for
more leave no trace in it, and nothing stays pending. -/
theorem serve_balances_of_drained (follows : w.Follows o earlier) {requests : List Request}
    (room : ∀ request ∈ requests, 0 < request.capacity)
    (turn : w.pending = [] ∨ (w.serve requests).1.head?.any Exchange.asksMore = true)
    (all : drained (w.serve requests).1 = true) :
    Balances w (w.serve requests).2 o earlier (requests.filterMap Request.item?)
        (handedOut (w.serve requests).1) ∧
      (w.serve requests).2.pending = [] := by
  induction requests generalizing w earlier with
  | nil => exact ⟨follows.balances, turn.resolve_right Bool.false_ne_true⟩
  | cons request requests ih =>
    have turn' : w.pending = [] ∨ request.item? = none :=
      turn.imp_right fun more => Option.isNone_iff_eq_none.1 more
    obtain ⟨here, rest⟩ := (Bool.and_eq_true _ _).mp all
    obtain ⟨first, last⟩ := (w.answer_answers request).balances_of_turn follows
      (room request List.mem_cons_self) turn'
    -- The call filled its buffer, and a call for more follows, or nothing is left.
    have next : (w.answer request).2.pending = [] ∨
        ((w.answer request).2.serve requests).1.head?.any Exchange.asksMore = true := by
      rcases (Bool.or_eq_true _ _).mp here with part | more
      · exact .inl (last (by simpa using part))
      · exact .inr more
    obtain ⟨second, idle⟩ := ih first.follows
      (fun request mem => room request (List.mem_cons_of_mem _ mem)) next rest
    rw [filterMap_item?_cons]
    exact ⟨first.trans second, idle⟩

end

/-! ### Whatever the buffers -/

/-- What a call finds to hand out: what is pending, or the fragment of its item. -/
def due (w : Writer) (earlier : List Item) : Request → Except WriterError Bytes
  | .write item _ => fragmentAfter w.options earlier item
  | .more _ => .ok w.pending

/-- A call hands out the start of what it finds and leaves the rest pending, or changes nothing. -/
theorem answer_due {w : Writer} {o : WriterOptions} {earlier : List Item}
    (follows : w.Follows o earlier) (request : Request) :
    match w.answer request with
    | (.error _, next) => next = w
    | (.ok slice, next) =>
      ∃ bytes, w.due earlier request = .ok bytes ∧
        slice = bytes.take request.capacity ∧ next.pending = bytes.drop request.capacity ∧
        slice.length = min request.capacity bytes.length ∧
        (slice.length < request.capacity → next.pending = []) ∧
        (request.item? ≠ none → w.pending = []) := by
  have start : ∀ (bytes : Bytes) (capacity : Nat),
      (bytes.take capacity).length = min capacity bytes.length ∧
        ((bytes.take capacity).length < capacity → bytes.drop capacity = []) := by
    intro bytes capacity
    rw [List.length_take]
    exact ⟨rfl, fun part => List.drop_eq_nil_of_le (by omega)⟩
  have answers := w.answer_answers request
  generalize w.answer request = answered at answers
  obtain ⟨answer, next⟩ := answered
  cases answers with
  | refused e => rfl
  | @write item capacity bytes slots _ idle fragment =>
    obtain ⟨length, part⟩ := start bytes capacity
    refine ⟨bytes, ?_, rfl, rfl, length, part, fun _ => idle⟩
    rw [due, follows.options, follows.fragmentAfter_eq, fragment]
    rfl
  | @more capacity =>
    obtain ⟨length, part⟩ := start w.pending capacity
    exact ⟨w.pending, rfl, rfl, rfl, length, part, fun absurd => (absurd rfl).elim⟩

/-- **No byte is lost, repeated or moved, whatever the sizes of the buffers.** After any calls since
a reset, what has been handed out and what is pending are the fragments of the items taken, in
order. A further call is refused and changes nothing, or it hands out the first bytes of what it
finds, as many as there is room for, and leaves the rest pending; an item is taken only if nothing
is pending. Callers who ask for the same items with room for output, and drain every fragment, get
the same bytes and leave the same containers open. -/
theorem serve_conserves (w : Writer) (requests : List Request) :
    (handedOut (w.reset.serve requests).1 ++ (w.reset.serve requests).2.pending =
        (fragments w.options [] (taken (w.reset.serve requests).1)).flatten) ∧
      (∀ request : Request,
        match (w.reset.serve requests).2.answer request with
        | (.error _, next) => next = (w.reset.serve requests).2
        | (.ok slice, next) =>
          ∃ bytes, (w.reset.serve requests).2.due (taken (w.reset.serve requests).1) request =
              .ok bytes ∧
            slice = bytes.take request.capacity ∧ next.pending = bytes.drop request.capacity ∧
            slice.length = min request.capacity bytes.length ∧
            (slice.length < request.capacity → next.pending = []) ∧
            (request.item? ≠ none → (w.reset.serve requests).2.pending = [])) ∧
      ∀ others : List Request,
        requests.filterMap Request.item? = others.filterMap Request.item? →
        (∀ request ∈ requests, 0 < request.capacity) → (∀ request ∈ others, 0 < request.capacity) →
        drained (w.reset.serve requests).1 = true → drained (w.reset.serve others).1 = true →
          handedOut (w.reset.serve requests).1 = handedOut (w.reset.serve others).1 ∧
            (w.reset.serve requests).2.depth = (w.reset.serve others).2.depth := by
  have balance := serve_balances w.follows_reset requests
  refine ⟨balance.bytes, answer_due balance.follows, ?_⟩
  intro others same room room' all all'
  obtain ⟨one, idle⟩ := serve_balances_of_drained w.follows_reset room (.inl rfl) all
  obtain ⟨other, idle'⟩ := serve_balances_of_drained w.follows_reset room' (.inl rfl) all'
  have bytes := one.bytes.trans (same ▸ other.bytes.symm)
  rw [idle, idle', List.append_nil, List.append_nil] at bytes
  refine ⟨bytes, ?_⟩
  rw [depth, depth, one.follows.slots, other.follows.slots, same]

/-- An array of two elements with a closing of the wrong kind in between, written one byte at a time
and into buffers of changing sizes, some of them filled exactly. -/
theorem serve_conserves_mismatched :
    let bytewise : List Request :=
      [.write .beginArray 1, .more 1, .write (.scalar (.bool true)) 3, .more 3, .more 1,
        .write .endObject 1, .write (.scalar (.string "é")) 1, .more 1, .more 1, .more 1, .more 1,
        .more 1, .more 1, .more 1, .more 1, .write .endArray 9]
    let whole : List Request :=
      [.write .beginArray 64, .write (.scalar (.bool true)) 6, .more 2, .write .endObject 64,
        .write (.scalar (.string "é")) 64, .write .endArray 2, .more 5]
    let w : Writer := { options := { indent := some " " } }
    handedOut (w.reset.serve bytewise).1 = handedOut (w.reset.serve whole).1 ∧
      (w.reset.serve bytewise).2.depth = (w.reset.serve whole).2.depth :=
  (serve_conserves { options := { indent := some " " } } _).2.2 _ rfl (by decide) (by decide)
    (by decide) (by decide)

end Writer

end JsonStream
