import JsonStream.Proofs.Acceptance
import JsonStream.Writer.Basic

/-!
# Outlines of documents

What may come next in a sequence of tokens depends only on the containers that are open and on what
stands next in each of them. An `Outline` is that much. The tokens that an outline takes one after
another are those of a document that is not complete yet, or of one that is.

* `Outline.Takes`: one token.
* `Outline.Reads.depth`: openings and closings are counted.
* `Outline.Reads.isPrefix`: the tokens so far start those of a value.
* `Outline.Reads.of_done_mem`: the end of the document comes after all tokens of a value.
-/

namespace JsonStream

/-- How far a document has been told. -/
inductive Outline where
  /-- Nothing of it. -/
  | start
  /-- It is inside containers, the innermost of them with the given slot. -/
  | inside (slot : Slot) (outer : List Slot)
  /-- All of it. -/
  | complete
deriving Repr, DecidableEq

namespace Outline

/-- The slots of the open containers, the innermost first. -/
def slots : Outline → List Slot
  | .inside slot outer => slot :: outer
  | .start | .complete => []

/-- The slots after a value or a key. -/
def filled : Outline → List Slot
  | .inside slot outer => slot.filled :: outer
  | .start | .complete => []

/-- The outline after a value, given the slots of the containers around it. -/
def around : List Slot → Outline
  | [] => .complete
  | slot :: outer => .inside slot outer

/-- Whether a value may come next: not where a key stands. -/
def Due : Outline → Prop
  | .start => True
  | .inside slot _ => slot.filled ≠ .memberValue
  | .complete => False

/-- **What a token makes of an outline**, if it may come next. The end of the document may be
reported again. -/
inductive Takes : Outline → Token → Outline → Prop where
  | scalar {o : Outline} {token : Token} {v : Value} (due : o.Due)
      (alone : token.scalar? = some v) : Takes o token (around o.filled)
  | key {slot : Slot} {outer : List Slot} {text : String} (place : slot.filled = .memberValue) :
      Takes (.inside slot outer) (.key text) (.inside .memberValue outer)
  | beginArray {o : Outline} (due : o.Due) : Takes o .beginArray (.inside .firstElement o.filled)
  | endArray {slot : Slot} {outer : List Slot} (array : slot.inArray = true) :
      Takes (.inside slot outer) .endArray (around outer)
  | beginObject {o : Outline} (due : o.Due) : Takes o .beginObject (.inside .firstKey o.filled)
  | endObject {slot : Slot} {outer : List Slot} (place : slot.filled = .memberValue) :
      Takes (.inside slot outer) .endObject (around outer)
  | done : Takes .complete .done .complete

/-- The tokens lead from the start to an outline. -/
inductive Reads : List Token → Outline → Prop where
  | nil : Reads [] .start
  | snoc {tokens : List Token} {o next : Outline} {token : Token} (before : Reads tokens o)
      (last : o.Takes token next) : Reads (tokens ++ [token]) next

/-! ### Depth -/

@[simp] theorem slots_around (slots : List Slot) : (around slots).slots = slots := by
  cases slots <;> rfl

@[simp] theorem length_filled (o : Outline) : o.filled.length = o.slots.length := by
  cases o <;> rfl

end Outline

/-- Whether a token opens a container. -/
def Token.isOpening : Token → Bool
  | .beginArray | .beginObject => true
  | _ => false

/-- Whether a token closes a container. -/
def Token.isClosing : Token → Bool
  | .endArray | .endObject => true
  | _ => false

theorem Token.not_bracket_of_scalar? {token : Token} {v : Value} (h : token.scalar? = some v) :
    token.isOpening = false ∧ token.isClosing = false := by
  cases token <;> first | contradiction | exact ⟨rfl, rfl⟩

namespace Outline

variable {tokens : List Token} {o next : Outline} {token : Token}

/-- A token changes the depth if it is a bracket. -/
theorem Takes.depth (h : o.Takes token next) :
    next.slots.length + [token].countP Token.isClosing =
      o.slots.length + [token].countP Token.isOpening := by
  cases h with
  | scalar due alone =>
    obtain ⟨opening, closing⟩ := Token.not_bracket_of_scalar? alone
    simp [opening, closing]
  | key | done => rfl
  | beginArray | beginObject =>
    show o.filled.length + 1 = _
    rw [length_filled]
    rfl
  | endArray | endObject =>
    rw [slots_around]
    rfl

/-- **As many containers are open as have been opened and not closed.** -/
theorem Reads.depth (h : Reads tokens o) :
    o.slots.length + tokens.countP Token.isClosing = tokens.countP Token.isOpening := by
  induction h with
  | nil => rfl
  | snoc _ last ih =>
    have step := last.depth
    rw [List.countP_append, List.countP_append]
    omega

/-! ### Unfinished documents -/

/-- What stands next in an array with these elements. -/
def elementSlot (elements : List Value) : Slot :=
  if elements.isEmpty then .firstElement else .nextElement

/-- What stands next in an object with these members. -/
def keySlot (members : List (String × Value)) : Slot :=
  if members.isEmpty then .firstKey else .nextKey

theorem filled_elementSlot (vs : List Value) : (elementSlot vs).filled = .nextElement := by
  cases vs <;> rfl

theorem elementSlot_append (vs : List Value) (v : Value) :
    elementSlot (vs ++ [v]) = .nextElement := by
  cases vs <;> rfl

theorem filled_keySlot (ms : List (String × Value)) : (keySlot ms).filled = .memberValue := by
  cases ms <;> rfl

theorem keySlot_append (ms : List (String × Value)) (m : String × Value) :
    keySlot (ms ++ [m]) = .nextKey := by
  cases ms <;> rfl

theorem inArray_keySlot (ms : List (String × Value)) : (keySlot ms).inArray = false := by
  cases ms <;> rfl

/-- The tokens of a document that has been told up to an outline: the complete elements and members
of each open container, and in the innermost one perhaps a key without its value. -/
inductive Unfinished : List Token → Outline → Prop where
  | start : Unfinished [] .start
  | array {tokens : List Token} {o : Outline} (before : Unfinished tokens o) (due : o.Due)
      (elements : List Value) :
      Unfinished (tokens ++ .beginArray :: Value.flattenElements elements)
        (.inside (elementSlot elements) o.filled)
  | object {tokens : List Token} {o : Outline} (before : Unfinished tokens o) (due : o.Due)
      (members : List (String × Value)) :
      Unfinished (tokens ++ .beginObject :: Value.flattenMembers members)
        (.inside (keySlot members) o.filled)
  | member {tokens : List Token} {o : Outline} (before : Unfinished tokens o) (due : o.Due)
      (members : List (String × Value)) (key : String) :
      Unfinished (tokens ++ .beginObject :: (Value.flattenMembers members ++ [.key key]))
        (.inside .memberValue o.filled)

end Outline

namespace Value

theorem flatten_of_scalar? {token : Token} {v : Value} (h : token.scalar? = some v) :
    v.flatten = [token] := by
  cases token <;> first | contradiction | (cases h; rfl)

theorem flattenElements_append_singleton (vs : List Value) (v : Value) :
    flattenElements (vs ++ [v]) = flattenElements vs ++ v.flatten := by
  induction vs with
  | nil => exact List.append_nil _
  | cons w vs ih => rw [List.cons_append, flattenElements, flattenElements, ih, List.append_assoc]

theorem flattenMembers_append_singleton (ms : List (String × Value)) (key : String) (v : Value) :
    flattenMembers (ms ++ [(key, v)]) = flattenMembers ms ++ .key key :: v.flatten := by
  induction ms with
  | nil => exact congrArg (Token.key key :: ·) (List.append_nil _)
  | cons m ms ih =>
    rw [List.cons_append, flattenMembers, flattenMembers, ih, List.cons_append, List.append_assoc]

end Value

namespace Outline

variable {tokens : List Token} {o next : Outline} {token : Token}

/-- The tokens of a document up to an outline: it is unfinished, or it is one value, and then its
end may have been reported. -/
inductive Told : List Token → Outline → Prop where
  | unfinished {tokens : List Token} {o : Outline} (h : Unfinished tokens o) : Told tokens o
  | complete (v : Value) (n : Nat) : Told (v.flatten ++ List.replicate n .done) .complete

/-- A value that is due makes up one more element, the value of the last key, or the document. -/
theorem Unfinished.value (h : Unfinished tokens o) (due : o.Due) (v : Value) :
    Told (tokens ++ v.flatten) (around o.filled) := by
  cases h with
  | start =>
    have told := Told.complete v 0
    rw [List.replicate_zero, List.append_nil] at told
    exact told
  | array before outer vs =>
    have more := Unfinished.array before outer (vs ++ [v])
    rw [Value.flattenElements_append_singleton, elementSlot_append] at more
    rw [List.append_assoc, List.cons_append]
    show Told _ (.inside (elementSlot vs).filled _)
    rw [filled_elementSlot]
    exact .unfinished more
  | object _ _ ms => exact absurd (filled_keySlot ms) due
  | member before outer ms key =>
    have more := Unfinished.object before outer (ms ++ [(key, v)])
    rw [Value.flattenMembers_append_singleton, keySlot_append] at more
    rw [List.append_assoc, List.cons_append, List.append_assoc]
    exact .unfinished more

theorem Told.unfinished_of_due (h : Told tokens o) (due : o.Due) : Unfinished tokens o := by
  cases h with
  | unfinished unfinished => exact unfinished
  | complete => exact due.elim

theorem Told.unfinished_of_inside {slot : Slot} {outer : List Slot}
    (h : Told tokens (.inside slot outer)) : Unfinished tokens (.inside slot outer) := by
  cases h with
  | unfinished unfinished => exact unfinished

theorem Unfinished.key {slot : Slot} {outer : List Slot}
    (h : Unfinished tokens (.inside slot outer)) (place : slot.filled = .memberValue)
    (text : String) : Unfinished (tokens ++ [.key text]) (.inside .memberValue outer) := by
  cases h with
  | array _ _ vs =>
    rw [filled_elementSlot] at place
    contradiction
  | object before due ms =>
    rw [List.append_assoc, List.cons_append]
    exact .member before due ms text
  | member => contradiction

/-- The end of an array completes it. -/
theorem Unfinished.endArray {slot : Slot} {outer : List Slot}
    (h : Unfinished tokens (.inside slot outer)) (array : slot.inArray = true) :
    Told (tokens ++ [.endArray]) (around outer) := by
  cases h with
  | array before due vs =>
    rw [List.append_assoc, List.cons_append]
    exact before.value due (.array vs)
  | object _ _ ms =>
    rw [inArray_keySlot] at array
    contradiction
  | member => contradiction

/-- The end of an object completes it. -/
theorem Unfinished.endObject {slot : Slot} {outer : List Slot}
    (h : Unfinished tokens (.inside slot outer)) (place : slot.filled = .memberValue) :
    Told (tokens ++ [.endObject]) (around outer) := by
  cases h with
  | array _ _ vs =>
    rw [filled_elementSlot] at place
    contradiction
  | object before due ms =>
    rw [List.append_assoc, List.cons_append]
    exact before.value due (.object ms)
  | member => contradiction

theorem Told.done (h : Told tokens .complete) : Told (tokens ++ [.done]) .complete := by
  cases h with
  | unfinished unfinished => cases unfinished
  | complete v n =>
    rw [List.append_assoc, ← List.replicate_succ']
    exact .complete v (n + 1)

/-- **What is told up to an outline stays told** when the outline takes one more token. -/
theorem Told.takes (h : Told tokens o) (last : o.Takes token next) :
    Told (tokens ++ [token]) next := by
  cases last with
  | @scalar _ _ v due alone =>
    rw [← Value.flatten_of_scalar? alone]
    exact (h.unfinished_of_due due).value due v
  | key place => exact .unfinished (h.unfinished_of_inside.key place _)
  | beginArray due => exact .unfinished (.array (h.unfinished_of_due due) due [])
  | endArray array => exact h.unfinished_of_inside.endArray array
  | beginObject due => exact .unfinished (.object (h.unfinished_of_due due) due [])
  | endObject place => exact h.unfinished_of_inside.endObject place
  | done => exact h.done

theorem Reads.told (h : Reads tokens o) : Told tokens o := by
  induction h with
  | nil => exact .unfinished .start
  | snoc _ last ih => exact ih.takes last

/-! ### Finishing a document -/

/-- An unfinished document can be finished, whatever value is next. -/
theorem Unfinished.exists_flatten_of_due (h : Unfinished tokens o) (due : o.Due) (v : Value) :
    ∃ w rest, tokens ++ (v.flatten ++ rest) = Value.flatten w := by
  induction h generalizing v with
  | start => exact ⟨v, [], List.append_nil _⟩
  | array before outer vs ih =>
    obtain ⟨w, rest, whole⟩ := ih outer (.array (vs ++ [v]))
    refine ⟨w, .endArray :: rest, ?_⟩
    rw [← whole, Value.flatten, Value.flattenElements_append_singleton]
    simp only [List.append_assoc, List.cons_append, List.nil_append]
  | object _ _ ms => exact absurd (filled_keySlot ms) due
  | member before outer ms key ih =>
    obtain ⟨w, rest, whole⟩ := ih outer (.object (ms ++ [(key, v)]))
    refine ⟨w, .endObject :: rest, ?_⟩
    rw [← whole, Value.flatten, Value.flattenMembers_append_singleton]
    simp only [List.append_assoc, List.cons_append, List.nil_append]

theorem Unfinished.exists_flatten (h : Unfinished tokens o) :
    ∃ w rest, tokens ++ rest = Value.flatten w := by
  cases h with
  | start => exact ⟨.null, _, rfl⟩
  | array before due vs =>
    obtain ⟨w, rest, whole⟩ := before.exists_flatten_of_due due (.array vs)
    refine ⟨w, .endArray :: rest, ?_⟩
    rw [← whole, Value.flatten]
    simp only [List.append_assoc, List.cons_append, List.nil_append]
  | object before due ms =>
    obtain ⟨w, rest, whole⟩ := before.exists_flatten_of_due due (.object ms)
    refine ⟨w, .endObject :: rest, ?_⟩
    rw [← whole, Value.flatten]
    simp only [List.append_assoc, List.cons_append, List.nil_append]
  | member before due ms key =>
    have unfinished := Unfinished.member before due ms key
    obtain ⟨w, rest, whole⟩ := unfinished.exists_flatten_of_due nofun .null
    exact ⟨w, _, whole⟩

/-- **The tokens so far start those of a value**, and its end may have been reported. -/
theorem Reads.isPrefix (h : Reads tokens o) :
    ∃ v n, tokens <+: Value.flatten v ++ List.replicate n .done := by
  cases h.told with
  | unfinished unfinished =>
    obtain ⟨v, rest, whole⟩ := unfinished.exists_flatten
    refine ⟨v, 0, rest, ?_⟩
    rw [whole, List.replicate_zero, List.append_nil]
  | complete v n => exact ⟨v, n, List.prefix_refl _⟩

/-- **The end of a document comes after all tokens of one value**, and nothing comes after it. -/
theorem Reads.of_done_mem (h : Reads tokens o) (mem : .done ∈ tokens) :
    o = .complete ∧ ∃ v n, tokens = Value.flatten v ++ List.replicate (n + 1) .done := by
  cases h.told with
  | unfinished unfinished =>
    obtain ⟨v, rest, whole⟩ := unfinished.exists_flatten
    refine absurd ?_ v.done_not_mem_flatten
    rw [← whole]
    exact List.mem_append_left rest mem
  | complete v n =>
    cases n with
    | zero =>
      rw [List.replicate_zero, List.append_nil] at mem
      exact absurd mem v.done_not_mem_flatten
    | succ n => exact ⟨rfl, v, n, rfl⟩

end Outline

end JsonStream
