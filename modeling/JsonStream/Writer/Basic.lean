import JsonStream.Writer.Scalar

/-!
# Writers

A writer turns items into text, one call for each, and hands the text out in slices as long as the
caller has room for. The text of one call is its fragment: what separates it from the items before
it, then the item itself. As long as a part of a fragment has not been handed out the next item is
refused, and `continueWrite` hands out more. A call that fails changes nothing.

A writer does not check the structure of a document. It keeps one slot per open container, which
is all that separators depend on.
-/

namespace JsonStream

/-- One piece of a document. -/
inductive Item where
  | scalar (value : Scalar)
  | beginArray
  | endArray
  | beginObject
  | endObject
deriving Repr, DecidableEq

/-- What the next item is to the innermost open container. -/
inductive Slot where
  /-- The first element of an array. -/
  | firstElement
  /-- A further element of an array. -/
  | nextElement
  /-- The first key of an object. -/
  | firstKey
  /-- A further key of an object. -/
  | nextKey
  /-- The value of the key before it. -/
  | memberValue
deriving Repr, DecidableEq, Inhabited

namespace Slot

/-- The slot after an item in this one. -/
def filled : Slot → Slot
  | .firstElement | .nextElement => .nextElement
  | .firstKey | .nextKey => .memberValue
  | .memberValue => .nextKey

/-- Whether the container is an array. -/
def inArray : Slot → Bool
  | .firstElement | .nextElement => true
  | .firstKey | .nextKey | .memberValue => false

/-- Whether nothing has been written into the container. -/
def isFirst : Slot → Bool
  | .firstElement | .firstKey => true
  | .nextElement | .nextKey | .memberValue => false

end Slot

/-- The state of writing documents. -/
structure Writer where
  options : WriterOptions := {}
  /-- The slots of the open containers, the innermost first. -/
  slots : List Slot := []
  /-- What has not been handed out of the last fragment. -/
  pending : Bytes := []
deriving Repr, DecidableEq, Inhabited

namespace Writer

/-- How many containers are open. -/
def depth (w : Writer) : Nat :=
  w.slots.length

/-- The writer with no container open and nothing to hand out. -/
def reset (w : Writer) : Writer :=
  { options := w.options }

/-- A new line with `depth` indents, if the writer indents. -/
def lineBreak (w : Writer) (depth : Nat) : Bytes :=
  match w.options.indent with
  | none => []
  | some indent => Byte.lineFeed :: (List.replicate depth (Utf8.bytes indent)).flatten

/-- What separates an item from what has been written before it. -/
def separator (w : Writer) : Bytes :=
  match w.slots with
  | [] => []
  | .memberValue :: _ =>
    if w.options.indent.isSome then [Byte.colon, Byte.space] else [Byte.colon]
  | slot :: _ => (if slot.isFirst then [] else [Byte.comma]) ++ w.lineBreak w.depth

/-- The slots after an item in the innermost container. -/
def filledSlots (w : Writer) : List Slot :=
  match w.slots with
  | [] => []
  | slot :: outer => slot.filled :: outer

/-- The fragment of an item with the given text and the slots after it, the item opening
containers with the slots `opened`. -/
def member (w : Writer) (text : Bytes) (opened : List Slot) : Bytes × List Slot :=
  (w.separator ++ text, opened ++ w.filledSlots)

/-- The fragment of a closing and the slots after it. What has members closes on a line of its
own. -/
def closing (w : Writer) (array : Bool) : Except WriterError (Bytes × List Slot) :=
  match w.slots with
  | [] => .error .nothingToClose
  | slot :: outer =>
    if slot.inArray = array then
      let bracket := if array then Byte.closeBracket else Byte.closeBrace
      .ok ((if slot.isFirst then [] else w.lineBreak outer.length) ++ [bracket], outer)
    else .error .mismatchedClose

/-- The fragment of an item and the slots after it. -/
def fragment (w : Writer) : Item → Except WriterError (Bytes × List Slot)
  | .scalar value => (value.text w.options.asciiOnly).map (w.member · [])
  | .beginArray => .ok (w.member [Byte.openBracket] [.firstElement])
  | .beginObject => .ok (w.member [Byte.openBrace] [.firstKey])
  | .endArray => w.closing true
  | .endObject => w.closing false

/-- Hands out as many pending bytes as there is room for. -/
def handOut (w : Writer) (capacity : Nat) : Bytes × Writer :=
  (w.pending.take capacity, { w with pending := w.pending.drop capacity })

/-- Writes an item and hands out the start of its fragment, or all of it. That there is room and
that nothing is pending is checked before anything else. -/
def write (w : Writer) (item : Item) (capacity : Nat) : Except WriterError Bytes × Writer :=
  if capacity = 0 then (.error .zeroCapacity, w)
  else if w.pending ≠ [] then (.error (.fragmentPending w.pending.length), w)
  else match w.fragment item with
    | .error e => (.error e, w)
    | .ok (bytes, slots) =>
      let loaded : Writer := { w with slots, pending := bytes }
      (.ok (loaded.handOut capacity).1, (loaded.handOut capacity).2)

/-- Hands out the next part of the last fragment. The fragment is complete once there is less of
it than room. -/
def continueWrite (w : Writer) (capacity : Nat) : Except WriterError Bytes × Writer :=
  if capacity = 0 then (.error .zeroCapacity, w)
  else (.ok (w.handOut capacity).1, (w.handOut capacity).2)

/-- What is handed out and what stays pending make up what was pending. -/
theorem handOut_append (w : Writer) (capacity : Nat) :
    (w.handOut capacity).1 ++ (w.handOut capacity).2.pending = w.pending :=
  List.take_append_drop capacity w.pending

theorem length_handOut (w : Writer) (capacity : Nat) :
    (w.handOut capacity).1.length = min capacity w.pending.length :=
  List.length_take

end Writer

end JsonStream
