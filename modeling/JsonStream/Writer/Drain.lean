import JsonStream.Writer.Basic

/-!
# Handing out whole fragments

A caller with buffers of one size asks for more as long as it gets a full buffer. A fragment that
fits exactly is followed by an empty slice.
-/

namespace JsonStream

namespace Writer

/-- The slices that follow a full one. -/
def drain (w : Writer) (capacity : Nat) : List Bytes × Writer :=
  if _more : 0 < capacity ∧ capacity ≤ w.pending.length then
    let more := drain (w.handOut capacity).2 capacity
    ((w.handOut capacity).1 :: more.1, more.2)
  else ([(w.handOut capacity).1], (w.handOut capacity).2)
termination_by w.pending.length
decreasing_by
  simp only [handOut, List.length_drop]
  omega

/-- All slices after a call, given what it answered. -/
def drainAfter (capacity : Nat) : Except WriterError Bytes × Writer →
    Except WriterError (List Bytes) × Writer
  | (.error e, w) => (.error e, w)
  | (.ok slice, w) =>
    if slice.length = capacity then
      let more := w.drain capacity
      (.ok (slice :: more.1), more.2)
    else (.ok [slice], w)

/-- Writes an item and hands out its fragment in slices. -/
def writeAll (w : Writer) (item : Item) (capacity : Nat) :
    Except WriterError (List Bytes) × Writer :=
  drainAfter capacity (w.write item capacity)

/-- Hands out the rest of the last fragment in slices. -/
def continueAll (w : Writer) (capacity : Nat) : Except WriterError (List Bytes) × Writer :=
  drainAfter capacity (w.continueWrite capacity)

end Writer

end JsonStream
