import JsonStream.Writer.Drain

/-!
# What a writer prints

A writer with nothing pending hands out the whole fragment of an item, however small the slices are,
and then has nothing pending again. So what it prints for some items are their fragments one after
another.

* `Writer.writeAll_eq_ok`: one item.
* `Writer.Prints`: items one after another, which compose and determine what is printed.
* `Writer.writeEach_eq_ok`: what is printed is handed out.
-/

namespace JsonStream

namespace Writer

/-! ### One item -/

/-- All that is pending is handed out. -/
theorem drain_spec (w : Writer) {capacity : Nat} (room : 0 < capacity) :
    (w.drain capacity).1.flatten = w.pending ∧
      (w.drain capacity).2 = { w with pending := [] } := by
  induction w using drain.induct capacity with
  | case1 w more ih =>
    obtain ⟨flat, left⟩ := ih
    rw [drain, dif_pos more]
    refine ⟨?_, left⟩
    show (w.handOut capacity).1 ++ ((w.handOut capacity).2.drain capacity).1.flatten = _
    rw [flat, handOut_append]
  | case2 w last =>
    have short : w.pending.length ≤ capacity := by omega
    rw [drain, dif_neg last]
    refine ⟨?_, ?_⟩
    · show w.pending.take capacity ++ [] = _
      rw [List.append_nil, List.take_of_length_le short]
    · show { w with pending := w.pending.drop capacity } = _
      rw [List.drop_of_length_le short]

/-- A call that hands out the start of what is pending is followed by the rest of it. -/
theorem drainAfter_handOut (w : Writer) {capacity : Nat} (room : 0 < capacity) :
    ∃ slices, drainAfter capacity (.ok (w.handOut capacity).1, (w.handOut capacity).2) =
        (.ok slices, { w with pending := [] }) ∧ slices.flatten = w.pending := by
  by_cases full : (w.handOut capacity).1.length = capacity
  · obtain ⟨flat, left⟩ := (w.handOut capacity).2.drain_spec room
    refine ⟨(w.handOut capacity).1 :: ((w.handOut capacity).2.drain capacity).1, ?_, ?_⟩
    · rw [drainAfter, if_pos full]
      exact congrArg (Prod.mk _) left
    · rw [List.flatten_cons, flat, handOut_append]
  · have short : w.pending.length ≤ capacity := by
      rw [length_handOut] at full
      omega
    refine ⟨[(w.handOut capacity).1], ?_, ?_⟩
    · rw [drainAfter, if_neg full]
      show (_, { w with pending := w.pending.drop capacity }) = _
      rw [List.drop_of_length_le short]
    · show w.pending.take capacity ++ [] = _
      rw [List.append_nil, List.take_of_length_le short]

/-- **The whole fragment of an item is handed out.** -/
theorem writeAll_eq_ok {w : Writer} {item : Item} {capacity : Nat} {bytes : Bytes}
    {slots : List Slot} (room : 0 < capacity) (idle : w.pending = [])
    (fragment : w.fragment item = .ok (bytes, slots)) :
    ∃ slices, w.writeAll item capacity = (.ok slices, { w with slots }) ∧
      slices.flatten = bytes := by
  have loaded : w.write item capacity =
      (.ok (Writer.handOut { w with slots, pending := bytes } capacity).1,
        (Writer.handOut { w with slots, pending := bytes } capacity).2) := by
    rw [write, if_neg (by omega), if_neg (fun pending => pending idle), fragment]
  obtain ⟨slices, all, flat⟩ := drainAfter_handOut { w with slots, pending := bytes } room
  refine ⟨slices, ?_, flat⟩
  rw [writeAll, loaded, all, ← idle]

/-! ### Items one after another -/

/-- The fragments of items one after another, and the writer after them. -/
inductive Prints : Writer → List Item → Bytes → Writer → Prop where
  | nil (w : Writer) : Prints w [] [] w
  | cons {w next : Writer} {item : Item} {items : List Item} {bytes rest : Bytes}
      {slots : List Slot} (fragment : w.fragment item = .ok (bytes, slots))
      (more : Prints { w with slots } items rest next) :
      Prints w (item :: items) (bytes ++ rest) next

namespace Prints

variable {w middle next : Writer} {first second : List Item} {bytes rest : Bytes}

theorem single {item : Item} {slots : List Slot} (fragment : w.fragment item = .ok (bytes, slots)) :
    w.Prints [item] bytes { w with slots } := by
  have printed := Prints.cons fragment (.nil { w with slots })
  rw [List.append_nil] at printed
  exact printed

theorem append (before : w.Prints first bytes middle) (after : middle.Prints second rest next) :
    w.Prints (first ++ second) (bytes ++ rest) next := by
  induction before with
  | nil w => exact after
  | cons fragment _ ih =>
    rw [List.append_assoc]
    exact .cons fragment (ih after)

theorem exists_of_append (h : w.Prints (first ++ second) bytes next) :
    ∃ front back middle, bytes = front ++ back ∧ w.Prints first front middle ∧
      middle.Prints second back next := by
  induction first generalizing w bytes with
  | nil => exact ⟨[], bytes, w, rfl, .nil w, h⟩
  | cons item first ih =>
    rw [List.cons_append] at h
    cases h with
    | cons fragment more =>
      obtain ⟨front, back, middle, rfl, before, after⟩ := ih more
      exact ⟨_, back, middle, (List.append_assoc ..).symm, .cons fragment before, after⟩

/-- Items determine what is printed. -/
theorem unique (h : w.Prints first bytes next) (other : w.Prints first rest middle) :
    bytes = rest ∧ next = middle := by
  induction h generalizing rest with
  | nil w =>
    cases other
    exact ⟨rfl, rfl⟩
  | cons fragment _ ih =>
    cases other with
    | cons fragment' more =>
      cases fragment.symm.trans fragment'
      obtain ⟨rfl, rfl⟩ := ih more
      exact ⟨rfl, rfl⟩

/-- Printing leaves nothing pending that has not been pending before. -/
theorem pending (h : w.Prints first bytes next) : next.pending = w.pending := by
  induction h with
  | nil w => rfl
  | cons _ _ ih => exact ih

end Prints

/-- Writes items one after another and hands their fragments out in slices, up to the first item
that is refused. -/
def writeEach (w : Writer) (capacity : Nat) :
    List Item → Except WriterError (List Bytes) × Writer
  | [] => (.ok [], w)
  | item :: items =>
    match w.writeAll item capacity with
    | (.error e, w) => (.error e, w)
    | (.ok slices, w) =>
      let more := w.writeEach capacity items
      (more.1.map (slices ++ ·), more.2)

/-- **What is printed is handed out**, in slices of any size. -/
theorem writeEach_eq_ok {w next : Writer} {items : List Item} {capacity : Nat} {bytes : Bytes}
    (room : 0 < capacity) (idle : w.pending = []) (printed : w.Prints items bytes next) :
    ∃ slices, w.writeEach capacity items = (.ok slices, next) ∧ slices.flatten = bytes := by
  induction printed with
  | nil w => exact ⟨[], rfl, rfl⟩
  | cons fragment _ ih =>
    obtain ⟨first, written, flat⟩ := writeAll_eq_ok room idle fragment
    obtain ⟨more, rest, flat_more⟩ := ih idle
    refine ⟨first ++ more, ?_, ?_⟩
    · rw [writeEach, written]
      dsimp only
      rw [rest]
      rfl
    · rw [List.flatten_append, flat, flat_more]

end Writer

end JsonStream
