import Mathlib.Data.List.Forall2
import JsonStream.Proofs.Outline
import JsonStream.Reader.Step

/-!
# Frames and outlines

The frames of a reader show the outline of the document that it has reported: one frame for each
open container. What a frame accepts next belongs to the slot that stands next in its container, and
a value or a key fills that slot.

* `Reader.Shows`: which outline frames show.
* `Reader.Shows.value`, `Reader.Shows.key`: where a value or a key is read, one may come next.
* `Reader.shows_valueCompleted`: when it is complete, the containers around it go on.
-/

namespace JsonStream

/-! ### Frames and slots -/

namespace Frame

/-- What a container accepts next belongs to the slot that stands next in it. -/
def Shows : Frame → Slot → Prop
  | .array .first, slot => slot = .firstElement
  | .array .value, slot => slot.inArray = true
  | .array .separator, slot => slot = .nextElement
  | .object .first, slot => slot = .firstKey
  | .object .key, slot => slot.filled = .memberValue
  | .object .colon, slot | .object .value, slot => slot = .memberValue
  | .object .separator, slot => slot = .nextKey

/-- Whether a value may be read now, or is being read. -/
def takesValue : Frame → Bool
  | .array .first | .array .value | .object .value => true
  | _ => false

variable {frame : Frame} {slot : Slot}

theorem Shows.started (h : frame.Shows slot) : frame.started.Shows slot := by
  rcases frame with slot' | slot' <;> cases slot' <;> first | exact h | (cases h; rfl)

theorem takesValue_started (h : frame.takesValue = true) : frame.started.takesValue = true := by
  rcases frame with slot' | slot' <;> cases slot' <;> first | rfl | contradiction

theorem takesKey_started (h : frame.takesKey = true) : frame.started.takesKey = true := by
  rcases frame with slot' | slot' <;> cases slot' <;> first | rfl | contradiction

/-- A value fills the slot that it stands in, which is none of a key. -/
theorem Shows.value (h : frame.Shows slot) (takes : frame.takesValue = true) :
    slot.filled ≠ .memberValue ∧ frame.completed.Shows slot.filled := by
  rcases frame with slot' | slot' <;> cases slot' <;> first
    | contradiction
    | (cases slot <;> first | contradiction | exact ⟨by decide, rfl⟩)

/-- A key fills the slot that it stands in. -/
theorem Shows.key (h : frame.Shows slot) (takes : frame.takesKey = true) :
    slot.filled = .memberValue ∧ frame.completed.Shows slot.filled := by
  rcases frame with slot' | slot' <;> cases slot' <;> first
    | contradiction
    | (cases slot <;> first | contradiction | exact ⟨rfl, rfl⟩)

end Frame

/-- Containers that stay open while one inside them is read: each goes on as after a value. -/
abbrev Enclose (frames : List Frame) (slots : List Slot) : Prop :=
  List.Forall₂ (fun frame slot => frame.completed.Shows slot) frames slots

namespace Reader

/-- The frames of a reader show an outline. -/
inductive Shows : List Frame → Root → Outline → Prop where
  | start : Shows [] .value .start
  | inside {frame : Frame} {slot : Slot} {frames : List Frame} {slots : List Slot}
      (innermost : frame.Shows slot) (outer : Enclose frames slots) :
      Shows (frame :: frames) .value (.inside slot slots)
  | complete {root : Root} (ended : root ≠ .value) : Shows [] root .complete

/-- A value may be read now, or is being read. -/
def TakesValue (r : Reader) : Prop :=
  match r.frames with
  | [] => r.root = .value
  | frame :: _ => frame.takesValue = true

variable {r : Reader} {o : Outline}

/-! ### Values and keys -/

/-- Where a value is read, one is due, and it fills its slot. -/
theorem Shows.value (h : Shows r.frames r.root o) (takes : r.TakesValue) :
    r.root = .value ∧ o.Due ∧ Enclose r.frames o.filled := by
  rw [TakesValue] at takes
  cases frames : r.frames with
  | nil =>
    rw [frames] at h takes
    dsimp only at takes
    generalize r.root = root at h takes ⊢
    cases h with
    | start => exact ⟨rfl, trivial, .nil⟩
    | complete ended => exact absurd takes ended
  | cons frame outer =>
    rw [frames] at h takes
    generalize r.root = root at h ⊢
    cases h with
    | inside innermost outer =>
      obtain ⟨due, filled⟩ := innermost.value takes
      exact ⟨rfl, due, .cons filled outer⟩

/-- Where a key is read, one may come next, and it fills its slot. -/
theorem Shows.key (h : Shows r.frames r.root o) (takes : r.takesKey = true) :
    r.root = .value ∧ ∃ slot outer, o = .inside slot outer ∧ slot.filled = .memberValue ∧
      Enclose r.frames o.filled := by
  rw [takesKey] at takes
  cases frames : r.frames with
  | nil =>
    rw [frames] at takes
    contradiction
  | cons frame outer =>
    rw [frames] at h takes
    generalize r.root = root at h ⊢
    cases h with
    | inside innermost outer =>
      obtain ⟨place, filled⟩ := innermost.key takes
      exact ⟨rfl, _, _, rfl, place, .cons filled outer⟩

/-- When a value is complete, the containers around it go on. -/
theorem shows_valueCompleted {slots : List Slot} (root : r.root = .value)
    (outer : Enclose r.frames slots) :
    Shows r.valueCompleted.frames r.valueCompleted.root (.around slots) := by
  rw [valueCompleted]
  cases frames : r.frames with
  | nil =>
    rw [frames] at outer
    cases outer
    show Shows [] .afterValue .complete
    exact .complete (by decide)
  | cons frame rest =>
    rw [frames] at outer
    cases outer with
    | cons innermost outer =>
      show Shows _ r.root _
      rw [root]
      exact .inside innermost outer

theorem shows_valueStarted (h : Shows r.frames r.root o) :
    Shows r.valueStarted.frames r.valueStarted.root o := by
  rw [valueStarted]
  cases frames : r.frames with
  | nil =>
    dsimp only
    rw [frames]
    rw [frames] at h
    exact h
  | cons frame outer =>
    rw [frames] at h
    show Shows _ r.root _
    generalize r.root = root at h
    cases h with
    | inside innermost outer => exact .inside innermost.started outer

theorem takesValue_valueStarted (h : r.TakesValue) : r.valueStarted.TakesValue := by
  rw [TakesValue] at h ⊢
  rw [valueStarted]
  cases frames : r.frames with
  | nil =>
    rw [frames] at h
    dsimp only
    rw [frames]
    exact h
  | cons frame outer =>
    rw [frames] at h
    exact Frame.takesValue_started h

theorem takesKey_valueStarted (h : r.takesKey = true) : r.valueStarted.takesKey = true := by
  rw [takesKey] at h ⊢
  rw [valueStarted]
  cases frames : r.frames with
  | nil =>
    rw [frames] at h
    contradiction
  | cons frame outer =>
    rw [frames] at h
    exact Frame.takesKey_started h

end Reader

end JsonStream
