import Mathlib.Tactic.SplitIfs
import JsonStream.Proofs.Writer.Conservation

/-!
# Refused calls leave no trace

A call is refused because there is no room for output, else because a fragment is pending, else for
a fault of its item: a closing that answers to no open container, components that would print as
another number, a text that is no number, or bytes that are not the UTF-8 they are said to be.
Whatever the cause, the writer stays as it is, so the caller may as well not have made the call.

* `Writer.fragment_eq_error_iff`, `Writer.answer_eq_error_iff`: what makes an item and a call fail,
  and which cause is reported.
* `Writer.turns_filter`: calls that are refused can be left out.
* `Writer.turns_succeeded`: without them every other call answers the same and leaves the same
  writer.
-/

namespace JsonStream

/-! ### Causes -/

/-- The fault of a scalar. -/
inductive Scalar.Faulty : Scalar → WriterError → Prop where
  | components {c : Number.Components} (overlong : c.fractionFits = false) :
      Faulty (.components c) .invalidNumber
  | literal {text : String} (other : Number.isLiteral (Utf8.bytes text) = false) :
      Faulty (.literal text) .invalidNumber
  | encoded {bytes : Bytes} (malformed : Utf8.text? bytes = none) :
      Faulty (.encoded bytes .utf8) (.invalidUtf8 (Utf8.validPrefixLength bytes))

/-- A scalar has no text exactly for its fault. -/
theorem Scalar.text_eq_error_iff {asciiOnly : Bool} {value : Scalar} {e : WriterError} :
    value.text asciiOnly = .error e ↔ value.Faulty e := by
  constructor
  · intro h
    cases value with
    | null | bool | float | integer | string => contradiction
    | components c =>
      rw [text] at h
      split_ifs at h with fits
      cases h
      exact .components (Bool.eq_false_iff.2 fits)
    | literal text =>
      rw [Scalar.text] at h
      split_ifs at h with number
      cases h
      exact .literal (Bool.eq_false_iff.2 number)
    | encoded bytes encoding =>
      cases encoding with
      | latin1 => contradiction
      | utf8 =>
        rw [text] at h
        split at h
        · contradiction
        · cases h
          exact .encoded ‹_›
  · intro fault
    cases fault with
    | components overlong =>
      rw [text, overlong]
      rfl
    | literal other =>
      rw [text, other]
      rfl
    | encoded malformed => rw [text, malformed]

/-- The kind of container that an item closes: whether it is an array. -/
def Item.closes? : Item → Option Bool
  | .endArray => some true
  | .endObject => some false
  | .scalar _ | .beginArray | .beginObject => none

namespace Writer

/-- The fault of an item. -/
inductive Faulty (w : Writer) : Item → WriterError → Prop where
  | nothingToClose {item : Item} {array : Bool} (closing : item.closes? = some array)
      (none : w.slots = []) : Faulty w item .nothingToClose
  | mismatchedClose {item : Item} {array : Bool} {slot : Slot} {outer : List Slot}
      (closing : item.closes? = some array) (innermost : w.slots = slot :: outer)
      (other : slot.inArray ≠ array) : Faulty w item .mismatchedClose
  | scalar {value : Scalar} {e : WriterError} (fault : value.Faulty e) :
      Faulty w (.scalar value) e

/-- The cause that a call is refused for. Room for output is asked for first, and an item is looked
at only if nothing is pending. -/
inductive Refused (w : Writer) : Request → WriterError → Prop where
  | zeroCapacity {request : Request} (none : request.capacity = 0) :
      Refused w request .zeroCapacity
  | fragmentPending {item : Item} {capacity : Nat} (room : 0 < capacity)
      (pending : w.pending ≠ []) :
      Refused w (.write item capacity) (.fragmentPending w.pending.length)
  | faulty {item : Item} {capacity : Nat} {e : WriterError} (room : 0 < capacity)
      (idle : w.pending = []) (fault : w.Faulty item e) : Refused w (.write item capacity) e

section
variable {w : Writer} {item : Item} {request : Request} {e : WriterError}

theorem closing_eq_error_iff {array : Bool} (closing : item.closes? = some array) :
    w.closing array = .error e ↔ w.Faulty item e := by
  rw [Writer.closing]
  constructor
  · intro h
    split at h
    · rename_i none
      cases h
      exact .nothingToClose closing none
    · rename_i slot outer innermost
      split_ifs at h with same
      cases h
      exact .mismatchedClose closing innermost same
  · intro fault
    cases fault with
    | nothingToClose _ none => rw [none]
    | mismatchedClose closing' innermost other =>
      cases closing.symm.trans closing'
      rw [innermost]
      exact if_neg other
    | scalar => contradiction

/-- **An item is refused exactly for its fault.** -/
theorem fragment_eq_error_iff : w.fragment item = .error e ↔ w.Faulty item e := by
  cases item with
  | endArray => exact closing_eq_error_iff rfl
  | endObject => exact closing_eq_error_iff rfl
  | beginArray | beginObject => exact iff_of_false nofun nofun
  | scalar value =>
    have text : w.fragment (.scalar value) = .error e ↔
        value.text w.options.asciiOnly = .error e := by
      rw [fragment]
      cases value.text w.options.asciiOnly with
      | ok text => exact iff_of_false nofun nofun
      | error cause => rw [Except.map, Except.error.injEq, Except.error.injEq]
    rw [text, Scalar.text_eq_error_iff]
    refine ⟨.scalar, fun fault => ?_⟩
    cases fault with
    | scalar fault => exact fault
    | nothingToClose closing | mismatchedClose closing => contradiction

/-- **A call is refused exactly for the first cause there is.** -/
theorem answer_eq_error_iff : (w.answer request).1 = .error e ↔ w.Refused request e := by
  cases request with
  | more capacity =>
    rw [answer, continueWrite]
    split_ifs with none
    · refine ⟨fun h => ?_, fun refused => ?_⟩
      · cases h
        exact .zeroCapacity none
      · cases refused with
        | zeroCapacity => rfl
    · refine ⟨fun h => ?_, fun refused => ?_⟩
      · contradiction
      · cases refused with
        | zeroCapacity none' => exact absurd none' none
  | write item capacity =>
    rw [answer, write]
    split_ifs with none pending
    · refine ⟨fun h => ?_, fun refused => ?_⟩
      · cases h
        exact .zeroCapacity none
      · cases refused with
        | zeroCapacity => rfl
        | fragmentPending room | faulty room => exact absurd none (Nat.pos_iff_ne_zero.1 room)
    · refine ⟨fun h => ?_, fun refused => ?_⟩
      · cases h
        exact .fragmentPending (Nat.pos_of_ne_zero none) pending
      · cases refused with
        | zeroCapacity none' => exact absurd none' none
        | fragmentPending => rfl
        | faulty _ idle => exact absurd idle pending
    · have idle : w.pending = [] := Classical.not_not.1 pending
      have cause : w.Refused (.write item capacity) e ↔ w.Faulty item e := by
        refine ⟨fun refused => ?_, .faulty (Nat.pos_of_ne_zero none) idle⟩
        cases refused with
        | zeroCapacity none' => exact absurd none' none
        | fragmentPending _ pending' => exact absurd pending' pending
        | faulty _ _ fault => exact fault
      rw [cause, ← fragment_eq_error_iff]
      cases w.fragment item with
      | ok done =>
        refine ⟨fun h => ?_, fun h => ?_⟩
        · contradiction
        · contradiction
      | error cause => rw [Except.error.injEq, Except.error.injEq]

/-- A refused call leaves the writer as it is. -/
theorem answer_of_error (h : (w.answer request).1 = .error e) : (w.answer request).2 = w := by
  have answers := w.answer_answers request
  rw [h] at answers
  generalize (w.answer request).2 = next at answers
  cases answers with
  | refused => rfl

end

/-! ### Commands in turn -/

/-- What a caller does with a writer. -/
inductive Command where
  | call (request : Request)
  | reset
deriving Repr, DecidableEq

/-- A command that was carried out, with its answer and the writer after it. -/
structure Turn where
  command : Command
  answer : Except WriterError Bytes
  after : Writer

namespace Turn

/-- Whether the command was carried out without an error. -/
def succeeded (turn : Turn) : Bool :=
  turn.answer.isOk

/-- The bytes that the command handed out. -/
def slice (turn : Turn) : Bytes :=
  turn.answer.toOption.getD []

end Turn

/-- Carries a command out. A reset hands nothing out. -/
def obey (w : Writer) : Command → Except WriterError Bytes × Writer
  | .call request => w.answer request
  | .reset => (.ok [], w.reset)

/-- Carries commands out in turn. -/
def turns (w : Writer) : List Command → List Turn
  | [] => []
  | command :: commands =>
    ⟨command, (w.obey command).1, (w.obey command).2⟩ :: (w.obey command).2.turns commands

/-- The writer after commands in turn. -/
def after (w : Writer) (commands : List Command) : Writer :=
  commands.foldl (fun w command => (w.obey command).2) w

/-- The commands of turns. -/
def commands (turns : List Turn) : List Command :=
  turns.map Turn.command

variable {w : Writer} {command : Command} {e : WriterError}

/-- Only a call fails, and it leaves the writer as it is. -/
theorem obey_of_not_succeeded
    (h : Turn.succeeded ⟨command, (w.obey command).1, (w.obey command).2⟩ = false) :
    (w.obey command).2 = w := by
  cases command with
  | reset => contradiction
  | call request =>
    cases failed : (w.answer request).1 with
    | error e => exact answer_of_error failed
    | ok slice =>
      rw [Turn.succeeded, obey, failed] at h
      contradiction

/-- **Calls that are refused can be left out**, all of them or some: the other commands are answered
the same and leave the same writers. -/
theorem turns_filter (keep : Turn → Bool) (all : ∀ turn, turn.succeeded = true → keep turn = true)
    (w : Writer) (list : List Command) :
    w.turns (commands ((w.turns list).filter keep)) = (w.turns list).filter keep ∧
      w.after (commands ((w.turns list).filter keep)) = w.after list := by
  induction list generalizing w with
  | nil => exact ⟨rfl, rfl⟩
  | cons command list ih =>
    obtain ⟨turns, after⟩ := ih (w.obey command).2
    rw [Writer.turns]
    by_cases kept : keep ⟨command, (w.obey command).1, (w.obey command).2⟩ = true
    · rw [List.filter_cons_of_pos kept, commands, List.map_cons]
      exact ⟨congrArg (_ :: ·) turns, after⟩
    · have failed : Turn.succeeded ⟨command, (w.obey command).1, (w.obey command).2⟩ = false :=
        Bool.eq_false_iff.2 fun succeeded => kept (all _ succeeded)
      have same := obey_of_not_succeeded failed
      rw [List.filter_cons_of_neg kept]
      rw [same] at turns after ⊢
      refine ⟨turns, after.trans ?_⟩
      show _ = (w.obey command).2.after list
      rw [same]

/-- Only what succeeds hands out bytes. -/
theorem flatMap_slice_filter (turns : List Turn) :
    (turns.filter Turn.succeeded).flatMap Turn.slice = turns.flatMap Turn.slice := by
  induction turns with
  | nil => rfl
  | cons turn turns ih =>
    obtain ⟨command, answer, after⟩ := turn
    rw [List.flatMap_cons]
    cases answer with
    | ok slice =>
      rw [List.filter_cons_of_pos rfl, List.flatMap_cons, ih]
    | error e =>
      rw [List.filter_cons_of_neg Bool.false_ne_true, ih]
      rfl

/-- **Refused calls leave no trace.** A call that fails, whatever its cause, leaves the writer as it
is: the open containers, what each of them expects next, and the bytes that are still to be handed
out. Without the calls that fail, all other commands are answered as they are with them and leave
the same writers, and the same bytes are handed out. -/
theorem turns_succeeded (w : Writer) (list : List Command) :
    (∀ request e next, w.answer request = (.error e, next) ↔ w.Refused request e ∧ next = w) ∧
      w.turns (commands ((w.turns list).filter Turn.succeeded)) =
          (w.turns list).filter Turn.succeeded ∧
        (w.turns (commands ((w.turns list).filter Turn.succeeded))).flatMap Turn.slice =
            (w.turns list).flatMap Turn.slice ∧
          w.after (commands ((w.turns list).filter Turn.succeeded)) = w.after list := by
  obtain ⟨turns, after⟩ := turns_filter Turn.succeeded (fun _ kept => kept) w list
  refine ⟨fun request e next => ?_, turns, ?_, after⟩
  · rw [← answer_eq_error_iff]
    constructor
    · intro h
      have failed : (w.answer request).1 = .error e := congrArg Prod.fst h
      exact ⟨failed, (congrArg Prod.snd h).symm.trans (answer_of_error failed)⟩
    · rintro ⟨failed, rfl⟩
      exact Prod.ext failed (answer_of_error failed)
  · rw [turns, flatMap_slice_filter]

/-- Calls without room, a call while a fragment is handed out in parts, and a closing of the wrong
kind. -/
example :
    (turns { options := { indent := some " " } }
        [.call (.write .beginArray 0), .call (.write .beginArray 4), .call (.write .endObject 4),
          .call (.write (.scalar (.bool true)) 3), .call (.write .endArray 4), .call (.more 0),
          .call (.more 9)]).map (fun turn => (turn.succeeded, turn.slice)) =
      [(false, []), (true, [0x5b]), (false, []), (true, [0x0a, 0x20, 0x74]), (false, []),
        (false, []), (true, [0x72, 0x75, 0x65])] := by
  decide

end Writer

end JsonStream
