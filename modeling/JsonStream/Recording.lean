import JsonStream.Visitor

/-!
# Recording visitors

A recorder keeps what its callbacks were given. It can be told to fail at one of them, and it can
leave callbacks to their defaults.
-/

namespace JsonStream

/-- What a callback was given. -/
inductive Event where
  | null
  | boolean (value : Bool)
  | number (value : NumberValue)
  | integer (value : Int64)
  | string (text : String)
  | key (text : String)
  | beginArray
  | endArray
  | beginObject
  | endObject
  | done
deriving Repr, DecidableEq

/-- The state of a recorder. -/
structure Recording where
  /-- The events, the last one first. -/
  recent : List Event := []
  /-- How many callbacks were made. -/
  count : Nat := 0
deriving Repr, DecidableEq

namespace Recording

/-- The events in order. -/
def events (r : Recording) : List Event :=
  r.recent.reverse

/-- Counts a callback and records its event, unless it is the one to fail; numbers count from one,
and zero stands for none. A failure gives the number of the callback. -/
def note (failAt : Nat) (event : Event) : EStateM Nat Recording Unit := fun r =>
  let count := r.count + 1
  if count = failAt then .error count { r with count } else .ok () ⟨event :: r.recent, count⟩

/-- The wording of a failure. -/
def stopMessage (count : Nat) : String :=
  "stop " ++ toString count

/-- Records every callback. -/
def everything (failAt : Nat) : Visitor Nat Recording where
  null := note failAt .null
  bool b := note failAt (.boolean b)
  number n := note failAt (.number n)
  integer i := note failAt (.integer i)
  string s := note failAt (.string s)
  key s := note failAt (.key s)
  beginArray := note failAt .beginArray
  endArray := note failAt .endArray
  beginObject := note failAt .beginObject
  endObject := note failAt .endObject
  done := note failAt .done

/-- Records strings alone; keys reach it by the default. -/
def strings (failAt : Nat) : Visitor Nat Recording where
  string s := note failAt (.string s)

/-- Records nothing. -/
def nothing : Visitor Nat Recording := {}

end Recording

end JsonStream
