/-!
# Open containers

A frame says what an open container accepts next. There is one per nesting level, and only the
first slot of a container, before any member has started, lets it close at once.
-/

namespace JsonStream

/-- What an array accepts next. -/
inductive ArraySlot where
  /-- A value, or the closing bracket. -/
  | first
  /-- A value; also while one is being read. -/
  | value
  /-- A comma or the closing bracket. -/
  | separator
deriving Repr, DecidableEq, Inhabited

/-- What an object accepts next. -/
inductive ObjectSlot where
  /-- A key, or the closing brace. -/
  | first
  /-- A key; also while one is being read. -/
  | key
  /-- The colon after a key. -/
  | colon
  /-- A value; also while one is being read. -/
  | value
  /-- A comma or the closing brace. -/
  | separator
deriving Repr, DecidableEq, Inhabited

/-- An open container. -/
inductive Frame where
  | array (slot : ArraySlot)
  | object (slot : ObjectSlot)
deriving Repr, DecidableEq, Inhabited

namespace Frame

/-- A member of the container has started: from now on it is not empty. -/
def started : Frame → Frame
  | .array .first => .array .value
  | .object .first => .object .key
  | frame => frame

/-- A value or a key of the container is complete. -/
def completed : Frame → Frame
  | .array _ => .array .separator
  | .object .first | .object .key => .object .colon
  | .object _ => .object .separator

/-- Whether a string that is read now is a key. -/
def takesKey : Frame → Bool
  | .object .first | .object .key => true
  | _ => false

end Frame

/-- How far the document itself has been read. -/
inductive Root where
  /-- The root value has not started or is not complete. -/
  | value
  /-- The root value is complete; only white space may follow. -/
  | afterValue
  /-- The end of the document has been reported. -/
  | done
deriving Repr, DecidableEq, Inhabited

end JsonStream
