import JsonStream.Reader.Next

/-!
# Visitors

A visitor has one callback for each kind of token. `Feed.drive` hands the tokens of a chunk to it,
the keys of objects to a callback of their own, until the chunk is used up, the document ends, the
input is refused or a callback fails. A failed callback costs the token it was given and nothing
else: reading can go on with the next one.
-/

namespace JsonStream

/-- Callbacks that change a state of type `σ` or fail with an error of type `ε`, in which case the
change of state up to there stands. Each of them does nothing unless it is given. -/
structure Visitor (ε σ : Type) where
  null : EStateM ε σ Unit := pure ()
  bool : Bool → EStateM ε σ Unit := fun _ => pure ()
  number : NumberValue → EStateM ε σ Unit := fun _ => pure ()
  integer : Int64 → EStateM ε σ Unit := fun _ => pure ()
  string : String → EStateM ε σ Unit := fun _ => pure ()
  /-- Takes the key of an object member. Unless it is given, keys are taken like strings. -/
  key : String → EStateM ε σ Unit := string
  beginArray : EStateM ε σ Unit := pure ()
  endArray : EStateM ε σ Unit := pure ()
  beginObject : EStateM ε σ Unit := pure ()
  endObject : EStateM ε σ Unit := pure ()
  /-- The document is complete. -/
  done : EStateM ε σ Unit := pure ()

/-- The callback of a token; a request for more input has none. -/
def Visitor.visit {ε σ : Type} (v : Visitor ε σ) : Token → EStateM ε σ Unit
  | .needMore => pure ()
  | .null => v.null
  | .bool b => v.bool b
  | .number n => v.number n
  | .integer i => v.integer i
  | .string s => v.string s
  | .key s => v.key s
  | .beginArray => v.beginArray
  | .endArray => v.endArray
  | .beginObject => v.beginObject
  | .endObject => v.endObject
  | .done => v.done

/-- How far a chunk has been driven. -/
inductive Progress where
  /-- The chunk is used up. -/
  | needMore
  /-- The document has ended. -/
  | finished
deriving Repr, DecidableEq, Inhabited

/-- Why driving stops early. -/
inductive DriveError (ε : Type) where
  /-- The input is refused. -/
  | parse (error : ParseError)
  /-- A callback failed. -/
  | visitor (error : ε)
deriving Repr, DecidableEq

/-- The wording of a failure, given that of the callbacks. -/
def DriveError.message {ε : Type} (word : ε → String) : DriveError ε → String
  | .parse e => e.message
  | .visitor e => "visitor stopped: " ++ word e

/-- What driving a chunk leaves behind. -/
structure Driven (ε σ : Type) where
  outcome : Except (DriveError ε) Progress
  state : σ
  feed : Feed

/-- Hands the tokens of a chunk to a visitor in the state `s`. -/
def Feed.drive {ε σ : Type} (v : Visitor ε σ) (s : σ) (f : Feed) : Driven ε σ :=
  match _h : f.next with
  | (.error e, g) => ⟨.error (.parse e), s, g⟩
  | (.ok token, g) =>
    match v.visit token s with
    | .error e s => ⟨.error (.visitor e), s, g⟩
    | .ok _ s =>
      if _ongoing : token.isOngoing = true then g.drive v s
      else ⟨.ok (if token = .done then .finished else .needMore), s, g⟩
termination_by f.budget
decreasing_by exact Feed.next_budget_lt _h _ongoing

end JsonStream
