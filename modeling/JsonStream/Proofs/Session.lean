import JsonStream.Proofs.Outline.Reader
import JsonStream.Visitor

/-!
# Sessions with a reader

A caller attaches chunks, asks for tokens one at a time or has them driven into a visitor, drops a
chunk before it is used up, goes on after a failure, starts over. A `Session` plays any such
sequence of moves and keeps the tokens that have been returned since the reader was last reset.

* `Session.play_drive`: driving a chunk is asking for its tokens.
* `Session.structured`: whatever the input and the moves, the tokens so far start those of a value,
  and the depth of the reader is the number of containers that they leave open.
-/

namespace JsonStream

/-! ### Logging the callbacks of a visitor -/

section
variable {ε σ : Type}

/-- A callback that notes its token, also when it fails. -/
def Visitor.log (token : Token) (callback : EStateM ε σ Unit) :
    EStateM ε (σ × List Token) Unit := fun state =>
  match callback state.1 with
  | .ok _ next => .ok () (next, state.2 ++ [token])
  | .error e next => .error e (next, state.2 ++ [token])

/-- The visitor with every callback noted, those of keys as keys. -/
def Visitor.logged (v : Visitor ε σ) : Visitor ε (σ × List Token) where
  null := log .null v.null
  bool b := log (.bool b) (v.bool b)
  number n := log (.number n) (v.number n)
  integer i := log (.integer i) (v.integer i)
  string s := log (.string s) (v.string s)
  key s := log (.key s) (v.key s)
  beginArray := log .beginArray v.beginArray
  endArray := log .endArray v.endArray
  beginObject := log .beginObject v.beginObject
  endObject := log .endObject v.endObject
  done := log .done v.done

/-- What a token adds to the tokens of a document: a request for more input is none of them. -/
def Token.reported : Token → List Token
  | .needMore => []
  | token => [token]

theorem Visitor.log_eq {token : Token} {callback : EStateM ε σ Unit}
    {state next : σ × List Token}
    (h : log token callback state = .ok () next ∨ ∃ e, log token callback state = .error e next) :
    next.2 = state.2 ++ [token] := by
  rw [log] at h
  cases result : callback state.1 <;> rw [result] at h <;> rcases h with h | ⟨e, h⟩ <;> cases h <;>
    rfl

/-- Every token that reaches a callback is noted once. -/
theorem Visitor.noted {v : Visitor ε σ} {token : Token} {state next : σ × List Token}
    (h : v.logged.visit token state = .ok () next ∨
      ∃ e, v.logged.visit token state = .error e next) :
    next.2 = state.2 ++ token.reported := by
  cases token with
  | needMore =>
    rcases h with h | ⟨e, h⟩
    · cases h
      exact (List.append_nil _).symm
    · contradiction
  | _ => exact log_eq h

end

/-! ### Moves -/

/-- What a caller may do next. -/
inductive Move : Type 1 where
  /-- Attach a chunk; the empty one signals the end of input. -/
  | feed (chunk : Bytes)
  /-- Ask for the next token. -/
  | next
  /-- Have the tokens of the chunk handed to a visitor in the given state. -/
  | drive {ε σ : Type} (v : Visitor ε σ) (s : σ)
  /-- Detach the chunk. -/
  | release
  /-- Start over. -/
  | reset

/-- A reader in use. -/
structure Session where
  reader : Reader
  /-- What is unread of the chunk, if one is attached. -/
  chunk? : Option Bytes := none
  /-- The tokens returned since the reader was last reset, without requests for more input. -/
  tokens : List Token := []
  /-- Why calls have failed. -/
  errors : List ErrorCode := []

/-- The failure of the reader that ended a drive, if one did. -/
def Driven.errors {ε σ : Type} (driven : Driven ε σ) : List ErrorCode :=
  match driven.outcome with
  | .error (.parse e) => [e.code]
  | _ => []

namespace Session

/-- The session after a call has left the feed behind. -/
def after (s : Session) (f : Feed) (tokens : List Token) (errors : List ErrorCode) : Session where
  reader := f.reader
  chunk? := some f.rest
  tokens := s.tokens ++ tokens
  errors := s.errors ++ errors

/-- The session after a call of `next`. -/
def afterCall (s : Session) : Call → Session
  | (.ok token, f) => s.after f token.reported []
  | (.error e, f) => s.after f [] [e.code]

/-- Makes a move. Where it is impossible nothing happens: a second chunk cannot be attached, and
nothing can be read without one. -/
def play (s : Session) : Move → Session
  | .feed chunk =>
    match s.chunk? with
    | some _ => s
    | none =>
      match s.reader.feed chunk with
      | .ok f => s.after f [] []
      | .error (.failed e) => { s with errors := s.errors ++ [e.code] }
      | .error _ => s
  | .next =>
    match s.chunk? with
    | some rest => s.afterCall (Feed.next ⟨s.reader, rest⟩)
    | none => s
  | .drive v state =>
    match s.chunk? with
    | some rest =>
      let driven := Feed.drive v.logged (state, []) ⟨s.reader, rest⟩
      s.after driven.feed driven.state.2 driven.errors
    | none => s
  | .release =>
    match s.chunk? with
    | some rest => { s with reader := Feed.release ⟨s.reader, rest⟩, chunk? := none }
    | none => s
  | .reset => { s with reader := s.reader.reset, chunk? := none, tokens := [] }

/-- Asks for tokens a number of times. -/
def ask (s : Session) : Nat → Session
  | 0 => s
  | n + 1 => (s.play .next).ask n

/-! ### Driving -/

variable {ε σ : Type}

/-- A session with a chunk attached. -/
def attached (f : Feed) (tokens : List Token) (errors : List ErrorCode) : Session :=
  { reader := f.reader, chunk? := some f.rest, tokens, errors }

section
variable {f g : Feed} {token : Token} {tokens : List Token} {errors : List ErrorCode}

theorem play_next_ok (answer : f.next = (.ok token, g)) :
    (attached f tokens errors).play .next = attached g (tokens ++ token.reported) errors := by
  show afterCall _ f.next = _
  rw [answer, afterCall, after, List.append_nil]
  rfl

theorem play_next_error {e : ParseError} (answer : f.next = (.error e, g)) :
    (attached f tokens errors).play .next = attached g tokens (errors ++ [e.code]) := by
  show afterCall _ f.next = _
  rw [answer, afterCall, after, List.append_nil]
  rfl

/-- Driving on asks for one token after another, and the visitor notes what is returned. -/
theorem exists_ask (v : Visitor ε σ) (state : σ × List Token) (f : Feed) (tokens : List Token)
    (errors : List ErrorCode) :
    ∃ n, (attached f (tokens ++ state.2) errors).ask n =
      attached (f.drive v.logged state).feed (tokens ++ (f.drive v.logged state).state.2)
        (errors ++ (f.drive v.logged state).errors) := by
  fun_induction Feed.drive v.logged state f with
  | case1 state f e g answer => exact ⟨1, play_next_error answer⟩
  | case2 state f token g answer e next visit =>
    refine ⟨1, ?_⟩
    rw [Visitor.noted (.inr ⟨e, visit⟩), ← List.append_assoc]
    exact (play_next_ok answer).trans (congrArg _ (List.append_nil errors).symm)
  | case3 state f token g answer _ next visit ongoing ih =>
    obtain ⟨n, asked⟩ := ih
    refine ⟨n + 1, ?_⟩
    rw [Visitor.noted (.inl visit), ← List.append_assoc] at asked
    rw [ask, play_next_ok answer]
    exact asked
  | case4 state f token g answer _ next visit last =>
    refine ⟨1, ?_⟩
    rw [Visitor.noted (.inl visit), ← List.append_assoc]
    exact (play_next_ok answer).trans (congrArg _ (List.append_nil errors).symm)

end

/-- **Driving a chunk is asking for its tokens**, whatever the visitor does with them: as many times
as it takes to use the chunk up, or until a callback fails. -/
theorem play_drive (s : Session) (v : Visitor ε σ) (state : σ) :
    ∃ n, s.play (.drive v state) = s.ask n := by
  obtain ⟨reader, _ | rest, tokens, errors⟩ := s
  · exact ⟨0, rfl⟩
  · obtain ⟨n, asked⟩ := exists_ask v (state, []) ⟨reader, rest⟩ tokens errors
    rw [List.append_nil] at asked
    exact ⟨n, asked.symm⟩

/-! ### What all moves keep -/

/-- The tokens so far lead to the outline that the reader stands at. -/
structure Sound (s : Session) : Prop where
  outline : ∃ o, Outline.Reads s.tokens o ∧ s.reader.At o
  errors : ∀ code ∈ s.errors, code ≠ .stackEmpty

variable {s : Session}

theorem sound_start (options : ReaderOptions) : Sound { reader := { options } } :=
  ⟨⟨.start, .nil, Reader.at_start options⟩, nofun⟩

theorem reads_reported {o : Outline} {tokens : List Token} {token : Token} {f : Feed}
    (reads : Outline.Reads tokens o) (keeps : Call.Keeps o (.ok token, f)) :
    ∃ next, Outline.Reads (tokens ++ token.reported) next ∧ f.reader.At next := by
  cases token with
  | needMore =>
    refine ⟨o, ?_, keeps⟩
    rw [Token.reported, List.append_nil]
    exact reads
  | _ =>
    obtain ⟨next, takes, stands⟩ := keeps
    exact ⟨next, reads.snoc takes, stands⟩

/-- A call keeps the session sound if what it returns leads to where the reader stands. -/
theorem Sound.after (h : s.Sound) {o : Outline} {f : Feed} {tokens : List Token}
    {errors : List ErrorCode} (reads : Outline.Reads (s.tokens ++ tokens) o)
    (stands : f.reader.At o) (other : ∀ code ∈ errors, code ≠ .stackEmpty) :
    (s.after f tokens errors).Sound :=
  ⟨⟨o, reads, stands⟩, List.forall_mem_append.2 ⟨h.errors, other⟩⟩

theorem Sound.next (h : s.Sound) : (s.play .next).Sound := by
  obtain ⟨o, reads, stands⟩ := h.outline
  rw [play]
  cases s.chunk? with
  | none => exact h
  | some rest =>
    have keeps := Feed.next_keeps (f := ⟨s.reader, rest⟩) stands
    dsimp only
    cases answer : Feed.next ⟨s.reader, rest⟩ with
    | mk result f =>
      rw [answer] at keeps
      cases result with
      | ok token =>
        obtain ⟨next, reads, stands⟩ := reads_reported reads keeps
        exact h.after reads stands (List.forall_mem_nil _)
      | error e =>
        rw [← List.append_nil s.tokens] at reads
        exact h.after reads keeps.2 (List.forall_mem_singleton.2 keeps.1)

theorem Sound.feed (h : s.Sound) (chunk : Bytes) : (s.play (.feed chunk)).Sound := by
  obtain ⟨o, reads, stands⟩ := h.outline
  rw [play]
  cases s.chunk? with
  | some rest => exact h
  | none =>
    dsimp only
    cases fed : s.reader.feed chunk with
    | ok f =>
      rw [← List.append_nil s.tokens] at reads
      exact h.after reads (stands.feed fed) (List.forall_mem_nil _)
    | error refusal =>
      cases refusal with
      | failed e =>
        have other := stands.feed_failed fed
        exact ⟨⟨o, reads, stands⟩,
          List.forall_mem_append.2 ⟨h.errors, List.forall_mem_singleton.2 other⟩⟩
      | unconsumed | closed => exact h

theorem Sound.ask (h : s.Sound) (n : Nat) : (s.ask n).Sound := by
  induction n generalizing s with
  | zero => exact h
  | succ n ih => exact ih h.next

/-- **Every move keeps the tokens and the reader together.** -/
theorem Sound.play (h : s.Sound) (move : Move) : (s.play move).Sound := by
  obtain ⟨o, reads, stands⟩ := h.outline
  cases move with
  | feed chunk => exact h.feed chunk
  | next => exact h.next
  | drive v state =>
    obtain ⟨n, asked⟩ := s.play_drive v state
    rw [asked]
    exact h.ask n
  | release =>
    rw [Session.play]
    cases s.chunk? with
    | none => exact h
    | some rest => exact ⟨⟨o, reads, stands.release⟩, h.errors⟩
  | reset => exact ⟨⟨.start, .nil, Reader.at_start _⟩, h.errors⟩

/-- A session that has made some moves. -/
def playAll (options : ReaderOptions) (moves : List Move) : Session :=
  moves.foldl play { reader := { options } }

theorem sound_playAll (options : ReaderOptions) (moves : List Move) :
    (playAll options moves).Sound := by
  rw [playAll]
  have start := sound_start options
  generalize ({ reader := { options } } : Session) = s at start ⊢
  induction moves generalizing s with
  | nil => exact start
  | cons move moves ih => exact ih _ (start.play move)

/-- **Every token stream is structured**, whatever the input and however it is read. The depth of
the reader is the number of containers opened and not closed. The tokens since the last reset start
those of a value, so brackets match, keys and complete values alternate inside objects, and no other
string is a key. The end of the document is reported after all tokens of one value, with no
container open. No call fails because there is none to close. -/
theorem structured (options : ReaderOptions) (moves : List Move) :
    let s := playAll options moves
    s.reader.depth + s.tokens.countP Token.isClosing = s.tokens.countP Token.isOpening ∧
      (∃ v n, s.tokens <+: Value.flatten v ++ List.replicate n .done) ∧
        (.done ∈ s.tokens → s.reader.depth = 0 ∧
          ∃ v n, s.tokens = Value.flatten v ++ List.replicate (n + 1) .done) ∧
          .stackEmpty ∉ s.errors := by
  intro s
  have sound := sound_playAll options moves
  obtain ⟨o, reads, stands⟩ := sound.outline
  refine ⟨?_, reads.isPrefix, ?_, fun mem => sound.errors _ mem rfl⟩
  · rw [stands.depth_eq]
    exact reads.depth
  · intro mem
    obtain ⟨rfl, whole⟩ := reads.of_done_mem mem
    exact ⟨stands.depth_eq, whole⟩

end Session

end JsonStream
