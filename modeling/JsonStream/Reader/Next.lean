import JsonStream.Reader.Step

/-!
# Tokens of a chunk

`Feed.next` reads on to the next token. Every token but the requests for more input and the end of
the document takes a byte or completes a scalar, so a chunk yields finitely many of them:
`Feed.next_budget_lt` gives the measure on which every loop over the tokens of a chunk recurs, and
`Feed.calls` is the list of all calls up to the one that stops it.
-/

namespace JsonStream

namespace Reader

/-- The reader after a failure at its present position. -/
def failWith (r : Reader) (code : ErrorCode) : Except ParseError Token × Reader :=
  (.error ⟨code, r.position⟩,
    { r with lexeme := .none, failure := some ⟨code, r.position⟩ })

/-- The reader with its position moved over one more byte. -/
def moveOver (r : Reader) (byte : UInt8) : Reader :=
  { r with position := r.position.advance byte }

/-- Reads the unread bytes up to the next token or failure. -/
def scan (r : Reader) : Bytes → Except ParseError Token × Feed
  | [] =>
    if r.closed then
      match r.atEnd with
      | .ok (token, next) => (.ok token, ⟨next, []⟩)
      | .error code => ((r.failWith code).1, ⟨(r.failWith code).2, []⟩)
    else (.ok .needMore, ⟨r.suspend, []⟩)
  | byte :: rest =>
    match r.step byte rest with
    | .advance next => scan (next.moveOver byte) rest
    | .emit token next => (.ok token, ⟨next.moveOver byte, rest⟩)
    | .emitBefore token next => (.ok token, ⟨next, byte :: rest⟩)
    | .fail code => ((r.failWith code).1, ⟨(r.failWith code).2, byte :: rest⟩)

/-- How much of a token is in progress: nothing between tokens, one inside a scalar. -/
def inFlight (r : Reader) : Nat :=
  if r.lexeme = .none then 0 else 1

theorem inFlight_le_one (r : Reader) : r.inFlight ≤ 1 := by
  unfold inFlight; split <;> omega

theorem inFlight_endScalar (r : Reader) : r.endScalar.inFlight = 0 := by
  unfold endScalar valueCompleted inFlight
  cases r.frames <;> simp

end Reader

namespace Feed

/-- Reads the next token. After a failure it is the same failure again, and after the end of the
document the same end. -/
def next (f : Feed) : Except ParseError Token × Feed :=
  match f.reader.failure with
  | some e => (.error e, f)
  | none =>
    match f.reader.root with
    | .done => (.ok .done, f)
    | .value | .afterValue => f.reader.scan f.rest

/-- A bound on the tokens that a chunk can still yield. -/
def budget (f : Feed) : Nat :=
  2 * f.rest.length + f.reader.inFlight

end Feed

namespace Reader

/-! ### Every token has its price -/

theorem inFlight_moveOver (r : Reader) (byte : UInt8) : (r.moveOver byte).inFlight = r.inFlight :=
  rfl

theorem endNumber_inFlight {r : Reader} {fractional : Bool} {segment : Segment} {token : Token}
    {next : Reader} (h : r.endNumber fractional segment = .ok (token, next)) :
    next.inFlight = 0 := by
  rw [(endNumber_eq_ok h).1]
  exact r.inFlight_endScalar

theorem stepValue_ne_emitBefore (r : Reader) (byte : UInt8) (rest : Bytes) (token : Token)
    (next : Reader) : r.stepValue byte rest ≠ .emitBefore token next := by
  unfold stepValue
  repeat' split
  all_goals exact nofun

theorem close_ne_emitBefore (r : Reader) (token : Token) (next : Reader) :
    r.close ≠ .emitBefore token next := by
  unfold close
  split <;> exact nofun

theorem stepStructure_ne_emitBefore (r : Reader) (byte : UInt8) (rest : Bytes) (token : Token)
    (next : Reader) : r.stepStructure byte rest ≠ .emitBefore token next := by
  unfold stepStructure stepArray stepObject
  repeat' split
  all_goals first
    | exact r.stepValue_ne_emitBefore byte rest token next
    | exact r.close_ne_emitBefore token next
    | exact nofun

theorem stepText_ne_emitBefore (r : Reader) (utf8 : Utf8.State) (segment : Segment) (byte : UInt8)
    (rest : Bytes) (token : Token) (next : Reader) :
    r.stepText utf8 segment byte rest ≠ .emitBefore token next := by
  unfold stepText stepUtf8
  repeat' split
  all_goals exact nofun

theorem stepEscape_ne_emitBefore (r : Reader) (state : EscapeState) (byte : UInt8) (rest : Bytes)
    (token : Token) (next : Reader) : r.stepEscape state byte rest ≠ .emitBefore token next := by
  unfold stepEscape pushEscaped
  repeat' split
  all_goals exact nofun

/-- A scalar that a byte ends without belonging to it was in progress, and no longer is. -/
theorem step_emitBefore_inFlight {r : Reader} {byte : UInt8} {rest : Bytes} {token : Token}
    {next : Reader} (h : r.step byte rest = .emitBefore token next) :
    r.inFlight = 1 ∧ next.inFlight = 0 := by
  unfold step at h
  split at h
  · exact absurd h (r.stepStructure_ne_emitBefore _ _ _ _)
  · rename_i heq
    refine ⟨by simp [inFlight, heq], ?_⟩
    unfold stepKeyword at h
    repeat' split at h
    all_goals first
      | contradiction
      | (injection h with _ h; rw [← h]; exact r.inFlight_endScalar)
  · rename_i heq
    refine ⟨by simp [inFlight, heq], ?_⟩
    unfold stepNumber at h
    repeat' split at h
    all_goals first
      | contradiction
      | (injection h with _ h; rw [← h]; exact endNumber_inFlight ‹_›)
  · exact absurd h (r.stepText_ne_emitBefore _ _ _ _ _ _)
  · exact absurd h (r.stepEscape_ne_emitBefore _ _ _ _ _)

/-- What the end of input completes was in progress, and no longer is. -/
theorem atEnd_inFlight {r : Reader} {token : Token} {next : Reader}
    (h : r.atEnd = .ok (token, next)) (ongoing : token.isOngoing = true) :
    r.inFlight = 1 ∧ next.inFlight = 0 := by
  unfold atEnd at h
  split at h
  · split at h
    · injection h with h
      injection h with h _
      rw [← h] at ongoing
      contradiction
    · contradiction
  · rename_i heq
    injection h with h
    injection h with _ h
    exact ⟨by simp [inFlight, heq], h ▸ r.inFlight_endScalar⟩
  · rename_i heq
    split at h
    · exact ⟨by simp [inFlight, heq], endNumber_inFlight h⟩
    · contradiction
  all_goals contradiction

theorem scan_budget_lt {r : Reader} {input : Bytes} {token : Token} {f : Feed}
    (h : r.scan input = (.ok token, f)) (ongoing : token.isOngoing = true) :
    f.budget < 2 * input.length + r.inFlight := by
  induction input generalizing r with
  | nil =>
    unfold scan at h
    repeat' split at h
    · rename_i heq
      simp only [Prod.mk.injEq, Except.ok.injEq] at h
      obtain ⟨rfl, rfl⟩ := h
      have := atEnd_inFlight heq ongoing
      simp only [Feed.budget, List.length_nil]
      omega
    · simp [failWith] at h
    · simp only [Prod.mk.injEq, Except.ok.injEq] at h
      rw [← h.1] at ongoing
      contradiction
  | cons byte rest ih =>
    unfold scan at h
    split at h
    · rename_i next _
      have := ih h
      rw [inFlight_moveOver] at this
      have := next.inFlight_le_one
      simp only [List.length_cons]
      omega
    · rename_i next _
      simp only [Prod.mk.injEq, Except.ok.injEq] at h
      have := next.inFlight_le_one
      simp only [← h.2, Feed.budget, inFlight_moveOver, List.length_cons]
      omega
    · rename_i heq
      simp only [Prod.mk.injEq, Except.ok.injEq] at h
      have := step_emitBefore_inFlight heq
      simp only [← h.2, Feed.budget]
      omega
    · simp [failWith] at h

end Reader

namespace Feed

/-- Each token that more tokens may follow lowers the bound. -/
theorem next_budget_lt {f g : Feed} {token : Token} (h : f.next = (.ok token, g))
    (ongoing : token.isOngoing = true) : g.budget < f.budget := by
  unfold next at h
  split at h
  · simp at h
  · split at h
    · simp only [Prod.mk.injEq, Except.ok.injEq] at h
      rw [← h.1] at ongoing
      contradiction
    all_goals exact Reader.scan_budget_lt h ongoing

/-- The calls of `next`, each with the feed after it, up to and including the first that asks for
more input, ends the document or fails. -/
def calls (f : Feed) : List (Except ParseError Token × Feed) :=
  match _h : f.next with
  | (.ok token, g) =>
    if _ongoing : token.isOngoing = true then (.ok token, g) :: g.calls else [(.ok token, g)]
  | (.error e, g) => [(.error e, g)]
termination_by f.budget
decreasing_by exact next_budget_lt _h _ongoing

end Feed

end JsonStream
