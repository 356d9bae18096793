import JsonStream.Proofs.Machine.Chunks
import JsonStream.Proofs.NumberOptions.Calls

/-!
# What the number options change

Two readers that differ in nothing but how they report numbers read the same chunks. They go side by
side, call by call and in the same place, and differ in numbers alone, each of which both readers
convert from the same literal. Only a literal that one of them cannot convert parts them.

* `SideBySide.of_settle`, `SideBySide.of_calls`: a number, and all calls on a chunk.
* `Reader.run_sideBySide`: any chunks.
-/

namespace JsonStream

/-! ### Two runs -/

/-- Both calls leave the same place, as many unread bytes and as many open containers. -/
structure Call.Beside (call call' : Call) : Prop where
  position : call.2.position = call'.2.position
  remaining : call.2.remaining = call'.2.remaining
  depth : call.2.reader.depth = call'.2.reader.depth

/-- The feed stands in the input right after `read`. -/
structure Feed.Stands (f : Feed) (input read : Bytes) : Prop where
  position : f.position = Position.after {} read
  whole : read ++ f.rest <+: input

/-- Two runs on the same input go side by side from a place where both have read `past`, up to the
last token. A call that stops at the end of a literal is answered by what the options make of it,
and any other call has one answer in both runs. A literal parts the runs if one of them cannot
convert it. A run that fails ends there. -/
inductive SideBySide (o o' : ReaderOptions) (input : Bytes) :
    Bytes → List Call → List Call → Prop where
  | nil {past : Bytes} : SideBySide o o' input past [] []
  /-- The same token, which is no number, and not at the end of a literal. -/
  | token {past since : Bytes} {token : Token} {f f' : Feed} {calls calls' : List Call}
      (plain : token.isNumber = false) (named : token ≠ .needMore)
      (stands : f.Stands input (past ++ since)) (elsewhere : ¬f.EndsLiteral since)
      (beside : Call.Beside (.ok token, f) (.ok token, f'))
      (more : SideBySide o o' input (past ++ since) calls calls') :
      SideBySide o o' input past ((.ok token, f) :: calls) ((.ok token, f') :: calls')
  /-- The end of a chunk. -/
  | needMore {past since : Bytes} {f f' : Feed} {calls calls' : List Call}
      (stands : f.Stands input (past ++ since)) (elsewhere : ¬f.EndsLiteral since)
      (beside : Call.Beside (.ok .needMore, f) (.ok .needMore, f'))
      (more : SideBySide o o' input past calls calls') :
      SideBySide o o' input past ((.ok .needMore, f) :: calls) ((.ok .needMore, f') :: calls')
  /-- The same failure, but not at the end of a literal. -/
  | failed {past since : Bytes} {e : ParseError} {f f' : Feed}
      (stands : f.Stands input (past ++ since)) (elsewhere : ¬f.EndsLiteral since)
      (beside : Call.Beside (.error e, f) (.error e, f')) :
      SideBySide o o' input past [(.error e, f)] [(.error e, f')]
  /-- A literal that both convert. -/
  | number {past since : Bytes} {literal : String} {token token' : Token} {f f' : Feed}
      {calls calls' : List Call} (stands : f.Stands input (past ++ since))
      (ends : f.EndsLiteral since) (same : Utf8.bytes literal = tokenPart since)
      (converts : o.Converts literal token) (converts' : o'.Converts literal token')
      (beside : Call.Beside (.ok token, f) (.ok token', f'))
      (more : SideBySide o o' input (past ++ since) calls calls') :
      SideBySide o o' input past ((.ok token, f) :: calls) ((.ok token', f') :: calls')
  /-- A literal that one or both cannot convert. -/
  | apart {past since : Bytes} {literal : String} {call call' : Call} {calls calls' : List Call}
      (stands : call.2.Stands input (past ++ since)) (ends : call.2.EndsLiteral since)
      (same : Utf8.bytes literal = tokenPart since)
      (range : o.OutOfRange (Utf8.bytes literal) ∨ o'.OutOfRange (Utf8.bytes literal))
      (answers : o.Answers literal call.2.position call.1)
      (answers' : o'.Answers literal call'.2.position call'.1) (beside : call.Beside call')
      (last : ∀ e, call.1 = .error e → calls = [])
      (last' : ∀ e, call'.1 = .error e → calls' = []) :
      SideBySide o o' input past (call :: calls) (call' :: calls')

/-! ### Any calls -/

namespace Feed

variable {f g : Feed}

/-- The calls on the chunk at hand and then on further ones. -/
def callsOn (f : Feed) (chunks : List Bytes) : List Call :=
  f.calls ++
    match f.calls.getLast? with
    | some last => if Call.wantsMore last then (last.2.release.run chunks).1.flatten else []
    | none => []

theorem calls_ne_nil (f : Feed) : f.calls ≠ [] := by
  rw [calls]
  repeat' split
  all_goals exact nofun

theorem callsOn_of_ongoing {token : Token} (next : f.next = (.ok token, g))
    (ongoing : token.isOngoing = true) (chunks : List Bytes) :
    f.callsOn chunks = (.ok token, g) :: g.callsOn chunks := by
  have last : ((.ok token, g) :: g.calls : List Call).getLast? = g.calls.getLast? := by
    rw [List.getLast?_cons, List.getLast?_eq_some_getLast g.calls_ne_nil, Option.getD_some]
  rw [callsOn, calls_of_ongoing next ongoing, last]
  rfl

theorem callsOn_of_needMore (next : f.next = (.ok .needMore, g)) (chunks : List Bytes) :
    f.callsOn chunks = (.ok .needMore, g) :: (g.release.run chunks).1.flatten := by
  rw [callsOn, calls_of_last next (by decide)]
  rfl

theorem callsOn_of_done (next : f.next = (.ok .done, g)) (chunks : List Bytes) :
    f.callsOn chunks = [(.ok .done, g)] := by
  rw [callsOn, calls_of_last next (by decide)]
  rfl

theorem callsOn_of_error {e : ParseError} (next : f.next = (.error e, g)) (chunks : List Bytes) :
    f.callsOn chunks = [(.error e, g)] := by
  rw [callsOn, calls_of_error next]
  rfl

/-- After a number the calls go on, unless it was the end of them. -/
theorem callsOn_of_settle {r : Reader} {literal : String} {rest : Bytes}
    (next : f.next = r.settle literal rest) (chunks : List Bytes) :
    ∃ calls, f.callsOn chunks = r.settle literal rest :: calls ∧
      ∀ e, (r.settle literal rest).1 = .error e → calls = [] := by
  cases read : Token.ofLiteral r.options false literal with
  | ok token =>
    rw [Reader.settle_of_ok read] at next ⊢
    exact ⟨_, callsOn_of_ongoing next (Token.isOngoing_of_ofLiteral read) chunks, nofun⟩
  | error code =>
    rw [Reader.settle_of_error read] at next ⊢
    exact ⟨_, callsOn_of_error next chunks, fun _ _ => rfl⟩

end Feed

namespace Reader

/-- Two readers that differ in their options settle a number side by side. -/
theorem settle_beside (r : Reader) (o' : ReaderOptions) (literal : String) (rest : Bytes) :
    Call.Beside (r.settle literal rest) ((r.under o').settle literal rest) := by
  obtain ⟨position, left, depth, -⟩ := r.settle_place literal rest
  obtain ⟨position', left', depth', -⟩ := (r.under o').settle_place literal rest
  exact ⟨position.trans position'.symm, congrArg List.length (left.trans left'.symm),
    depth.trans depth'.symm⟩

/-- The literal of a number that is settled ends in that place. -/
theorem settle_endsLiteral {r : Reader} {literal : String} {since rest : Bytes}
    (same : Utf8.bytes literal = tokenPart since) (number : NumberText (Utf8.bytes literal))
    (ends : r.Ends rest) : (r.settle literal rest).2.EndsLiteral since := by
  obtain ⟨-, left, -, closed⟩ := r.settle_place literal rest
  refine ⟨same ▸ number, ?_⟩
  rw [left]
  exact ends_of_closed closed ends

theorem run_cons_flatten {r : Reader} {chunk : Bytes} {f : Feed} (feed : r.feed chunk = .ok f)
    (chunks : List Bytes) : (r.run (chunk :: chunks)).1.flatten = f.callsOn chunks := by
  rw [run, feed, Feed.callsOn]
  dsimp only
  cases f.calls.getLast? with
  | none => rw [List.flatten_singleton, List.append_nil]
  | some last =>
    dsimp only
    split_ifs
    · rfl
    · rw [List.flatten_singleton, List.append_nil]

end Reader

namespace SideBySide

variable {o o' : ReaderOptions} {input upto past since rest : Bytes} {chunks : List Bytes}

/-- Where a number ends, the runs go on side by side or part. -/
theorem of_settle {r : Reader} {literal : String} {f f' : Feed}
    (same : Utf8.bytes literal = tokenPart since) (number : NumberText (Utf8.bytes literal))
    (ends : r.Ends rest) (place : Reader.InPlace o r past since rest)
    (whole : input = past ++ since ++ rest ++ chunks.flatten)
    (next : f.next = r.settle literal rest) (next' : f'.next = (r.under o').settle literal rest)
    (more : ∀ token, (r.settle literal rest).1 = .ok token → SideBySide o o' input (past ++ since)
      (Feed.callsOn ⟨r.endScalar, rest⟩ chunks)
      (Feed.callsOn ⟨(r.under o').endScalar, rest⟩ chunks)) :
    SideBySide o o' input past (f.callsOn chunks) (f'.callsOn chunks) := by
  have beside := r.settle_beside o' literal rest
  have stands : (r.settle literal rest).2.Stands input (past ++ since) := by
    obtain ⟨position, left, -⟩ := r.settle_place literal rest
    refine ⟨position.trans place.position, ?_⟩
    rw [left, whole]
    exact List.prefix_append ..
  have atLiteral := Reader.settle_endsLiteral same number ends
  have answers := r.settle_answers number rest
  have answers' := (r.under o').settle_answers number rest
  rw [place.options] at answers
  rw [Reader.options_under] at answers'
  obtain ⟨calls, first, last⟩ := Feed.callsOn_of_settle next chunks
  obtain ⟨calls', first', last'⟩ := Feed.callsOn_of_settle next' chunks
  have parted : o.OutOfRange (Utf8.bytes literal) ∨ o'.OutOfRange (Utf8.bytes literal) →
      SideBySide o o' input past (f.callsOn chunks) (f'.callsOn chunks) := by
    intro range
    rw [first, first']
    exact .apart stands atLiteral same range answers answers' beside last last'
  cases read : Token.ofLiteral r.options false literal with
  | error code =>
    rw [place.options] at read
    exact parted (.inl ((ReaderOptions.ofLiteral_eq_error_iff number).1 read).2)
  | ok token =>
    cases read' : Token.ofLiteral o' false literal with
    | error code =>
      exact parted (.inr ((ReaderOptions.ofLiteral_eq_error_iff number).1 read').2)
    | ok token' =>
      have settled := Reader.settle_of_ok read rest
      have settled' := Reader.settle_of_ok (r := r.under o') read' rest
      rw [settled] at stands atLiteral beside next more
      rw [settled'] at beside next'
      rw [Feed.callsOn_of_ongoing next (Token.isOngoing_of_ofLiteral read),
        Feed.callsOn_of_ongoing next' (Token.isOngoing_of_ofLiteral read')]
      rw [place.options] at read
      exact .number stands atLiteral same ((ReaderOptions.ofLiteral_eq_ok_iff number).1 read)
        ((ReaderOptions.ofLiteral_eq_ok_iff number).1 read') beside (more token rfl)

theorem stands_of_whole {f : Feed} (position : f.position = Position.after {} past)
    (split : upto = past ++ f.rest) (whole : input = upto ++ chunks.flatten) :
    f.Stands input past :=
  ⟨position, by rw [whole, split]; exact List.prefix_append ..⟩

/-- **The calls on the chunk at hand go side by side if those on the further chunks do.** -/
theorem of_calls {f : Feed} (place : Reader.InPlace o f.reader past since f.rest)
    (encoding : o.encoding = o'.encoding) (split : upto = past ++ since ++ f.rest)
    (whole : input = upto ++ chunks.flatten)
    (later : ∀ (r : Reader) (past since : Bytes), r.Resting → upto = past ++ since →
      Reader.InPlace o r past since [] →
        SideBySide o o' input past (r.run chunks).1.flatten ((r.under o').run chunks).1.flatten) :
    SideBySide o o' input past (f.callsOn chunks) ((f.under o').callsOn chunks) := by
  -- Along the calls of the first reader: the second one makes the same calls until they part.
  induction f using Feed.calls.induct generalizing past since with
  | case1 f token g next ongoing ih =>
    have together := place.next_together encoding
    generalize next' : (f.under o').next = call' at together
    rw [next, ← split] at together
    cases together with
    | token plain elsewhere _ place' split' =>
      rw [Feed.callsOn_of_ongoing next ongoing, Feed.callsOn_of_ongoing next' ongoing]
      have position : g.position = _ := place'.position
      rw [List.append_nil] at position
      refine .token plain (fun same => ?_) (stands_of_whole position split' whole) elsewhere
        ⟨rfl, rfl, rfl⟩ (ih place' (by rw [List.append_nil, split']))
      rw [same] at ongoing
      contradiction
    | needMore => contradiction
    | done => contradiction
    | settled same number ends place' inside split' settles settles' =>
      refine of_settle same number ends place' (split' ▸ whole) (next.trans settles)
        (next'.trans settles') fun token' ok => ?_
      rw [Reader.settle_of_ok (Reader.ofLiteral_of_settle ok)] at settles
      cases settles
      have more := ih (place'.endScalar inside.ne_nothing) (by rw [List.append_nil, split'])
      rw [Reader.endScalar_under]
      exact more
  | case2 f token g next last =>
    have together := place.next_together encoding
    generalize next' : (f.under o').next = call' at together
    rw [next, ← split] at together
    cases together with
    | token _ _ ongoing => contradiction
    | @needMore r _ place' split' resumed opened =>
      rw [Feed.callsOn_of_needMore next, Feed.callsOn_of_needMore next']
      have waiting : (Feed.release ⟨r, []⟩).Resting :=
        ⟨place'.live.failure, opened, rfl, place'.live.root, resumed⟩
      have released : Reader.InPlace o (Feed.release ⟨r, []⟩) past _ [] :=
        ⟨place'.options, ⟨place'.live.aligned, place'.live.failure, place'.live.root⟩,
          place'.position, place'.viable, place'.since⟩
      exact .needMore
        (stands_of_whole place'.position (split'.trans (List.append_nil _).symm) whole)
        (fun ends => Bool.eq_false_iff.1 opened ends.2) ⟨rfl, rfl, rfl⟩ (later _ past _ waiting split' released)
    | done elsewhere position split' =>
      rw [Feed.callsOn_of_done next, Feed.callsOn_of_done next']
      exact .token rfl (fun same => by contradiction) (stands_of_whole position split' whole)
        elsewhere ⟨rfl, rfl, rfl⟩ .nil
    | settled same number ends place' inside split' settles settles' =>
      refine of_settle same number ends place' (split' ▸ whole) (next.trans settles)
        (next'.trans settles') fun token' ok => ?_
      -- A number is never the last token of a chunk.
      have ongoing := Token.isOngoing_of_ofLiteral (Reader.ofLiteral_of_settle ok)
      rw [← settles] at ok
      cases ok
      contradiction
  | case3 f e g next =>
    have together := place.next_together encoding
    generalize next' : (f.under o').next = call' at together
    rw [next, ← split] at together
    cases together with
    | failed elsewhere position split' =>
      rw [Feed.callsOn_of_error next, Feed.callsOn_of_error next']
      exact .failed (stands_of_whole position split' whole) elsewhere ⟨rfl, rfl, rfl⟩
    | settled same number ends place' inside split' settles settles' =>
      refine of_settle same number ends place' (split' ▸ whole) (next.trans settles)
        (next'.trans settles') fun token' ok => ?_
      -- The first reader could not convert the literal, so nothing follows.
      rw [← settles] at ok
      contradiction

end SideBySide

namespace Reader

variable {o o' : ReaderOptions}

/-- A reader that waits for a chunk in its place takes it there. -/
theorem InPlace.attach {r : Reader} {past since : Bytes} (h : InPlace o r past since [])
    (rests : r.Resting) (chunk : Bytes) : InPlace o (r.attach chunk) past since chunk where
  options := h.options
  live := rests.live_attach chunk
  position := h.position
  viable := rests.machine_attach chunk ▸ h.viable
  since := rests.machine_attach chunk ▸ h.since

theorem InPlace.sideBySide {r : Reader} {past since : Bytes} (h : InPlace o r past since [])
    (rests : r.Resting) (encoding : o.encoding = o'.encoding) (chunks : List Bytes) :
    SideBySide o o' (past ++ since ++ chunks.flatten) past (r.run chunks).1.flatten
      ((r.under o').run chunks).1.flatten := by
  induction chunks generalizing r past since with
  | nil => exact .nil
  | cons chunk chunks ih =>
    have rests' : (r.under o').Resting :=
      ⟨rests.failure, rests.opened, rests.unread, rests.root, rests.resumed⟩
    rw [run_cons_flatten (rests.feed_eq chunk), run_cons_flatten (rests'.feed_eq chunk),
      List.flatten_cons, ← List.append_assoc]
    refine SideBySide.of_calls (f := ⟨r.attach chunk, chunk⟩) (h.attach rests chunk) encoding rfl
      rfl fun next past' since' waiting upto place => ?_
    rw [upto]
    exact ih place waiting

/-- **The number options change numbers only.** Whatever the chunks are, two new readers with the
same encoding go side by side, and a literal parts them only if one of them cannot convert it, which
is never so for a reader that reports texts. -/
theorem run_sideBySide (encoding : o.encoding = o'.encoding) (chunks : List Bytes) :
    SideBySide o o' chunks.flatten [] (({ options := o } : Reader).run chunks).1.flatten
        (({ options := o' } : Reader).run chunks).1.flatten ∧
      (o.numbers = .text → ∀ literal, ¬o.OutOfRange literal) :=
  ⟨(inPlace_new o).sideBySide (resting_new o) encoding chunks,
    ReaderOptions.not_outOfRange_of_text⟩

/-- The literal `1e400`, cut in two, has components but rounds to infinity: the reader that reports
floats fails right after it, and the one that reports components reads on. -/
theorem run_sideBySide_infinite :
    SideBySide {} { integers := true, numbers := .components }
        [0x5b, 0x31, 0x2c, 0x31, 0x65, 0x34, 0x30, 0x30, 0x5d] []
        (({ options := {} } : Reader).run
          [[0x5b, 0x31, 0x2c, 0x31, 0x65], [0x34, 0x30, 0x30, 0x5d]]).1.flatten
        (({ options := { integers := true, numbers := .components } } : Reader).run
          [[0x5b, 0x31, 0x2c, 0x31, 0x65], [0x34, 0x30, 0x30, 0x5d]]).1.flatten ∧
      (({ options := {} } : Reader).run
        [[0x5b, 0x31, 0x2c, 0x31, 0x65], [0x34, 0x30, 0x30, 0x5d]]).2.failure =
          some ⟨.numericRange, { column := 9 }⟩ ∧
      (({ options := { integers := true, numbers := .components } } : Reader).run
        [[0x5b, 0x31, 0x2c, 0x31, 0x65], [0x34, 0x30, 0x30, 0x5d]]).2.failure = none :=
  ⟨(@run_sideBySide {} { integers := true, numbers := .components } rfl
    [[0x5b, 0x31, 0x2c, 0x31, 0x65], [0x34, 0x30, 0x30, 0x5d]]).1, by decide +kernel,
    by decide +kernel⟩

end Reader

end JsonStream
