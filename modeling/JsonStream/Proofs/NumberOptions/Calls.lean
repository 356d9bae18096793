import JsonStream.Proofs.Machine.Place
import JsonStream.Proofs.Number.Conversion
import JsonStream.Proofs.Options

/-!
# One call under two number options

A call that does not end a number is the same under any number options. One that does settles the
number: the literal and the place are the same, and the options decide what it is converted to.

* `Reader.InPlace.inWholeNumber_iff`: where a number may end.
* `Reader.InPlace.scan_whole`, `Reader.settle_answers`: a number that ends.
* `Reader.InPlace.next_together`: any call.
-/

namespace JsonStream

/-- What a reader with these options answers right after a literal: its conversion, or that it is
out of range. -/
structure ReaderOptions.Answers (o : ReaderOptions) (literal : String) (p : Position)
    (answer : Except ParseError Token) : Prop where
  ok_iff : ∀ token, answer = .ok token ↔ o.Converts literal token
  error_iff : ∀ e, answer = .error e ↔ e = ⟨.numericRange, p⟩ ∧ o.OutOfRange (Utf8.bytes literal)

namespace Reader

variable {o o' : ReaderOptions} {r : Reader} {past since rest : Bytes}

/-! ### Where a number may end -/

/-- What ends a number: a byte that may follow it, or the end of input. -/
def Ends (r : Reader) : Bytes → Prop
  | [] => r.closed = true
  | byte :: _ => Byte.endsScalar byte = true

theorem ends_of_closed {next : Reader} (closed : next.closed = r.closed) (ends : r.Ends rest) :
    next.Ends rest := by
  cases rest with
  | nil => exact closed.trans ends
  | cons => exact ends

theorem InWholeNumber.ne_nothing (h : r.InWholeNumber) : r.machine.unfinished ≠ .nothing := by
  rw [InWholeNumber] at h
  show r.lexeme.unfinished r.carried ≠ .nothing
  cases lexeme : r.lexeme with
  | none =>
    rw [lexeme] at h
    exact h.elim
  | _ =>
    intro same
    contradiction

theorem not_numberText_nil : ¬NumberText [] := by
  rintro ⟨literal, wellFormed, empty⟩
  exact wellFormed.bytes_ne_nil empty

theorem not_numberText_of_noNumber (h : NoNumber since) : ¬NumberText (tokenPart since) := by
  obtain ⟨first, more, same, other⟩ := h
  rw [same]
  intro number
  obtain ⟨phase, start, -⟩ := Number.Phase.accepts_iff.2 number
  rw [other] at start
  contradiction

/-- **The bytes since the last token tell whether a number may end here.** -/
theorem InPlace.inWholeNumber_iff (h : InPlace o r past since rest) :
    r.InWholeNumber ↔ NumberText (tokenPart since) := by
  have follows : (r.lexeme.unfinished r.carried).Since since := h.since
  have viable : (r.lexeme.unfinished r.carried).Viable := h.viable.unfinished
  rw [InWholeNumber]
  cases lexeme : r.lexeme with
  | none =>
    rw [lexeme] at follows
    have nothing : tokenPart since = [] := follows
    rw [nothing]
    exact ⟨False.elim, not_numberText_nil⟩
  | number phase fractional segment =>
    rw [lexeme] at follows viable
    have same : tokenPart since = r.carried ++ segment.raw := follows
    rw [same]
    exact viable.1.isComplete_iff
  | _ =>
    -- A keyword or a string has begun with a byte that begins no number.
    rw [lexeme] at follows
    exact ⟨False.elim, not_numberText_of_noNumber follows⟩

/-! ### The end of a number -/

/-- The call that completes a number in front of `rest`. -/
def settle (r : Reader) (literal : String) (rest : Bytes) : Call :=
  match Token.ofLiteral r.options false literal with
  | .ok token => (.ok token, ⟨r.endScalar, rest⟩)
  | .error code => ((r.failWith code).1, ⟨(r.failWith code).2, rest⟩)

theorem settle_of_ok {literal : String} {token : Token}
    (h : Token.ofLiteral r.options false literal = .ok token) (rest : Bytes) :
    r.settle literal rest = (.ok token, ⟨r.endScalar, rest⟩) := by
  rw [settle, h]

theorem settle_of_error {literal : String} {code : ErrorCode}
    (h : Token.ofLiteral r.options false literal = .error code) (rest : Bytes) :
    r.settle literal rest = ((r.failWith code).1, ⟨(r.failWith code).2, rest⟩) := by
  rw [settle, h]

theorem ofLiteral_of_settle {literal : String} {rest : Bytes} {token : Token}
    (h : (r.settle literal rest).1 = .ok token) :
    Token.ofLiteral r.options false literal = .ok token := by
  cases read : Token.ofLiteral r.options false literal with
  | ok token' =>
    rw [settle_of_ok read] at h
    cases h
    rfl
  | error code =>
    rw [settle_of_error read] at h
    contradiction

theorem depth_endScalar (r : Reader) : r.endScalar.depth = r.depth := by
  obtain ⟨_, _ | ⟨_, _⟩, _, _, _, _, _, _, _⟩ := r <;> rfl

theorem closed_endScalar (r : Reader) : r.endScalar.closed = r.closed :=
  congrArg (fun place => place.2.1) (r.follows_endScalar []).place

/-- A number ends in the same place whatever it is converted to. -/
theorem settle_place (r : Reader) (literal : String) (rest : Bytes) :
    (r.settle literal rest).2.position = r.position ∧
      (r.settle literal rest).2.rest = rest ∧
        (r.settle literal rest).2.reader.depth = r.depth ∧
          (r.settle literal rest).2.reader.closed = r.closed := by
  rw [settle]
  split
  · have place : r.endScalar.position = r.position :=
      congrArg Prod.fst (r.follows_endScalar rest).place
    exact ⟨place, rfl, r.depth_endScalar, r.closed_endScalar⟩
  · exact ⟨rfl, rfl, rfl, rfl⟩

theorem settle_answers {literal : String} (number : NumberText (Utf8.bytes literal))
    (rest : Bytes) :
    r.options.Answers literal (r.settle literal rest).2.position (r.settle literal rest).1 := by
  obtain ⟨position, -⟩ := r.settle_place literal rest
  rw [position]
  cases read : Token.ofLiteral r.options false literal with
  | ok token =>
    rw [settle_of_ok read]
    refine ⟨fun token' => ?_, fun e => ?_⟩
    · rw [← ReaderOptions.ofLiteral_eq_ok_iff number, read]
      simp only [Except.ok.injEq]
    · refine ⟨nofun, fun ⟨_, range⟩ => ?_⟩
      rw [range.ofLiteral_eq] at read
      contradiction
  | error code =>
    rw [settle_of_error read]
    obtain ⟨rfl, range⟩ := (ReaderOptions.ofLiteral_eq_error_iff number).1 read
    refine ⟨fun token => ?_, fun e => ?_⟩
    · refine ⟨nofun, fun converts => ?_⟩
      rw [converts.ofLiteral_eq] at read
      contradiction
    · refine ⟨fun same => ?_, fun same => ?_⟩
      · cases same
        exact ⟨rfl, range⟩
      · rw [same.1]
        rfl

/-- What a number in progress is completed to depends on its literal and the options. -/
theorem InPlace.endNumber (h : InPlace o r past since rest) {phase : Number.Phase}
    {fractional : Bool} {segment : Segment} (lexeme : r.lexeme = .number phase fractional segment)
    {literal : String} (same : Utf8.bytes literal = tokenPart since) (options : ReaderOptions) :
    (r.under options).endNumber fractional segment =
      (Token.ofLiteral options false literal).map fun token =>
        (token, (r.under options).endScalar) := by
  have aligned : segment.Aligned r.carry rest := by
    have aligned := h.live.aligned
    rw [Aligned, lexeme] at aligned
    exact aligned
  have follows : (r.lexeme.unfinished r.carried).Since since := h.since
  have viable : (r.lexeme.unfinished r.carried).Viable := h.viable.unfinished
  rw [lexeme] at follows viable
  obtain ⟨-, marked⟩ := viable
  have raw : r.carried ++ segment.raw = Utf8.bytes literal :=
    Eq.trans (Eq.symm follows) same.symm
  have text : r.scalarText segment = .ok literal := by
    rw [scalarText]
    rw [scalarBytes_eq aligned, raw, Utf8.text?_bytes]
  rw [Reader.endNumber, scalarText_under, text, options_under, marked, raw]
  simp only [bind, Except.bind, pure, Except.pure]
  rw [Machine.ofLiteral_marked]
  cases Token.ofLiteral options false literal <;> rfl

/-- A complete number that ends here is settled, whatever the options. -/
theorem InPlace.scan_whole (h : InPlace o r past since rest) (whole : r.InWholeNumber)
    (ends : r.Ends rest) {literal : String} (same : Utf8.bytes literal = tokenPart since)
    (options : ReaderOptions) :
    (r.under options).scan rest = (r.under options).settle literal rest := by
  cases lexeme : r.lexeme with
  | number phase fractional segment =>
    rw [InWholeNumber, lexeme] at whole
    have settled := h.endNumber lexeme same options
    rw [settle, options_under]
    cases rest with
    | nil =>
      have closed : (r.under options).closed = true := ends
      rw [scan, atEnd, lexeme_under, lexeme]
      rw [if_pos closed]
      dsimp only
      rw [if_pos whole, settled]
      cases Token.ofLiteral options false literal <;> rfl
    | cons byte rest =>
      have complete : ¬(!phase.isComplete) = true := by simpa using whole
      have ends : Byte.endsScalar byte = true := ends
      have stop : phase.next? byte = none := Number.Phase.next?_of_endsScalar ends
      rw [scan, step, lexeme_under, lexeme]
      dsimp only
      rw [stepNumber, stop]
      dsimp only
      rw [if_neg complete, if_pos ends, settled]
      cases Token.ofLiteral options false literal <;> rfl
  | _ =>
    rw [InWholeNumber, lexeme] at whole
    exact whole.elim

end Reader

/-! ### One call -/

/-- The feed with other options. -/
def Feed.under (options : ReaderOptions) (f : Feed) : Feed :=
  { f with reader := f.reader.under options }

/-- What has been read of a token is a literal, and it ends where the feed stands. -/
def Feed.EndsLiteral (f : Feed) (since : Bytes) : Prop :=
  NumberText (tokenPart since) ∧ f.reader.Ends f.rest

/-- One call of a reader with the options `o` and of the same reader with the options `o'`. Both
have read `past`, up to the last token, and they have read `upto` once the chunk at hand is used up.
Unless a number ends, the answers and the feeds after them are the same. -/
inductive Call.Together (o o' : ReaderOptions) (past upto : Bytes) : Call → Call → Prop where
  | token {token : Token} {f : Feed} {since : Bytes} (plain : token.isNumber = false)
      (elsewhere : ¬f.EndsLiteral since) (ongoing : token.isOngoing = true)
      (place : Reader.InPlace o f.reader (past ++ since) [] f.rest)
      (whole : upto = past ++ since ++ f.rest) :
      Together o o' past upto (.ok token, f) (.ok token, f.under o')
  | needMore {r : Reader} {since : Bytes} (place : Reader.InPlace o r past since [])
      (whole : upto = past ++ since) (resumed : r.Resumed) (opened : r.closed = false) :
      Together o o' past upto (.ok .needMore, ⟨r, []⟩) (.ok .needMore, ⟨r.under o', []⟩)
  | done {f : Feed} {since : Bytes} (elsewhere : ¬f.EndsLiteral since)
      (position : f.position = Position.after {} (past ++ since))
      (whole : upto = past ++ since ++ f.rest) :
      Together o o' past upto (.ok .done, f) (.ok .done, f.under o')
  | failed {e : ParseError} {f : Feed} {since : Bytes} (elsewhere : ¬f.EndsLiteral since)
      (position : f.position = Position.after {} (past ++ since))
      (whole : upto = past ++ since ++ f.rest) :
      Together o o' past upto (.error e, f) (.error e, f.under o')
  | settled {r : Reader} {since rest : Bytes} {literal : String} {call call' : Call}
      (same : Utf8.bytes literal = tokenPart since) (number : NumberText (Utf8.bytes literal))
      (ends : r.Ends rest) (place : Reader.InPlace o r past since rest)
      (inside : r.InWholeNumber) (whole : upto = past ++ since ++ rest)
      (settles : call = r.settle literal rest)
      (settles' : call' = (r.under o').settle literal rest) : Together o o' past upto call call'

namespace Reader

variable {o o' : ReaderOptions} {r : Reader} {past since input : Bytes}

theorem InPlace.settled (h : InPlace o r past since input) (whole : r.InWholeNumber)
    (ends : r.Ends input) (o' : ReaderOptions) :
    Call.Together o o' past (past ++ since ++ input) (r.scan input)
      ((r.under o').scan input) := by
  have number := h.inWholeNumber_iff.1 whole
  obtain ⟨literal, same⟩ := number.exists_text
  exact .settled same (same ▸ number) ends h whole rfl (h.scan_whole whole ends same r.options)
    (h.scan_whole whole ends same o')

/-- Where no number ends, the bytes since the last token end with no literal. -/
theorem InPlace.not_endsLiteral (h : InPlace o r past since input)
    (elsewhere : ¬(r.InWholeNumber ∧ r.Ends input)) {next : Reader}
    (closed : next.closed = r.closed) : ¬Feed.EndsLiteral ⟨next, input⟩ since := by
  intro ⟨number, ends⟩
  exact elsewhere ⟨h.inWholeNumber_iff.2 number, ends_of_closed closed.symm ends⟩

theorem InPlace.failed (h : InPlace o r past since input)
    (elsewhere : ¬(r.InWholeNumber ∧ r.Ends input)) (code : ErrorCode) (o' : ReaderOptions) :
    Call.Together o o' past (past ++ since ++ input)
      ((r.failWith code).1, ⟨(r.failWith code).2, input⟩)
      (((r.under o').failWith code).1, ⟨((r.under o').failWith code).2, input⟩) :=
  .failed (f := ⟨(r.failWith code).2, input⟩) (h.not_endsLiteral elsewhere rfl) h.position rfl

/-- The end of a chunk, or of the input. -/
theorem InPlace.scan_nil_together (h : InPlace o r past since []) (o' : ReaderOptions) :
    Call.Together o o' past (past ++ since ++ []) (r.scan []) ((r.under o').scan []) := by
  by_cases closed : r.closed = true
  · by_cases whole : r.InWholeNumber
    · exact h.settled whole closed o'
    · have closed' : (r.under o').closed = true := closed
      have under := atEnd_under (o := o') fun inside => absurd inside whole
      rw [scan, scan]
      rw [if_pos closed, if_pos closed', under]
      have elsewhere : ¬(r.InWholeNumber ∧ r.Ends []) := fun both => whole both.1
      cases ended : r.atEnd with
      | error code => exact h.failed elsewhere code o'
      | ok done =>
        obtain ⟨token, next⟩ := done
        rcases atEnd_eq_ok ended with ⟨rfl, -, -, -, rfl⟩ | ⟨inside, ongoing, rfl⟩
        · exact .done (f := ⟨{ r with root := .done }, []⟩) (h.not_endsLiteral elsewhere rfl)
            h.position rfl
        · exact .token (f := ⟨r.endScalar, []⟩) (atEnd_plain whole ended)
            (h.not_endsLiteral elsewhere r.closed_endScalar) ongoing (h.endScalar inside) rfl
  · -- The input goes on, so even a complete number may have more digits in the next chunk.
    have closed' : ¬(r.under o').closed = true := closed
    have opened : r.suspend.closed = false := by
      have same : r.suspend.closed = r.closed := congrArg (fun place => place.2.1) r.place_suspend
      exact same.trans (Bool.eq_false_iff.2 closed)
    rw [scan, scan]
    rw [if_neg closed, if_neg closed', suspend_under]
    exact .needMore (inPlace_suspend h) (List.append_nil _) r.resumed_suspend opened

/-- **One call.** Unless a number ends, both readers answer the same and go on alike. -/
theorem InPlace.scan_together (h : InPlace o r past since input)
    (encoding : o.encoding = o'.encoding) :
    Call.Together o o' past (past ++ since ++ input) (r.scan input)
      ((r.under o').scan input) := by
  induction input generalizing r since with
  | nil => exact h.scan_nil_together o'
  | cons byte rest ih =>
    by_cases ends : r.InWholeNumber ∧ Byte.endsScalar byte = true
    · exact h.settled ends.1 ends.2 o'
    · have all := h.step_all
      have within : r.InWholeNumber → Byte.endsScalar byte = false := fun whole =>
        Bool.eq_false_iff.2 fun last => ends ⟨whole, last⟩
      have plain := step_plain within rest
      have same : o'.encoding = r.options.encoding := by rw [h.options, encoding]
      have under : (r.under o').step byte rest = (r.step byte rest).map (under o') :=
        step_under (.inr same) (fun whole last => absurd ⟨whole, last⟩ ends) rest
      rw [scan, scan, under]
      have moved : past ++ since ++ byte :: rest = past ++ (since ++ [byte]) ++ rest := by
        simp only [List.append_assoc, List.singleton_append]
      cases step : r.step byte rest with
      | advance next =>
        rw [step] at all
        rw [moved]
        exact ih all
      | emit token next =>
        rw [step] at all plain
        have other := not_numberText_of_noNumber all.2.1
        exact .token (f := ⟨next.moveOver byte, rest⟩) plain (fun ends => other ends.1) all.1
          all.2.2 moved
      | emitBefore token next =>
        have continues := h.live.step_all
        rw [step] at all plain continues
        exact .token (f := ⟨next, byte :: rest⟩) plain (h.not_endsLiteral ends continues.closed)
          all.1 all.2 rfl
      | fail code => exact h.failed ends code o'

theorem InPlace.next_together {f : Feed} (h : InPlace o f.reader past since f.rest)
    (encoding : o.encoding = o'.encoding) :
    Call.Together o o' past (past ++ since ++ f.rest) f.next (f.under o').next := by
  have live' : (f.under o').reader.Live (f.under o').rest :=
    ⟨h.live.aligned, h.live.failure, h.live.root⟩
  rw [Feed.next_eq_scan h.live, Feed.next_eq_scan live']
  exact h.scan_together encoding

end Reader

end JsonStream
