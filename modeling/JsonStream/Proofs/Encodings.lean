import JsonStream.Proofs.ChunkIndependence
import JsonStream.Proofs.Machine.Latin1
import JsonStream.Proofs.Options

/-!
# ISO-8859-1 is read like its UTF-8

A document in ISO-8859-1 and its counterpart in UTF-8 are read alike, each in its own encoding:
ASCII bytes take the same step, any other byte of a string takes one step here and two there, and
outside of strings it is refused, as is the first byte of its counterpart.

* `Machine.ReadsLatin1.step_ascii`, `Machine.ReadsLatin1.step_high`: one byte and its counterpart.
* `Machine.read_toUtf8`, `Machine.readAll_toUtf8`: a run of bytes, and the end of input.
* `Reader.run_toUtf8`: whole documents, however they are cut.
-/

namespace JsonStream

namespace Machine

variable {m : Machine} {o : ReaderOptions} {byte : UInt8}

/-! ### One byte and its counterpart -/

/-- A byte of a string is one step here and two steps in UTF-8. -/
theorem step_high_text (latin1 : m.options.encoding = .latin1) (utf8 : o.encoding = .utf8)
    {first second : UInt8} (high : 0x80 ≤ byte.toNat) (pair : Latin1.Pair byte first second)
    (content : Bytes) :
    (m.inText content).step byte = .advance (m.inText (content ++ [first, second])) ∧
      ((m.under o).inText content).step first =
        .advance ((m.under o).goOn (.text .one (content ++ [first]))) ∧
      ((m.under o).goOn (.text .one (content ++ [first]))).step second =
        .advance ((m.under o).inText (content ++ [first, second])) := by
  refine ⟨?_, ?_, ?_⟩
  · rw [step_inText_high m content high, latin1, pair.encoded]
  · rw [step_inText_high (m.under o) content pair.high.1, options_under, utf8]
    dsimp only
    rw [stepUtf8, pair.opens]
  · show (m.under o).stepText .one (content ++ [first]) second = _
    rw [stepText, if_pos (by decide), stepUtf8, pair.closes, List.append_assoc]
    rfl

/-- What holds of a machine that reads a document in ISO-8859-1. -/
structure ReadsLatin1 (m : Machine) (o : ReaderOptions) : Prop where
  latin1 : m.options.encoding = .latin1
  numbers : o.SameNumbers m.options
  viable : m.Viable
  whole : m.unfinished.Whole

/-- **An ASCII byte takes the same step in both encodings.** -/
theorem ReadsLatin1.step_ascii (h : m.ReadsLatin1 o) {byte : UInt8} (ascii : byte.toNat < 0x80) :
    (m.under o).step byte = (m.step byte).map (under o) :=
  step_under (UInt8.lt_iff_toNat_lt.2 ascii) h.numbers

/-- **A byte outside ASCII and its counterpart**: one step and two, or the same refusal. -/
theorem ReadsLatin1.step_high (h : m.ReadsLatin1 o) (utf8 : o.encoding = .utf8)
    {first second : UInt8} (high : 0x80 ≤ byte.toNat) (pair : Latin1.Pair byte first second) :
    (∃ next middle, m.step byte = .advance next ∧ (m.under o).step first = .advance middle ∧
        middle.step second = .advance (next.under o)) ∨
      ∃ code, m.step byte = .fail code ∧ (m.under o).step first = .fail code := by
  have whole := h.whole
  rw [step, step, unfinished_under]
  cases unfinished : m.unfinished with
  | nothing =>
    exact .inr ⟨_, m.stepStructure_high high, (m.under o).stepStructure_high pair.high.1⟩
  | keyword word missing =>
    rw [unfinished] at whole
    refine .inr ⟨.unexpectedCharacter, ?_⟩
    cases missing with
    | nil =>
      dsimp only
      rw [stepKeyword, stepKeyword, Byte.endsScalar_of_high high,
        Byte.endsScalar_of_high pair.high.1]
      exact ⟨rfl, rfl⟩
    | cons expected missing =>
      have ascii := (ascii_cons_iff.1 whole).1
      exact ⟨if_neg (ne_of_high high ascii), if_neg (ne_of_high pair.high.1 ascii)⟩
  | number phase fractional literal =>
    refine .inr ?_
    dsimp only
    rw [stepNumber, stepNumber, Number.Phase.next?_of_high high,
      Number.Phase.next?_of_high pair.high.1, Byte.endsScalar_of_high high,
      Byte.endsScalar_of_high pair.high.1]
    dsimp only
    split_ifs
    · exact ⟨_, rfl, rfl⟩
    · contradiction
    · exact ⟨_, rfl, rfl⟩
  | text state content =>
    rw [unfinished] at whole
    cases (show state = .boundary from whole)
    obtain ⟨here, opened, closed⟩ := step_high_text h.latin1 utf8 high pair content
    exact .inl ⟨_, _, here, opened, closed⟩
  | escape state content =>
    exact .inr ⟨_, m.stepEscape_high high state content,
      (m.under o).stepEscape_high pair.high.1 state content⟩

end Machine

/-! ### Runs of bytes -/

/-- Both readings of a document and its counterpart report the same tokens, and they stop at the
same byte and at its counterpart, for the same reason. -/
structure Reading.Matches (x y : Reading) (o : ReaderOptions) (p q : Position) (input : Bytes) :
    Prop where
  tokens : y.tokens.map Prod.fst = x.tokens.map Prod.fst
  machine : y.machine = x.machine.under o
  failure : y.failure = x.failure
  place : ∃ before after, input = before ++ after ∧ x.position = p.after before ∧
    y.position = q.after (Latin1.toUtf8 before)

theorem Reading.Matches.report {x y : Reading} {o : ReaderOptions} {p q : Position} {input : Bytes}
    (h : x.Matches y o p q input) (token : Token) (p' q' : Position) :
    (x.report token p').Matches (y.report token q') o p q input :=
  ⟨congrArg (token :: ·) h.tokens, h.machine, h.failure, h.place⟩

namespace Reading.Matches

variable {x y : Reading} {o : ReaderOptions} {p q : Position} {byte : UInt8} {rest : Bytes}

/-- One more byte in front. -/
theorem cons (h : x.Matches y o (p.advance byte) (q.after (Latin1.toUtf8 [byte])) rest) :
    x.Matches y o p q (byte :: rest) := by
  obtain ⟨before, after, rfl, position, position'⟩ := h.place
  refine ⟨h.tokens, h.machine, h.failure, byte :: before, after, rfl, position, ?_⟩
  rw [position', ← Position.after_append, ← Latin1.toUtf8_append]
  rfl

theorem cons_ascii (h : x.Matches y o (p.advance byte) (q.advance byte) rest)
    (ascii : byte.toNat < 0x80) : x.Matches y o p q (byte :: rest) := by
  refine cons ?_
  rw [Latin1.toUtf8_cons_ascii ascii]
  exact h

theorem cons_pair {first second : UInt8}
    (h : x.Matches y o (p.advance byte) ((q.advance first).advance second) rest)
    (pair : Latin1.Pair byte first second) : x.Matches y o p q (byte :: rest) := by
  refine cons ?_
  rw [pair.toUtf8_cons]
  exact h

end Reading.Matches

namespace Machine

variable {m : Machine} {o : ReaderOptions}

theorem refuse_matches (m : Machine) (o : ReaderOptions) (p q : Position) (code : ErrorCode)
    (input : Bytes) : (m.refuse p code).Matches ((m.under o).refuse q code) o p q input :=
  ⟨rfl, rfl, rfl, [], input, rfl, rfl, rfl⟩

theorem ReadsLatin1.step_all (h : m.ReadsLatin1 o) (byte : UInt8) :
    (m.step byte).All (·.ReadsLatin1 o) := by
  have options := m.step_options byte
  have viable := step_viable h.viable byte
  have whole := step_whole h.latin1 h.viable h.whole byte
  have carries : ∀ next : Machine, next.options = m.options → next.Viable →
      next.unfinished.Whole → next.ReadsLatin1 o := by
    intro next same viable whole
    exact ⟨same ▸ h.latin1, same ▸ h.numbers, viable, whole⟩
  cases step : m.step byte with
  | advance next =>
    rw [step] at options viable whole
    exact carries next options viable whole
  | emit token next =>
    rw [step] at options viable whole
    exact carries next options viable whole
  | emitBefore token next =>
    rw [step] at options viable whole
    exact carries next options viable whole
  | fail code => trivial

/-- Only ASCII bytes complete a token. -/
theorem ReadsLatin1.ascii_of_token (h : m.ReadsLatin1 o) (utf8 : o.encoding = .utf8)
    {byte : UInt8} {token : Token} {next : Machine}
    (step : m.step byte = .emit token next ∨ m.step byte = .emitBefore token next) :
    byte.toNat < 0x80 := by
  by_contra high
  obtain ⟨first, second, pair⟩ := Latin1.exists_pair (Nat.not_lt.1 high)
  rcases h.step_high utf8 (Nat.not_lt.1 high) pair with ⟨_, _, here, -⟩ | ⟨_, here, -⟩
  · rw [here] at step
    rcases step with same | same <;> contradiction
  · rw [here] at step
    rcases step with same | same <;> contradiction

/-- **Both documents are read alike**, and no byte is malformed. -/
theorem read_toUtf8 (utf8 : o.encoding = .utf8) (h : m.ReadsLatin1 o) (p q : Position)
    (input : Bytes) :
    (m.read p input).Matches ((m.under o).read q (Latin1.toUtf8 input)) o p q input ∧
      (m.read p input).failure ≠ some .illegalUnicode := by
  -- Along the first reading: each of its steps is one or two steps of the second.
  induction m, p, input using read.induct generalizing q with
  | case1 m p =>
    rw [read_nil, Latin1.toUtf8_nil, read_nil]
    exact ⟨⟨rfl, rfl, rfl, [], [], rfl, rfl, rfl⟩, (Option.some_ne_none _).symm⟩
  | case2 m p byte rest next step ih =>
    have all := h.step_all byte
    rw [step] at all
    rw [read_advance step]
    by_cases ascii : byte.toNat < 0x80
    · have step' := h.step_ascii ascii
      rw [step] at step'
      obtain ⟨same, legal⟩ := ih all (q.advance byte)
      rw [Latin1.toUtf8_cons_ascii ascii, read_advance step']
      exact ⟨same.cons_ascii ascii, legal⟩
    · obtain ⟨first, second, pair⟩ := Latin1.exists_pair (Nat.not_lt.1 ascii)
      rcases h.step_high utf8 (Nat.not_lt.1 ascii) pair with ⟨next', middle, here, opened, closed⟩ | ⟨_, here, -⟩
      · rw [step] at here
        cases here
        obtain ⟨same, legal⟩ := ih all ((q.advance first).advance second)
        rw [pair.toUtf8_cons, read_advance opened, read_advance closed]
        exact ⟨same.cons_pair pair, legal⟩
      · rw [step] at here
        contradiction
  | case3 m p byte rest token next step ih =>
    have all := h.step_all byte
    have ascii := h.ascii_of_token utf8 (.inl step)
    have step' := h.step_ascii ascii
    rw [step] at all step'
    obtain ⟨same, legal⟩ := ih all (q.advance byte)
    rw [Latin1.toUtf8_cons_ascii ascii, read_emit step, read_emit step']
    exact ⟨(same.cons_ascii ascii).report token _ _, legal⟩
  | case4 m p byte rest token next step ih =>
    have all := h.step_all byte
    have ascii := h.ascii_of_token utf8 (.inr step)
    have step' := h.step_ascii ascii
    rw [step] at all step'
    obtain ⟨same, legal⟩ := ih all q
    rw [Latin1.toUtf8_cons_ascii ascii] at same ⊢
    rw [read_emitBefore step, read_emitBefore step']
    exact ⟨same.report token _ _, legal⟩
  | case5 m p byte rest code step =>
    have whole := step_whole h.latin1 h.viable h.whole byte
    rw [step] at whole
    have legal : code ≠ .illegalUnicode := whole
    rw [read_fail step]
    refine ⟨?_, fun same => legal (Option.some.inj same)⟩
    by_cases ascii : byte.toNat < 0x80
    · have step' := h.step_ascii ascii
      rw [step] at step'
      rw [Latin1.toUtf8_cons_ascii ascii, read_fail step']
      exact m.refuse_matches o p q code _
    · obtain ⟨first, second, pair⟩ := Latin1.exists_pair (Nat.not_lt.1 ascii)
      rcases h.step_high utf8 (Nat.not_lt.1 ascii) pair with ⟨_, _, here, -⟩ | ⟨code', here, refused⟩
      · rw [step] at here
        contradiction
      · rw [step] at here
        cases here
        rw [pair.toUtf8_cons, read_fail refused]
        exact m.refuse_matches o p q code _

/-! ### The end of input -/

theorem documentEnd_matches (m : Machine) (o : ReaderOptions) (p q : Position) :
    (m.documentEnd p).Matches ((m.under o).documentEnd q) o p q [] := by
  rw [documentEnd, documentEnd, frames_under, root_under]
  split_ifs
  · exact ⟨rfl, rfl, rfl, [], [], rfl, rfl, rfl⟩
  · exact m.refuse_matches o p q _ []

theorem endScalar_under (m : Machine) (o : ReaderOptions) :
    (m.under o).endScalar = m.endScalar.under o := by
  obtain ⟨_, _ | ⟨_, _⟩, _, _⟩ := m <;> rfl

theorem endNumber_under (same : o.SameNumbers m.options) (fractional : Bool) (literal : Bytes) :
    (m.under o).endNumber fractional literal =
      (m.endNumber fractional literal).map fun done => (done.1, done.2.under o) := by
  rw [endNumber, endNumber, options_under, endScalar_under]
  cases Utf8.text? literal with
  | none => rfl
  | some text =>
    dsimp only
    rw [same.ofLiteral_eq]
    cases Token.ofLiteral m.options fractional text <;> rfl

/-- The end of input does not look at the encoding. -/
theorem finish_matches (same : o.SameNumbers m.options) (p q : Position) :
    (m.finish p).Matches ((m.under o).finish q) o p q [] := by
  rw [finish, finish, unfinished_under, endScalar_under]
  cases m.unfinished with
  | nothing => exact m.documentEnd_matches o p q
  | keyword word missing =>
    cases missing with
    | nil => exact (m.endScalar.documentEnd_matches o p q).report _ p q
    | cons => exact m.refuse_matches o p q _ []
  | number phase fractional literal =>
    dsimp only
    rw [endNumber_under same]
    split_ifs
    · cases m.endNumber fractional literal with
      | error code => exact m.refuse_matches o p q code []
      | ok done => exact (done.2.documentEnd_matches o p q).report done.1 p q
    · exact m.refuse_matches o p q _ []
  | text => exact m.refuse_matches o p q _ []
  | escape => exact m.refuse_matches o p q _ []

/-- **Whole documents are read alike.** -/
theorem readAll_toUtf8 (utf8 : o.encoding = .utf8) (h : m.ReadsLatin1 o) (p q : Position)
    (input : Bytes) :
    (m.readAll p input).Matches ((m.under o).readAll q (Latin1.toUtf8 input)) o p q input ∧
      (m.readAll p input).failure ≠ some .illegalUnicode := by
  obtain ⟨same, legal⟩ := read_toUtf8 utf8 h p q input
  rw [readAll, readAll]
  cases failure : (m.read p input).failure with
  | some code =>
    rw [Reading.andThen_of_failure failure, Reading.andThen_of_failure (same.failure.trans failure)]
    exact ⟨same, legal⟩
  | none =>
    have reads := read_all (fun _ (h : ReadsLatin1 _ o) => h.step_all) h failure
    rw [Reading.andThen_eq failure, Reading.andThen_eq (same.failure.trans failure), same.machine]
    have ended := finish_matches reads.numbers (m.read p input).position
      ((m.under o).read q (Latin1.toUtf8 input)).position
    obtain ⟨before, after, split, position, position_utf8⟩ := same.place
    obtain ⟨more, _, nothing, ended_at, ended_at_utf8⟩ := ended.place
    cases (List.append_eq_nil_iff.1 nothing.symm).1
    refine ⟨⟨?_, ended.machine, ended.failure, before, after, split, ended_at.trans position,
      ended_at_utf8.trans position_utf8⟩, finish_legal reads.viable _⟩
    show List.map Prod.fst (_ ++ _) = List.map Prod.fst (_ ++ _)
    rw [List.map_append, List.map_append, same.tokens, ended.tokens]

theorem finish_done {p : Position} (accepted : (m.finish p).failure = none) :
    ∃ tokens, (m.finish p).tokens.map Prod.fst = tokens ++ [.done] := by
  have documentEnd : ∀ next : Machine, (next.documentEnd p).failure = none →
      (next.documentEnd p).tokens.map Prod.fst = [.done] := by
    intro next accepted
    rw [Machine.documentEnd] at accepted ⊢
    split_ifs at accepted ⊢ with complete
    · rfl
    · contradiction
  rw [finish] at accepted ⊢
  cases unfinished : m.unfinished with
  | nothing =>
    rw [unfinished] at accepted
    exact ⟨[], documentEnd m accepted⟩
  | keyword word missing =>
    rw [unfinished] at accepted
    cases missing with
    | nil => exact ⟨[_], congrArg (_ :: ·) (documentEnd m.endScalar accepted)⟩
    | cons => contradiction
  | number phase fractional literal =>
    rw [unfinished] at accepted
    dsimp only at accepted ⊢
    split_ifs at accepted ⊢
    · cases ended : m.endNumber fractional literal with
      | error code =>
        rw [ended] at accepted
        contradiction
      | ok done =>
        rw [ended] at accepted
        exact ⟨[done.1], congrArg (done.1 :: ·) (documentEnd done.2 accepted)⟩
    · contradiction
  | text =>
    rw [unfinished] at accepted
    contradiction
  | escape =>
    rw [unfinished] at accepted
    contradiction

/-- The last token of a document is its end. -/
theorem readAll_done {p : Position} {input : Bytes}
    (accepted : (m.readAll p input).failure = none) :
    ∃ tokens, (m.readAll p input).tokens.map Prod.fst = tokens ++ [.done] := by
  rw [readAll] at accepted ⊢
  obtain ⟨read, finished⟩ := Reading.accepted_andThen accepted
  rw [Reading.andThen_eq read]
  obtain ⟨tokens, done⟩ := finish_done finished
  refine ⟨(m.read p input).tokens.map Prod.fst ++ tokens, ?_⟩
  show List.map Prod.fst (_ ++ _) = _
  rw [List.map_append, done, List.append_assoc]

end Machine

/-! ### Whole documents -/

/-- The line of a place is that of its counterpart. -/
theorem Position.line_after_toUtf8 {p q : Position} (same : p.line = q.line) (input : Bytes) :
    (p.after input).line = (q.after (Latin1.toUtf8 input)).line := by
  have line : ∀ (p : Position) (byte : UInt8), 0x80 ≤ byte.toNat →
      (p.advance byte).line = p.line := by
    intro p byte high
    rw [advance, if_neg (ne_of_high high (by decide))]
  induction input generalizing p q with
  | nil => exact same
  | cons byte rest ih =>
    by_cases ascii : byte.toNat < 0x80
    · rw [Latin1.toUtf8_cons_ascii ascii]
      refine ih ?_
      rw [advance, advance]
      split_ifs
      · exact congrArg (· + 1) same
      · exact same
    · have high := Nat.not_lt.1 ascii
      obtain ⟨first, second, pair⟩ := Latin1.exists_pair high
      rw [pair.toUtf8_cons]
      refine ih ?_
      rw [line _ _ high, line _ _ pair.high.2, line _ _ pair.high.1, same]

/-- What is answered to a document in ISO-8859-1 and what is answered to its counterpart in UTF-8:
the same tokens up to the end, or up to the same failure on the same line, at a byte of the first
document and at the first byte of its counterpart, or at the end of both documents. It is never that
of a malformed sequence. -/
inductive Latin1.Alike (input : Bytes) :
    List (Except ParseError Token) → List (Except ParseError Token) → Prop where
  | accepted (tokens : List Token) :
      Alike input (tokens.map .ok ++ [.ok .done]) (tokens.map .ok ++ [.ok .done])
  | refused (tokens : List Token) {code : ErrorCode} {before after : Bytes} {p q : Position}
      (split : input = before ++ after) (here : p = Position.after {} before)
      (there : q = Position.after {} (Latin1.toUtf8 before)) (line : p.line = q.line)
      (legal : code ≠ .illegalUnicode) :
      Alike input (tokens.map .ok ++ [.error ⟨code, p⟩]) (tokens.map .ok ++ [.error ⟨code, q⟩])

theorem Reading.answers (x : Reading) :
    x.reports.map Prod.fst = (x.tokens.map Prod.fst).map .ok ++
      (x.failure.map fun code => .error ⟨code, x.position⟩).toList := by
  rw [reports, List.map_append, List.map_map, List.map_map]
  cases x.failure <;> rfl

namespace Reader

/-- **A document in ISO-8859-1 is read like its counterpart in UTF-8**, whatever the number options
are and however both documents are cut. -/
theorem run_toUtf8 (o : ReaderOptions) {chunks chunks_utf8 : List Bytes}
    (bytes : ∀ chunk ∈ chunks, chunk ≠ []) (bytes_utf8 : ∀ chunk ∈ chunks_utf8, chunk ≠ [])
    (counterpart : chunks_utf8.flatten = Latin1.toUtf8 chunks.flatten) :
    Latin1.Alike chunks.flatten
      ((Call.reports (({ options := { o with encoding := .latin1 } } : Reader).run
        (chunks ++ [[]])).1.flatten).map Prod.fst)
      ((Call.reports (({ options := { o with encoding := .utf8 } } : Reader).run
        (chunks_utf8 ++ [[]])).1.flatten).map Prod.fst) := by
  have tells := tells_run_end { o with encoding := .latin1 } bytes
  have tells_utf8 := tells_run_end { o with encoding := .utf8 } bytes_utf8
  rw [counterpart] at tells_utf8
  rw [tells.reports, tells_utf8.reports, Reading.answers, Reading.answers]
  have reads : Machine.ReadsLatin1 { options := { o with encoding := .latin1 } }
      { o with encoding := .utf8 } :=
    ⟨rfl, ⟨rfl, rfl⟩, Machine.viable_new _, trivial⟩
  obtain ⟨same, legal⟩ := Machine.readAll_toUtf8 rfl reads {} {} chunks.flatten
  obtain ⟨before, after, split, here, there⟩ := same.place
  have under : Machine.under { o with encoding := .utf8 }
      { options := { o with encoding := .latin1 } } =
        { options := { o with encoding := .utf8 } } := rfl
  rw [under] at same there
  rw [same.tokens, same.failure]
  cases failure : (Machine.readAll { options := { o with encoding := .latin1 } } {}
      chunks.flatten).failure with
  | none =>
    obtain ⟨tokens, done⟩ := Machine.readAll_done failure
    rw [done]
    show Latin1.Alike _ (_ ++ []) (_ ++ [])
    rw [List.append_nil, List.map_append]
    exact .accepted tokens
  | some code =>
    rw [failure] at legal
    refine .refused _ split here there ?_ fun illegal => legal (congrArg some illegal)
    rw [here, there]
    exact Position.line_after_toUtf8 rfl before

/-- A string and then another byte outside ASCII, which is refused: its place is the fourth byte of
the document and the fifth one of its counterpart. -/
theorem run_toUtf8_refused :
    Latin1.Alike [0x22, 0xe9, 0x22, 0xe9]
        ((Call.reports (({ options := { encoding := .latin1 } } : Reader).run
          [[0x22, 0xe9], [0x22, 0xe9], []]).1.flatten).map Prod.fst)
        ((Call.reports (({ options := { encoding := .utf8 } } : Reader).run
          [[0x22, 0xc3], [0xa9, 0x22, 0xc3, 0xa9], []]).1.flatten).map Prod.fst) ∧
      (({ options := { encoding := .latin1 } } : Reader).run
        [[0x22, 0xe9], [0x22, 0xe9], []]).2.failure =
          some ⟨.unexpectedCharacter, { column := 4 }⟩ ∧
      (({ options := { encoding := .utf8 } } : Reader).run
        [[0x22, 0xc3], [0xa9, 0x22, 0xc3, 0xa9], []]).2.failure =
          some ⟨.unexpectedCharacter, { column := 5 }⟩ :=
  ⟨@run_toUtf8 {} [[0x22, 0xe9], [0x22, 0xe9]] [[0x22, 0xc3], [0xa9, 0x22, 0xc3, 0xa9]]
    (by decide) (by decide) (by decide +kernel), by decide +kernel, by decide +kernel⟩

end Reader

end JsonStream
