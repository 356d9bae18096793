import JsonStream.Proofs.Acceptance
import JsonStream.Proofs.ChunkIndependence
import JsonStream.Proofs.Machine.Viable

/-!
# Errors are reported at the earliest byte

A reader that has not failed has read the start of a document: whatever containers are open and
whatever scalar is in progress, some bytes complete them. A reader that fails has read no such
start: no document starts with the bytes up to the refused one, and that one included.

Numbers have to be reported as their literals, since a number in progress may already be out of any
other range, and inside the digits of an escape it may be decided that the unit is half a pair.

* `Machine.completable_between`: what completes open containers.
* `Machine.Viable.exists_rest`: what completes any state.
* `Machine.exists_refused`: a refused byte is refused whatever follows it.
* `Reader.run_viablePrefix`: readers, whatever the chunks.
-/

namespace JsonStream

/-! ### Digits of an escape -/

/-- Whether some digits of a code unit have been read, but not all of them. -/
def EscapeState.inDigits : EscapeState → Bool
  | .unit digits | .secondUnit _ digits => digits != {}
  | .start | .needBackslash _ | .needMark _ => false

/-- Whether the last byte was a digit of an escape that needs more of them. -/
def Unfinished.inDigits : Unfinished → Bool
  | .escape state _ => state.inDigits
  | .nothing | .keyword .. | .number .. | .text .. => false

namespace Machine

/-! ### Open containers -/

/-- Some bytes complete the document, and they may follow a scalar directly. -/
def Completable (m : Machine) : Prop :=
  ∃ rest tokens, Delimited rest ∧ m.tokens? rest = some tokens

section
variable {options : ReaderOptions} {frames outer : List Frame}

theorem completable_closeArray {slot : ArraySlot} (h : slot ≠ .value)
    (after : (past options outer).Completable) :
    (between options (.array slot :: outer)).Completable := by
  obtain ⟨rest, tokens, -, read⟩ := after
  refine ⟨Byte.closeBracket :: rest, .endArray :: tokens, delimited_cons_iff.2 rfl, ?_⟩
  rw [tokens?_closeArray h, read]
  rfl

theorem completable_closeObject {slot : ObjectSlot} (h : slot = .first ∨ slot = .separator)
    (after : (past options outer).Completable) :
    (between options (.object slot :: outer)).Completable := by
  obtain ⟨rest, tokens, -, read⟩ := after
  refine ⟨Byte.closeBrace :: rest, .endObject :: tokens, delimited_cons_iff.2 rfl, ?_⟩
  rw [tokens?_closeObject h, read]
  rfl

/-- Where a value is due, an empty array will do. -/
theorem completable_value (takes : TakesValue frames) (after : (past options frames).Completable) :
    (between options frames).Completable := by
  obtain ⟨rest, tokens, delimited, read⟩ := after
  have array : Spells options.dialect (.value (.array [])) [Byte.openBracket, Byte.closeBracket] :=
    .emptyArray blank_nil
  have reads := array.reads frames rest takes delimited
  rw [read] at reads
  exact ⟨_, _, delimited_cons_iff.2 rfl, reads⟩

theorem completable_memberValue (after : (past options outer).Completable) :
    (between options (.object .value :: outer)).Completable := by
  have closed : (past options (.object .value :: outer)).Completable :=
    completable_closeObject (.inr rfl) after
  exact completable_value trivial closed

theorem completable_colon (after : (past options outer).Completable) :
    (between options (.object .colon :: outer)).Completable := by
  obtain ⟨rest, tokens, -, read⟩ := completable_memberValue after
  refine ⟨Byte.colon :: rest, tokens, delimited_cons_iff.2 rfl, ?_⟩
  rw [tokens?_colon, read]

/-- Where a key is due, an empty one will do. -/
theorem completable_key (after : (past options outer).Completable) :
    (between options (.object .key :: outer)).Completable := by
  obtain ⟨rest, tokens, -, read⟩ := completable_memberValue after
  have named : KeyText options.dialect "" [Byte.quote, Byte.quote, Byte.colon] :=
    ⟨[], [Byte.quote, Byte.quote], [], rfl, blank_nil, ⟨[], rfl, .nil⟩, blank_nil⟩
  refine ⟨[Byte.quote, Byte.quote, Byte.colon] ++ rest, .key "" :: tokens,
    delimited_cons_iff.2 rfl, ?_⟩
  rw [tokens?_key (.inr rfl) named, read]
  rfl

/-- After a value or a key: the containers are closed one after another. -/
theorem completable_past (options : ReaderOptions) (frames : List Frame) :
    (past options frames).Completable := by
  induction frames with
  | nil => exact ⟨[], [.done], delimited_nil, tokens?_nil _⟩
  | cons frame outer ih =>
    cases frame with
    | array slot => exact completable_closeArray nofun ih
    | object slot =>
      cases slot with
      | first | key => exact completable_colon ih
      | colon | value | separator => exact completable_closeObject (.inr rfl) ih

/-- **Any open containers can be closed**, whatever they accept next. -/
theorem completable_between (options : ReaderOptions) (frames : List Frame) :
    (between options frames).Completable := by
  cases frames with
  | nil => exact completable_value trivial (completable_past options [])
  | cons frame outer =>
    have after := completable_past options outer
    cases frame with
    | array slot =>
      cases slot with
      | first | separator => exact completable_closeArray nofun after
      | value => exact completable_value trivial (completable_past options _)
    | object slot =>
      cases slot with
      | first => exact completable_closeObject (.inl rfl) after
      | key => exact completable_key after
      | colon => exact completable_colon after
      | value => exact completable_memberValue after
      | separator => exact completable_closeObject (.inr rfl) after

end

/-! ### Scalars in progress -/

section
variable (options : ReaderOptions) (frames : List Frame)

theorem endScalar_between : (between options frames).endScalar = past options frames := by
  cases frames <;> rfl

theorem exists_rest_keyword (word : Keyword) (missing : Bytes) :
    ∃ rest tokens, ((between options frames).goOn (.keyword word missing)).tokens? rest =
      some tokens := by
  obtain ⟨rest, tokens, delimited, read⟩ := completable_past options frames
  refine ⟨missing ++ rest, .ofKeyword word :: tokens, ?_⟩
  rw [keyword_complete _ word missing delimited, endScalar_between, read]
  rfl

/-- Every literal is reported if numbers are reported as their literals. -/
theorem exists_ofLiteral {options : ReaderOptions} (text : options.numbers = .text)
    (literal : String) : ∃ token, Token.ofLiteral options false literal = .ok token := by
  rw [Token.ofLiteral, text]
  dsimp only
  split <;> exact ⟨_, rfl⟩

theorem exists_rest_complete (text : options.numbers = .text) {phase : Number.Phase}
    {literal : Bytes} (spelled : phase.Spelled literal) (complete : phase.isComplete = true) :
    ∃ rest tokens, ((between options frames).inNumber phase literal).tokens? rest =
      some tokens := by
  obtain ⟨rest, tokens, delimited, read⟩ := completable_past options frames
  obtain ⟨text', rfl⟩ := (spelled.numberText complete).exists_text
  obtain ⟨token, reported⟩ := exists_ofLiteral text text'
  refine ⟨rest, token :: tokens, ?_⟩
  rw [number_end complete reported delimited, endScalar_between, read]
  rfl

theorem exists_rest_number (text : options.numbers = .text) {phase : Number.Phase}
    {literal : Bytes} (spelled : phase.Spelled literal) :
    ∃ rest tokens, ((between options frames).inNumber phase literal).tokens? rest =
      some tokens := by
  rcases phase.isComplete_or_next? with complete | ⟨last, next, complete⟩
  · exact exists_rest_complete options frames text spelled complete
  · obtain ⟨rest, tokens, read⟩ :=
      exists_rest_complete options frames text (spelled.next next) complete
    refine ⟨Byte.zero :: rest, tokens, ?_⟩
    rw [tokens?_advance (step_inNumber_next literal next), read]

/-- A closing quote completes a string. -/
theorem exists_rest_text {content : Bytes} (text : ∃ chars, content = Utf8.encode chars) :
    ∃ rest tokens, ((between options frames).inText content).tokens? rest = some tokens := by
  obtain ⟨chars, rfl⟩ := text
  obtain ⟨rest, tokens, -, read⟩ := completable_past options frames
  refine ⟨Byte.quote :: rest, (between options frames).stringToken (String.ofList chars) :: tokens,
    ?_⟩
  rw [tokens?_emit ((between options frames).step_quote chars), endScalar_between, read]
  rfl

theorem exists_rest_pushed {content : Bytes} (text : ∃ chars, content = Utf8.encode chars)
    (c : Char) :
    ∃ rest tokens, ((between options frames).inText
      (content ++ String.utf8EncodeChar c)).tokens? rest = some tokens :=
  exists_rest_text options frames
    (Utf8.State.continues_boundary_iff.1 (Utf8.State.continues_push text c))

theorem exists_rest_sequence {utf8 : Utf8.State} {content : Bytes}
    (continues : utf8.Continues content) :
    ∃ rest tokens, ((between options frames).goOn (.text utf8 content)).tokens? rest =
      some tokens := by
  obtain ⟨bytes, completes⟩ := utf8.exists_completes
  obtain ⟨rest, tokens, read⟩ := exists_rest_text options frames (continues bytes completes)
  refine ⟨bytes ++ rest, tokens, ?_⟩
  rw [(sequence_absorbs _ (Utf8.State.goesOn_of_completes completes) content).tokens?_eq]
  exact read

theorem hexDigit_zero : HexDigit 0x30 0 :=
  digit?_eq_some_iff.1 rfl

/-- The second half of a pair completes a high surrogate. -/
theorem exists_rest_secondUnit {content : Bytes} {high : Nat}
    (isHigh : Utf16.isHighSurrogate high = true) (text : ∃ chars, content = Utf8.encode chars) :
    ∃ rest tokens,
      ((between options frames).inEscape content (.secondUnit high {})).tokens? rest =
        some tokens := by
  -- The first low surrogate goes with any high one.
  have named : UnitText [0x64, 0x63, 0x30, 0x30] 0xdc00 :=
    ⟨_, _, _, _, 0xd, 0xc, 0, 0, rfl, ⟨digit?_eq_some_iff.1 rfl, digit?_eq_some_iff.1 rfl,
      hexDigit_zero, hexDigit_zero⟩, rfl⟩
  have isLow : Utf16.isLowSurrogate 0xdc00 = true := rfl
  obtain ⟨c, pair⟩ := Utf16.exists_pairChar? isHigh isLow
  obtain ⟨bounds, same⟩ := pairChar?_eq_some_iff.1 pair
  obtain ⟨rest, tokens, read⟩ := exists_rest_pushed options frames text c
  refine ⟨[0x64, 0x63, 0x30, 0x30] ++ rest, tokens, ?_⟩
  rw [(pair_absorbs named bounds same content).tokens?_eq, read]

/-- An escape can be completed, unless some of its digits have been read. -/
theorem exists_rest_escape {state : EscapeState} {content : Bytes} (viable : state.Viable)
    (outside : state.inDigits = false) (text : ∃ chars, content = Utf8.encode chars) :
    ∃ rest tokens, ((between options frames).inEscape content state).tokens? rest =
      some tokens := by
  cases state with
  | start =>
    obtain ⟨rest, tokens, read⟩ := exists_rest_pushed options frames text '/'
    refine ⟨[0x2f] ++ rest, tokens, ?_⟩
    have entry : (0x2f, '/') ∈ shortEscapes := by decide
    rw [(short_absorbs entry content).tokens?_eq, read]
  | unit digits =>
    have none : digits = {} := by simpa [EscapeState.inDigits] using outside
    subst none
    have named : UnitText [0x30, 0x30, 0x30, 0x30] 0 :=
      ⟨_, _, _, _, 0, 0, 0, 0, rfl,
        ⟨hexDigit_zero, hexDigit_zero, hexDigit_zero, hexDigit_zero⟩, rfl⟩
    obtain ⟨rest, tokens, read⟩ := exists_rest_pushed options frames text '\x00'
    refine ⟨[0x30, 0x30, 0x30, 0x30] ++ rest, tokens, ?_⟩
    have scalar : ¬Surrogate 0 := by simp [Surrogate]
    rw [(unit_absorbs named scalar (show '\x00'.toNat = 0 from rfl) content).tokens?_eq, read]
  | needBackslash high =>
    obtain ⟨rest, tokens, read⟩ := exists_rest_secondUnit options frames viable text
    refine ⟨[Byte.backslash, Byte.lowerU] ++ rest, tokens, ?_⟩
    rw [((between options frames).second_escape_absorbs content high).tokens?_eq, read]
  | needMark high =>
    obtain ⟨rest, tokens, read⟩ := exists_rest_secondUnit options frames viable text
    exact ⟨Byte.lowerU :: rest, tokens, (tokens?_advance rfl).trans read⟩
  | secondUnit high digits =>
    have none : digits = {} := by simpa [EscapeState.inDigits] using outside
    subst none
    exact exists_rest_secondUnit options frames viable text

end

/-- **Any state can be completed** if numbers are reported as their literals, unless some digits of
an escape have been read. -/
theorem Viable.exists_rest {m : Machine} (h : m.Viable) (text : m.options.numbers = .text)
    (outside : m.unfinished.inDigits = false) : ∃ rest tokens, m.tokens? rest = some tokens := by
  obtain ⟨options, frames, root, unfinished⟩ := m
  have viable := h.unfinished
  rcases h.root with value | ⟨after, empty, nothing⟩
  · cases value
    cases unfinished with
    | nothing =>
      obtain ⟨rest, tokens, -, read⟩ := completable_between options frames
      exact ⟨rest, tokens, read⟩
    | keyword word missing => exact exists_rest_keyword options frames word missing
    | number phase fractional literal =>
      obtain ⟨spelled, rfl⟩ := viable
      exact exists_rest_number options frames text spelled
    | text utf8 content => exact exists_rest_sequence options frames viable
    | escape state content => exact exists_rest_escape options frames viable.1 outside viable.2
  · -- The value is complete, and only the end of input is missing.
    cases after
    cases empty
    cases nothing
    obtain ⟨rest, tokens, -, read⟩ := completable_past options []
    exact ⟨rest, tokens, read⟩

/-! ### Refused bytes -/

/-- **A refused byte is refused whatever follows it.** -/
theorem exists_refused {m : Machine} {p : Position} {input : Bytes} {code : ErrorCode}
    (h : (m.read p input).failure = some code) :
    ∃ used byte rest, input = used ++ byte :: rest ∧ (m.read p input).position = p.after used ∧
      ∀ more, (m.read p (used ++ byte :: more)).failure = some code := by
  induction m, p, input using read.induct with
  | case1 m p =>
    rw [read_nil] at h
    contradiction
  | case2 m p byte input next step ih =>
    rw [read_advance step] at h ⊢
    obtain ⟨used, refused, rest, rfl, position, always⟩ := ih h
    refine ⟨byte :: used, refused, rest, rfl, position, fun more => ?_⟩
    rw [List.cons_append, read_advance step]
    exact always more
  | case3 m p byte input token next step ih =>
    rw [read_emit step] at h ⊢
    obtain ⟨used, refused, rest, rfl, position, always⟩ := ih h
    refine ⟨byte :: used, refused, rest, rfl, position, fun more => ?_⟩
    rw [List.cons_append, read_emit step]
    exact always more
  | case4 m p byte input token next step ih =>
    rw [read_emitBefore step] at h ⊢
    obtain ⟨used, refused, rest, same, position, always⟩ := ih h
    refine ⟨used, refused, rest, same, position, fun more => ?_⟩
    -- The byte that ends the scalar is the first one here too.
    cases used with
    | nil =>
      cases same
      rw [List.nil_append, read_emitBefore step]
      exact always more
    | cons first used =>
      cases same
      rw [List.cons_append, read_emitBefore step]
      exact always more
  | case5 m p byte input code' step =>
    rw [read_fail step] at h ⊢
    cases h
    refine ⟨[], byte, input, rfl, rfl, fun more => ?_⟩
    rw [List.nil_append, read_fail step]
    rfl

/-! ### Documents -/

variable {m : Machine} {first : Bytes}

theorem tokens?_append (second : Bytes) (accepted : (m.read {} first).failure = none) :
    m.tokens? (first ++ second) =
      ((m.read {} first).machine.tokens? second).map
        ((m.read {} first).tokens.map Prod.fst ++ ·) := by
  rw [tokens?, readAll, read_append, Reading.andThen_andThen, Reading.accepted?_andThen accepted]
  show Option.map _ (readAll _ _ _).accepted? = _
  rw [accepted?_readAll]

theorem tokens?_of_failure {code : ErrorCode} (h : (m.read {} first).failure = some code) :
    m.tokens? first = none := by
  rw [tokens?, readAll, Reading.andThen_of_failure h, Reading.accepted?, h]

end Machine

/-! ### Positions -/

namespace Position

/-- The order of places in a text. -/
def Before (p q : Position) : Prop :=
  p.line < q.line ∨ p.line = q.line ∧ p.column < q.column

theorem before_advance (p : Position) (byte : UInt8) : p.Before (p.advance byte) := by
  rw [advance]
  split
  · exact .inl (Nat.lt_succ_self _)
  · exact .inr ⟨rfl, Nat.lt_succ_self _⟩

theorem before_after (p : Position) (byte : UInt8) (bytes : Bytes) :
    p.Before (p.after (byte :: bytes)) := by
  induction bytes generalizing p byte with
  | nil => exact p.before_advance byte
  | cons next bytes ih =>
    have first := p.before_advance byte
    have rest := ih (p.advance byte) next
    rw [after_cons]
    simp only [Before] at first rest ⊢
    omega

theorem after_take_ne (p : Position) {bytes : Bytes} {i j : Nat} (less : i < j)
    (h : j ≤ bytes.length) : p.after (bytes.take i) ≠ p.after (bytes.take j) := by
  have split : bytes.take j = bytes.take i ++ (bytes.take j).drop i := by
    have front : (bytes.take j).take i = bytes.take i := by
      rw [List.take_take, Nat.min_eq_left (Nat.le_of_lt less)]
    rw [← front, List.take_append_drop]
  cases more : (bytes.take j).drop i with
  | nil =>
    have length := congrArg List.length more
    rw [List.length_drop, List.length_take, List.length_nil] at length
    omega
  | cons byte more' =>
    have before := (p.after (bytes.take i)).before_after byte more'
    rw [split, more, after_append]
    intro same
    rw [← same] at before
    simp only [Before] at before
    omega

/-- Every byte moves the place on, so a place belongs to one number of bytes. -/
theorem after_take_inj (p : Position) {bytes : Bytes} {i j : Nat} (h : i ≤ bytes.length)
    (h' : j ≤ bytes.length) : p.after (bytes.take i) = p.after (bytes.take j) ↔ i = j := by
  refine ⟨fun same => ?_, fun same => same ▸ rfl⟩
  rcases Nat.lt_trichotomy i j with less | equal | greater
  · exact absurd same (p.after_take_ne less h')
  · exact equal
  · exact absurd same.symm (p.after_take_ne greater h)

end Position

/-! ### Readers -/

namespace Reader

/-- Whether the last byte was a digit of an escape that needs more of them. -/
def inDigits (r : Reader) : Bool :=
  match r.lexeme with
  | .escape state => state.inDigits
  | .none | .keyword .. | .number .. | .text .. => false

theorem inDigits_machine (r : Reader) : r.machine.unfinished.inDigits = r.inDigits := by
  have unfinished : r.machine.unfinished = r.lexeme.unfinished r.carried := rfl
  rw [unfinished, inDigits]
  cases r.lexeme <;> rfl

/-- **Errors are reported at the earliest byte.** Chunks are read by a new reader, and the end of
input is not signalled. If the reader has not failed, reports numbers as their literals and has not
stopped among the digits of an escape, what it has read is the start of a document. If it has
failed, then at one of the bytes, and no document starts with the bytes up to that one. -/
theorem run_viablePrefix (options : ReaderOptions) {chunks : List Bytes}
    (bytes : ∀ chunk ∈ chunks, chunk ≠ []) :
    (options.numbers = .text → (({ options } : Reader).run chunks).2.failure = none →
      (({ options } : Reader).run chunks).2.inDigits = false →
        ∃ rest tokens, ∀ document : List Bytes, document.flatten = chunks.flatten ++ rest →
          ({ options } : Reader).collect document = .ok (tokens ++ [.done])) ∧
      ∀ e, (({ options } : Reader).run chunks).2.failure = some e →
        ∃ i < chunks.flatten.length,
          (∀ j ≤ chunks.flatten.length,
            e.position = Position.after {} (chunks.flatten.take j) ↔ j = i) ∧
          ∀ document : List Bytes, chunks.flatten.take (i + 1) <+: document.flatten →
            ∀ tokens, ({ options } : Reader).collect document ≠ .ok tokens := by
  have tells := tells_run options bytes
  constructor
  · intro text alive outside
    have accepted := tells.accepted alive
    have viable := Machine.read_all (fun _ => Machine.step_viable) (Machine.viable_new options)
      accepted
    have same : _ = options := Machine.options_read accepted
    rw [← same] at text
    rw [← inDigits_machine, tells.machine] at outside
    obtain ⟨rest, tokens, read⟩ := viable.exists_rest text outside
    have whole := Machine.tokens?_append rest accepted
    rw [read] at whole
    obtain ⟨v, document, flat⟩ := collect_eq_ok_iff_document.1
      (collect_eq_ok_iff.2 (show ({ options } : Machine).tokens? [chunks.flatten ++ rest].flatten = _
        from by rw [List.flatten_singleton]; exact whole))
    refine ⟨rest, v.flatten, fun parts cut => ?_⟩
    rw [← flat, collect_eq_ok_iff, cut]
    exact whole
  · intro e failed
    have failure := tells.failure
    rw [failed] at failure
    obtain ⟨code, refused, rfl⟩ := Option.map_eq_some_iff.1 failure.symm
    obtain ⟨used, byte, rest, whole, position, always⟩ := Machine.exists_refused refused
    rw [position, whole]
    have length : used.length < (used ++ byte :: rest).length := by
      rw [List.length_append, List.length_cons]
      omega
    refine ⟨used.length, length, fun j le => ?_, fun document start tokens collected => ?_⟩
    · have place := Position.after_take_inj {} (Nat.le_of_lt length) le
      rw [List.take_left] at place
      exact place.trans eq_comm
    · have front : (used ++ byte :: rest).take (used.length + 1) = used ++ [byte] := by
        rw [List.take_length_add_append]
        rfl
      rw [front] at start
      obtain ⟨more, same⟩ := start
      have none := Machine.tokens?_of_failure (always more)
      rw [collect_eq_ok_iff, ← same, List.append_assoc, List.singleton_append, none] at collected
      contradiction

/-- A document cut inside a character of four bytes, and one with a number where a key is due. -/
theorem run_viablePrefix_cut :
    (∃ rest tokens, ∀ document : List Bytes,
        document.flatten = [0x7b, 0x22, 0x61, 0x22, 0x3a, 0x5b, 0x22, 0xf0, 0x9f] ++ rest →
          ({ options := { numbers := .text } } : Reader).collect document = .ok (tokens ++ [.done])) ∧
      ∀ document : List Bytes, [0x7b, 0x22, 0x22, 0x3a, 0x30, 0x2c, 0x31] <+: document.flatten →
        ∀ tokens, ({ options := { numbers := .text } } : Reader).collect document ≠ .ok tokens := by
  obtain ⟨completed, -⟩ := @run_viablePrefix { numbers := .text }
    [[0x7b, 0x22], [0x61, 0x22, 0x3a, 0x5b, 0x22, 0xf0, 0x9f]] (by decide)
  obtain ⟨-, refused⟩ := @run_viablePrefix { numbers := .text }
    [[0x7b, 0x22, 0x22, 0x3a, 0x30, 0x2c], [0x31, 0x7d]] (by decide)
  refine ⟨completed rfl (by decide +kernel) (by decide +kernel), ?_⟩
  obtain ⟨i, -, place, never⟩ := refused ⟨.expectedString, { column := 7 }⟩ (by decide +kernel)
  cases (place 6 (by decide)).1 rfl
  exact never

end Reader

end JsonStream
