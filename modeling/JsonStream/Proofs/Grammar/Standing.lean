import JsonStream.Proofs.Grammar.Munch
import JsonStream.Proofs.Grammar.Places
import JsonStream.Proofs.WordOutcomes

/-!
# Machines at a place

A machine between tokens knows its place in the grammar from its open containers alone, although the
text before it may be of any length. What it has read then leads to this place (`Machine.Stands`):
every byte keeps that, inside scalars too, and so do the bytes that open and close containers.

* `Machine.At`: the machine at a place.
* `Machine.At.step_allowed`, `Machine.At.step_refused`: one byte at a place.
* `Machine.Stands.step_leads`: one byte anywhere.
-/

namespace JsonStream

/-- What a step leads to if it takes its byte, and what it leads to if it does not. -/
def Step.Leads {σ : Type} (P Q : σ → Prop) : Step σ → Prop
  | .advance next | .emit _ next => P next
  | .emitBefore _ next => Q next
  | .fail _ => True

/-- The byte is taken. -/
def Step.Takes {σ : Type} (P : σ → Prop) : Step σ → Prop
  | .advance next | .emit _ next => P next
  | .emitBefore .. | .fail _ => False

theorem Step.Takes.leads {σ : Type} {P : σ → Prop} {step : Step σ} (h : step.Takes P)
    (Q : σ → Prop) : step.Leads P Q := by
  cases step with
  | advance | emit => exact h
  | emitBefore | fail => exact h.elim

/-- The frame of a container while a value inside it is read. -/
def Container.frame : Container → Frame
  | array => .array .value
  | object => .object .value

/-! ### Bytes that start a value -/

theorem startsValue_head {lexicon : Lexicon} {byte : UInt8} (head : lexicon.Head byte) :
    StartsValue byte := by
  cases lexicon with
  | number =>
    obtain ⟨phase, start⟩ := Lexicon.head_number_iff.1 head
    obtain ⟨more, number⟩ := (Number.Phase.spelled_start start).starts
    obtain ⟨text, same⟩ := number.exists_text
    exact ⟨.number (.other (.text text)), more, .number ⟨number, text, same, rfl⟩⟩
  | keyword k =>
    obtain rfl : byte = k.head := head
    cases k with
    | null => exact ⟨_, Keyword.null.tail, .null⟩
    | true => exact ⟨_, Keyword.true.tail, .true⟩
    | false => exact ⟨_, Keyword.false.tail, .false⟩

/-- **The bytes that start a value**: a bracket, a brace, a quote, and those that start a number or
a keyword. -/
theorem startsValue_iff {byte : UInt8} :
    StartsValue byte ↔ byte = Byte.openBracket ∨ byte = Byte.openBrace ∨ byte = Byte.quote ∨
      ∃ lexicon : Lexicon, lexicon.Head byte := by
  constructor
  · rintro ⟨v, rest, spelled⟩
    generalize text : byte :: rest = bytes at spelled
    cases spelled with
    | null => exact .inr (.inr (.inr ⟨.keyword .null, (List.cons.inj text).1⟩))
    | true => exact .inr (.inr (.inr ⟨.keyword .true, (List.cons.inj text).1⟩))
    | false => exact .inr (.inr (.inr ⟨.keyword .false, (List.cons.inj text).1⟩))
    | number literal =>
      obtain ⟨phase, start, -⟩ := Number.Phase.accepts_iff.2 (text ▸ literal.1)
      exact .inr (.inr (.inr ⟨.number, Lexicon.head_number_iff.2 ⟨phase, start⟩⟩))
    | string literal =>
      obtain ⟨body, rfl, -⟩ := literal
      exact .inr (.inr (.inl (List.cons.inj text).1))
    | emptyArray | array => exact .inl (List.cons.inj text).1
    | emptyObject | object => exact .inr (.inl (List.cons.inj text).1)
  · rintro (rfl | rfl | rfl | ⟨lexicon, head⟩)
    · exact ⟨_, _, .emptyArray blank_nil⟩
    · exact ⟨_, _, .emptyObject blank_nil⟩
    · exact ⟨.string "", [Byte.quote], .string (stringText_empty .json)⟩
    · exact startsValue_head head

theorem not_blank_iff {byte : UInt8} : ¬Blank [byte] ↔ Byte.isWhitespace byte = false := by
  simp [blank_cons_iff, blank_nil]

namespace Machine

/-! ### The machine at a place -/

/-- **The machine between tokens at a place.** -/
inductive At (options : ReaderOptions) : Place → List Container → Machine → Prop where
  | root : At options .value [] (between options [])
  | after (opened : List Container) :
      At options .after opened (past options (opened.map Container.frame))
  | firstElement (outer : List Container) : At options .firstElement (.array :: outer)
      (between options (.array .first :: outer.map Container.frame))
  | element (outer : List Container) : At options .value (.array :: outer)
      (between options (.array .value :: outer.map Container.frame))
  | firstKey (outer : List Container) : At options .firstKey (.object :: outer)
      (between options (.object .first :: outer.map Container.frame))
  | key (outer : List Container) : At options .key (.object :: outer)
      (between options (.object .key :: outer.map Container.frame))
  | colon (outer : List Container) : At options .colon (.object :: outer)
      (between options (.object .colon :: outer.map Container.frame))
  | memberValue (outer : List Container) : At options .value (.object :: outer)
      (between options (.object .value :: outer.map Container.frame))

namespace At

variable {options : ReaderOptions} {place : Place} {c : Container} {opened : List Container}
  {m : Machine} {byte : UInt8}

theorem unfinished_eq (h : At options place opened m) : m.unfinished = .nothing := by
  cases h with
  | after => rcases opened with _ | ⟨_ | _, outer⟩ <;> rfl
  | _ => rfl

theorem options_eq (h : At options place opened m) : m.options = options := by
  cases h with
  | after => rcases opened with _ | ⟨_ | _, outer⟩ <;> rfl
  | _ => rfl

theorem step_blank (h : At options place opened m) (space : Blank [byte]) :
    m.step byte = .advance m := by
  rw [step, h.unfinished_eq]
  exact if_pos (blank_cons_iff.1 space).1

/-- Where a value is due, the machine is given by its frames. -/
theorem exists_frames (h : At options place opened m) (takes : place.TakesValue) :
    ∃ frames, m = between options frames ∧ Machine.TakesValue frames ∧
      started frames = opened.map Container.frame := by
  cases h with
  | root => exact ⟨[], rfl, trivial, rfl⟩
  | firstElement outer => exact ⟨_, rfl, trivial, rfl⟩
  | element outer => exact ⟨_, rfl, trivial, rfl⟩
  | memberValue outer => exact ⟨_, rfl, trivial, rfl⟩
  | after | firstKey | key | colon => simp [Place.TakesValue] at takes

/-- A key is due in objects only. -/
theorem exists_object (h : At options place opened m) (takes : place.TakesKey) :
    ∃ outer slot, opened = .object :: outer ∧ (slot = .first ∨ slot = .key) ∧
      m = between options (.object slot :: outer.map Container.frame) := by
  cases h with
  | firstKey outer => exact ⟨outer, .first, rfl, .inl rfl, rfl⟩
  | key outer => exact ⟨outer, .key, rfl, .inr rfl, rfl⟩
  | root | after | firstElement | element | colon | memberValue => simp [Place.TakesKey] at takes

/-- The machine after a scalar where a value is due. -/
theorem endValue (h : At options place opened m) (takes : place.TakesValue) :
    At options .after opened m.valueStarted.endScalar := by
  obtain ⟨frames, rfl, -, around⟩ := h.exists_frames takes
  rw [valueStarted_between, endScalar_started, ← past_started, around]
  exact .after opened

theorem endKey (h : At options place opened m) (takes : place.TakesKey) :
    At options .colon opened m.valueStarted.endScalar := by
  obtain ⟨outer, slot, rfl, rfl | rfl, rfl⟩ := h.exists_object takes
  · exact .colon outer
  · exact .colon outer

/-! ### What is taken at a place -/

/-- Where a value is due, a container may open. -/
theorem step_opening (h : At options place opened m) (takes : place.TakesValue) (c : Container) :
    ∃ token next, m.step c.opening = .emit token next ∧
      At options c.first (c :: opened) next := by
  obtain ⟨frames, rfl, due, around⟩ := h.exists_frames takes
  cases c with
  | array =>
    refine ⟨.beginArray, between options (.array .first :: started frames), ?_, ?_⟩
    · exact (step_takesValue options due (by decide) (by decide)).trans stepValue_openBracket
    · rw [around]
      exact .firstElement opened
  | object =>
    refine ⟨.beginObject, between options (.object .first :: started frames), ?_, ?_⟩
    · exact (step_takesValue options due (by decide) (by decide)).trans stepValue_openBrace
    · rw [around]
      exact .firstKey opened

/-- Where a value is due, a number or a keyword may start. -/
theorem step_head (h : At options place opened m) (takes : place.TakesValue) {lexicon : Lexicon}
    (head : lexicon.Head byte) :
    ∃ x, m.step byte = .advance x ∧ lexicon.Inside m.valueStarted [byte] x := by
  obtain ⟨frames, rfl, due, -⟩ := h.exists_frames takes
  obtain ⟨space, -, -, -, close, -⟩ := head.ordinary
  rw [step_takesValue options due space close]
  exact stepValue_of_head _ head

theorem step_quote (h : At options place opened m) (takes : place.TakesValue ∨ place.TakesKey) :
    m.step Byte.quote = .advance (m.valueStarted.inText []) := by
  rcases Machine.step_opening h.unfinished_eq with opens | ⟨code, refused⟩
  · exact opens
  rcases takes with takes | takes
  · obtain ⟨frames, rfl, due, -⟩ := h.exists_frames takes
    rw [step_takesValue options due (by decide) (by decide), stepValue_quote] at refused
    contradiction
  · obtain ⟨outer, slot, rfl, rfl | rfl, rfl⟩ := h.exists_object takes
    · contradiction
    · contradiction

/-- The container is closed where it may be. -/
theorem step_closing (h : At options place (c :: opened) m)
    (closes : place = c.first ∨ place = .after) :
    ∃ token, m.step c.closing = .emit token (past options (opened.map Container.frame)) := by
  have closed : ∀ frames, (between options frames).closeContainer (opened.map Container.frame) =
      past options (opened.map Container.frame) := fun frames => closeContainer_between frames _
  cases h with
  | firstElement => exact ⟨.endArray, congrArg (Step.emit _) (closed _)⟩
  | firstKey => exact ⟨.endObject, congrArg (Step.emit _) (closed _)⟩
  | after =>
    cases c with
    | array => exact ⟨.endArray, congrArg (Step.emit _) (closed _)⟩
    | object => exact ⟨.endObject, congrArg (Step.emit _) (closed _)⟩
  | element | key | colon | memberValue => simp [Container.first] at closes

theorem step_comma (h : At options .after (c :: opened) m) :
    ∃ next, m.step Byte.comma = .advance next ∧ At options c.next (c :: opened) next := by
  cases h with
  | after =>
    cases c with
    | array => exact ⟨_, rfl, .element opened⟩
    | object => exact ⟨_, rfl, .key opened⟩

theorem step_colon (h : At options .colon opened m) :
    ∃ next, m.step Byte.colon = .advance next ∧ At options .value opened next := by
  cases h with
  | colon outer => exact ⟨_, rfl, .memberValue outer⟩

/-! ### What is refused at a place -/

theorem stepValue_refused (m : Machine) (refused : ¬StartsValue byte) :
    m.stepValue byte = .fail .unexpectedCharacter := by
  rw [startsValue_iff] at refused
  rcases stepValue_cases m byte with rfl | rfl | rfl | number | ⟨word, rfl⟩ | fails
  · exact absurd (.inl rfl) refused
  · exact absurd (.inr (.inl rfl)) refused
  · exact absurd (.inr (.inr (.inl rfl))) refused
  · exact absurd (.inr (.inr (.inr ⟨.number, Lexicon.head_number_iff.2 number⟩))) refused
  · exact absurd (.inr (.inr (.inr ⟨.keyword word, rfl⟩))) refused
  · exact fails

/-- **A byte that may not follow is refused** with the error for the place. -/
theorem step_refused (h : At options place opened m) (space : ¬Blank [byte])
    (refused : ¬place.Allows opened.head? byte) : m.step byte = .fail (place.code opened.head?) := by
  have visible := not_blank_iff.1 space
  cases h with
  | root | element | memberValue =>
    rw [step_between visible]
    exact stepValue_refused _ refused
  | firstElement =>
    obtain ⟨value, close⟩ := not_or.1 refused
    rw [step_between visible]
    exact (if_neg close).trans (stepValue_refused _ value)
  | firstKey =>
    obtain ⟨quote, close⟩ := not_or.1 refused
    rw [step_between visible]
    exact (if_neg quote).trans (if_neg close)
  | key =>
    rw [step_between visible]
    exact if_neg refused
  | colon =>
    rw [step_between visible]
    exact if_neg refused
  | after =>
    cases opened with
    | nil => exact if_neg (Bool.eq_false_iff.1 visible)
    | cons c outer =>
      obtain ⟨comma, close⟩ := not_or.1 refused
      cases c with
      | array => exact (step_between visible).trans ((if_neg comma).trans (if_neg close))
      | object => exact (step_between visible).trans ((if_neg comma).trans (if_neg close))

end At

/-! ### Strings in progress -/

/-- A string is in progress. -/
def InString (m : Machine) : Prop :=
  match m.unfinished with
  | .text .. | .escape .. => True
  | .nothing | .keyword .. | .number .. => False

section
variable {m x next : Machine} {byte : UInt8} {token : Token} {taken more : Bytes}

/-- **What one byte does inside a string**: the string goes on, it ends with this byte, or the byte
is refused. -/
theorem InString.step_cases (h : x.InString) (byte : UInt8) :
    (∃ next, x.step byte = .advance next ∧ next.InString) ∨
      (∃ token next, x.step byte = .emit token next) ∨ ∃ code, x.step byte = .fail code := by
  rw [step]
  rw [InString] at h
  cases unfinished : x.unfinished with
  | nothing | keyword | number =>
    rw [unfinished] at h
    contradiction
  | text utf8 content =>
    simp only [stepText, stepUtf8]
    repeat' split
    all_goals first
      | exact .inl ⟨_, rfl, trivial⟩
      | exact .inr (.inl ⟨_, _, rfl⟩)
      | exact .inr (.inr ⟨_, rfl⟩)
  | escape state content =>
    simp only [stepEscape, pushEscaped]
    repeat' split
    all_goals first
      | exact .inl ⟨_, rfl, trivial⟩
      | exact .inr (.inr ⟨_, rfl⟩)

/-- The byte that ends a string is a quote, and the bytes before it spell characters. -/
theorem Absorbs.closes (h : (m.inText []).Absorbs taken x) (step : x.step byte = .emit token next) :
    byte = Byte.quote ∧ next = m.endScalar ∧
      ∃ chars, BodyText m.options.dialect chars taken := by
  have read : (m.inText []).readUpTo false {} (taken ++ [byte]) =
      { tokens := [(token, Position.after {} (taken ++ [byte]))], machine := next,
        position := Position.after {} (taken ++ [byte]) } := by
    rw [h.readUpTo_eq, readUpTo, read_emit step, read_nil, Position.after_append]
    rfl
  obtain ⟨result, lexed⟩ := m.options.exists_lexed (taken ++ [byte])
  have shows := shows_of_lexed lexed false {}
  rw [read] at shows
  generalize input : taken ++ [byte] = bytes at lexed read shows
  cases lexed with
  | flawed => exact absurd shows.1 (List.cons_ne_nil _ _)
  | @closed chars body rest spelled =>
    -- The token is reported after the quote, so this is the last byte.
    obtain ⟨-, place⟩ := Prod.mk.inj (Option.some.inj shows)
    have last : rest = [] := by
      cases rest with
      | nil => rfl
      | cons other rest =>
        have before := (Position.after {} (body ++ [Byte.quote])).before_after other rest
        rw [← Position.after_append, List.append_assoc, List.singleton_append, place] at before
        simp [Position.Before] at before
    subst last
    obtain ⟨rfl, quote⟩ := List.append_inj' input rfl
    rw [readUpTo_closed spelled, readUpTo, read_nil] at read
    exact ⟨(List.cons.inj quote).1, (congrArg Reading.machine read).symm, chars, spelled⟩

end

/-! ### What has been read -/

/-- **What has been read leads to where the machine stands**: to a place between tokens, or to a
place from which a scalar has been begun. -/
inductive Stands (options : ReaderOptions) : Bytes → Machine → Prop where
  | between {place : Place} {opened : List Container} {text : Bytes} {m : Machine}
      (upto : Upto options.dialect place opened text) (stands : At options place opened m) :
      Stands options text m
  | word {place : Place} {opened : List Container} {text w : Bytes} {m x : Machine}
      {lexicon : Lexicon} (upto : Upto options.dialect place opened text)
      (stands : At options place opened m) (takes : place.TakesValue)
      (inside : lexicon.Inside m.valueStarted w x) : Stands options (text ++ w) x
  | string {place : Place} {opened : List Container} {text more : Bytes} {m x : Machine}
      (upto : Upto options.dialect place opened text) (stands : At options place opened m)
      (takes : place.TakesValue ∨ place.TakesKey) (inString : x.InString)
      (absorbs : (m.valueStarted.inText []).Absorbs more x) :
      Stands options (text ++ Byte.quote :: more) x

theorem stands_start (options : ReaderOptions) : Stands options [] { options } :=
  .between .start .root

section
variable {options : ReaderOptions} {place : Place} {c : Container} {opened : List Container}
  {text w more : Bytes} {m x : Machine} {byte : UInt8} {token : Token} {lexicon : Lexicon}

namespace At

/-- What starts a value leads on into it. -/
theorem step_starts_takes (h : At options place opened m)
    (upto : Upto options.dialect place opened text) (takes : place.TakesValue)
    (starts : StartsValue byte) : (m.step byte).Takes (Stands options (text ++ [byte])) := by
  have opens (c : Container) : (m.step c.opening).Takes (Stands options (text ++ [c.opening])) := by
    obtain ⟨token, next, step, stands⟩ := h.step_opening takes c
    rw [step]
    exact .between (upto.opening takes c) stands
  rcases startsValue_iff.1 starts with rfl | rfl | rfl | ⟨lexicon, head⟩
  · exact opens .array
  · exact opens .object
  · rw [h.step_quote (.inl takes)]
    exact .string upto h (.inl takes) trivial (.nil _)
  · obtain ⟨x, step, inside⟩ := h.step_head takes head
    rw [step]
    exact .word upto h takes inside

theorem step_closing_takes (h : At options place (c :: opened) m)
    (upto : Upto options.dialect place (c :: opened) text)
    (closes : place = c.first ∨ place = .after) :
    (m.step c.closing).Takes (Stands options (text ++ [c.closing])) := by
  obtain ⟨token, step⟩ := h.step_closing closes
  rw [step]
  exact .between (upto.closing closes) (.after opened)

theorem step_quote_takes (h : At options place opened m)
    (upto : Upto options.dialect place opened text) (takes : place.TakesKey) :
    (m.step Byte.quote).Takes (Stands options (text ++ [Byte.quote])) := by
  rw [h.step_quote (.inr takes)]
  exact .string upto h (.inr takes) trivial (.nil _)

/-- **A byte that may follow is taken** and leads on. -/
theorem step_allowed (h : At options place opened m)
    (upto : Upto options.dialect place opened text)
    (allowed : place.Allows opened.head? byte) :
    (m.step byte).Takes (Stands options (text ++ [byte])) := by
  cases place with
  | value => exact h.step_starts_takes upto (.inl rfl) allowed
  | firstElement =>
    rcases allowed with starts | rfl
    · exact h.step_starts_takes upto (.inr rfl) starts
    · cases h with
      | firstElement outer =>
        exact (At.firstElement outer).step_closing_takes upto (.inl rfl)
  | firstKey =>
    rcases allowed with rfl | rfl
    · exact h.step_quote_takes upto (.inr rfl)
    · cases h with
      | firstKey outer => exact (At.firstKey outer).step_closing_takes upto (.inl rfl)
  | key =>
    obtain rfl : byte = Byte.quote := allowed
    exact h.step_quote_takes upto (.inl rfl)
  | colon =>
    obtain rfl : byte = Byte.colon := allowed
    obtain ⟨next, step, stands⟩ := h.step_colon
    rw [step]
    exact .between upto.colon stands
  | after =>
    cases opened with
    | nil => exact absurd allowed id
    | cons c outer =>
      rcases allowed with rfl | rfl
      · obtain ⟨next, step, stands⟩ := h.step_comma
        rw [step]
        exact .between upto.comma stands
      · exact h.step_closing_takes upto (.inr rfl)

/-- **What is refused at a place** is what the grammar says, and nothing else. -/
theorem step_eq_fail_iff (h : At options place opened m)
    (upto : Upto options.dialect place opened text) {code : ErrorCode} :
    m.step byte = .fail code ↔ place.Refuses opened.head? (some byte) code := by
  by_cases space : Blank [byte]
  · rw [h.step_blank space]
    exact iff_of_false nofun fun refuses => refuses.1 space
  by_cases allowed : place.Allows opened.head? byte
  · have takes := h.step_allowed upto allowed
    refine iff_of_false ?_ fun refuses => refuses.2.1 allowed
    intro fails
    rw [fails] at takes
    exact takes
  · rw [h.step_refused space allowed]
    constructor
    · intro same
      injection same with same
      exact ⟨space, allowed, same.symm⟩
    · rintro ⟨-, -, rfl⟩
      rfl

end At

/-! ### One byte anywhere -/

/-- A word that is reported spells a value. -/
theorem exists_value_of_reports (word : lexicon.Word w)
    (reports : lexicon.Reports options w (.ok token)) :
    ∃ v, Spells options.dialect (.value v) w := by
  cases reports with
  | @number literal token converts =>
    have literal_eq := converts.ofLiteral_eq
    obtain ⟨n, rfl⟩ := exists_numeral literal_eq
    exact ⟨.number n, .number ⟨word, literal, rfl, literal_eq⟩⟩
  | keyword k =>
    cases k with
    | null => exact ⟨_, .null⟩
    | true => exact ⟨_, .true⟩
    | false => exact ⟨_, .false⟩

/-- **Every byte leads on** from what has been read, and what ends before it does not include
it. -/
theorem Stands.step_leads (h : Stands options text x) (byte : UInt8) :
    (x.step byte).Leads (Stands options (text ++ [byte])) (Stands options text) := by
  cases h with
  | @between place opened text m upto stands =>
    by_cases space : Blank [byte]
    · rw [stands.step_blank space]
      exact .between (upto.blank space) stands
    by_cases allowed : place.Allows opened.head? byte
    · exact (stands.step_allowed upto allowed).leads _
    · rw [stands.step_refused space allowed]
      trivial
  | @word place opened before w m x lexicon upto stands takes inside =>
    rcases inside.step_cases byte with
      ⟨next, step, inside⟩ | ⟨token, word, reports, step⟩ | ⟨code, step⟩
    · rw [step, List.append_assoc]
      exact .word upto stands takes inside
    · have same : m.valueStarted.options = options :=
        (options_valueStarted m).trans stands.options_eq
      rw [same] at reports
      obtain ⟨v, spelled⟩ := exists_value_of_reports word reports
      rw [step]
      exact .between (upto.value takes spelled) (stands.endValue takes)
    · rw [step]
      trivial
  | @string place opened before more m x upto stands takes inString absorbs =>
    rcases inString.step_cases byte with
      ⟨next, step, inString⟩ | ⟨token, next, step⟩ | ⟨code, step⟩
    · rw [step, List.append_assoc, List.cons_append]
      exact .string upto stands takes inString (absorbs.snoc step)
    · obtain ⟨rfl, rfl, chars, body⟩ := absorbs.closes step
      rw [options_valueStarted, stands.options_eq] at body
      have literal : StringText options.dialect (String.ofList chars)
          (Byte.quote :: (more ++ [Byte.quote])) := ⟨more, rfl, by simpa using body⟩
      rw [step, List.append_assoc, List.cons_append]
      rcases takes with takes | takes
      · exact .between (upto.value takes (.string literal)) (stands.endValue takes)
      · exact .between (upto.key takes literal) (stands.endKey takes)
    · rw [step]
      trivial

/-- Between tokens, what has been read leads to a place. -/
theorem Stands.exists_place (h : Stands options text x) (nothing : x.unfinished = .nothing) :
    ∃ place opened, Upto options.dialect place opened text ∧ At options place opened x := by
  cases h with
  | between upto stands => exact ⟨_, _, upto, stands⟩
  | word upto stands takes inside =>
    cases inside with
    | number | keyword => contradiction
  | string upto stands takes inString absorbs =>
    rw [InString, nothing] at inString
    contradiction

end

end Machine

end JsonStream
