import JsonStream.Proofs.Machine.Viable
import JsonStream.Proofs.Number.Conversion
import JsonStream.Proofs.Text.Latin1

/-!
# Machines that read ISO-8859-1

Such a machine never waits inside a UTF-8 sequence and never meets a malformed one. Outside of
strings it refuses every byte outside ASCII, for a reason that depends on its state only.

* `Machine.stepStructure_high`, `Machine.stepEscape_high`: refused bytes.
* `Machine.step_whole`, `Machine.finish_legal`: what no byte and not the end of input is refused
  for.
-/

namespace JsonStream

/-! ### Refused bytes -/

/-- What is reported of a byte that an array does not accept next, if no value starts with it. -/
def ArraySlot.refusal : ArraySlot → ErrorCode
  | .first | .value => .unexpectedCharacter
  | .separator => .expectedCommaOrArrayEnd

/-- What is reported of a byte that an object does not accept next, if no value starts with it. -/
def ObjectSlot.refusal : ObjectSlot → ErrorCode
  | .first | .key => .expectedString
  | .colon => .expectedColon
  | .value => .unexpectedCharacter
  | .separator => .expectedCommaOrObjectEnd

/-- What is reported of a byte that the innermost container does not accept next, if no value starts
with it. -/
def Frame.refusal : List Frame → ErrorCode
  | .array slot :: _ => slot.refusal
  | .object slot :: _ => slot.refusal
  | [] => .unexpectedCharacter

/-- What is reported of a byte that does not go on with an escape. -/
def EscapeState.refusal : EscapeState → ErrorCode
  | .start => .illegalEscape
  | .unit _ | .secondUnit .. => .expectedHexDigit
  | .needBackslash _ | .needMark _ => .numericRange

namespace Machine

variable {m : Machine} {byte : UInt8}

theorem stepValue_high (m : Machine) (high : 0x80 ≤ byte.toNat) :
    m.stepValue byte = .fail .unexpectedCharacter := by
  rw [stepValue, if_neg (ne_of_high high (by decide)), if_neg (ne_of_high high (by decide)),
    if_neg (ne_of_high high (by decide)), Number.Phase.start?_of_high high,
    Keyword.ofHead?_of_high high]

theorem stepStructure_high (m : Machine) (high : 0x80 ≤ byte.toNat) :
    m.stepStructure byte = .fail (Frame.refusal m.frames) := by
  have value := m.stepValue_high high
  have other : ∀ ascii : UInt8, ascii.toNat < 0x80 → byte ≠ ascii := fun _ => ne_of_high high
  rw [stepStructure, Byte.isWhitespace_of_high high, if_neg Bool.false_ne_true]
  rcases m.frames with _ | ⟨slot | slot, outer⟩
  · cases m.root with
    | value => exact value
    | afterValue => rfl
    | done => rfl
  · cases slot with
    | first => exact (if_neg (other _ (by decide))).trans value
    | value => exact value
    | separator =>
      exact (if_neg (other _ (by decide))).trans (if_neg (other _ (by decide)))
  · cases slot with
    | first => exact (if_neg (other _ (by decide))).trans (if_neg (other _ (by decide)))
    | key => exact if_neg (other _ (by decide))
    | colon => exact if_neg (other _ (by decide))
    | value => exact value
    | separator =>
      exact (if_neg (other _ (by decide))).trans (if_neg (other _ (by decide)))

theorem stepEscape_high (m : Machine) (high : 0x80 ≤ byte.toNat) (state : EscapeState)
    (content : Bytes) : m.stepEscape state content byte = .fail state.refusal := by
  cases state with
  | start => rw [stepEscape, if_neg (ne_of_high high (by decide)), Escape.short?_of_high high]; rfl
  | unit digits => rw [stepEscape, HexDigits.push?_of_high high]; rfl
  | needBackslash first => exact if_neg (ne_of_high high (by decide))
  | needMark first => exact if_neg (ne_of_high high (by decide))
  | secondUnit first digits => rw [stepEscape, HexDigits.push?_of_high high]; rfl

end Machine

/-! ### Machines that read bytes as characters -/

/-- No UTF-8 sequence is open, and the missing bytes of a keyword are ASCII. -/
def Unfinished.Whole : Unfinished → Prop
  | .text utf8 _ => utf8 = .boundary
  | .keyword _ missing => Ascii missing
  | .nothing | .number .. | .escape .. => True

/-- No UTF-8 sequence is open after the step, and none has been found malformed. -/
def Step.Whole : Step Machine → Prop
  | .advance next | .emit _ next | .emitBefore _ next => next.unfinished.Whole
  | .fail code => code ≠ .illegalUnicode

namespace Machine

variable {m : Machine} {byte : UInt8}

theorem whole_of_nothing (h : m.unfinished = .nothing) : m.unfinished.Whole := by
  rw [h]
  trivial

theorem whole_endScalar (m : Machine) : m.endScalar.unfinished.Whole :=
  whole_of_nothing m.unfinished_endScalar

theorem ascii_tail (word : Keyword) : Ascii word.tail := by
  intro byte mem
  cases word <;> simp only [Keyword.tail, List.mem_cons, List.not_mem_nil, or_false] at mem
  · rcases mem with rfl | rfl | rfl <;> decide
  · rcases mem with rfl | rfl | rfl <;> decide
  · rcases mem with rfl | rfl | rfl | rfl <;> decide

theorem stepValue_whole (h : m.unfinished = .nothing) (byte : UInt8) :
    (m.stepValue byte).Whole := by
  have opened : ∀ frame, (m.openContainer frame).unfinished.Whole := fun _ =>
    whole_of_nothing (m.unfinished_valueStarted.trans h)
  rw [stepValue]
  split_ifs
  · exact opened _
  · exact opened _
  · rfl
  · cases Number.Phase.start? byte with
    | some phase => trivial
    | none =>
      cases Keyword.ofHead? byte with
      | some word => exact ascii_tail word
      | none => exact fun same => by contradiction

theorem stepStructure_whole (h : m.unfinished = .nothing) (byte : UInt8) :
    (m.stepStructure byte).Whole := by
  have stay : m.unfinished.Whole := whole_of_nothing h
  have closed : ∀ outer, (m.closeContainer outer).unfinished.Whole := fun outer =>
    whole_of_nothing ((unfinished_valueCompleted { m with frames := outer }).trans h)
  simp only [stepStructure, stepArray, stepObject]
  repeat' split
  all_goals first
    | exact stepValue_whole h byte
    | exact closed _
    | exact stay
    | rfl
    | exact fun same => by contradiction

theorem stepKeyword_whole {missing : Bytes} (h : Ascii missing) (word : Keyword) (byte : UInt8) :
    (m.stepKeyword word missing byte).Whole := by
  cases missing with
  | cons expected missing =>
    rw [stepKeyword]
    split_ifs
    · exact (ascii_cons_iff.1 h).2
    · exact fun same => by contradiction
  | nil =>
    rw [stepKeyword]
    split_ifs
    · exact m.whole_endScalar
    · exact fun same => by contradiction

theorem endNumber_legal {phase : Number.Phase} {literal : Bytes} (spelled : phase.Spelled literal)
    (complete : phase.isComplete = true) :
    m.endNumber (Number.marked literal) literal ≠ .error .illegalUnicode := by
  have number := spelled.numberText complete
  obtain ⟨text, rfl⟩ := number.exists_text
  rw [endNumber, Utf8.text?_bytes]
  dsimp only
  rw [ofLiteral_marked]
  cases read : Token.ofLiteral m.options false text with
  | ok token => exact fun same => by contradiction
  | error code =>
    obtain ⟨rfl, -⟩ := (ReaderOptions.ofLiteral_eq_error_iff number).1 read
    intro same
    cases same

theorem stepNumber_whole {phase : Number.Phase} {literal : Bytes}
    (spelled : phase.Spelled literal) (byte : UInt8) :
    (m.stepNumber phase (Number.marked literal) literal byte).Whole := by
  rw [stepNumber]
  cases phase.next? byte with
  | some next => trivial
  | none =>
    dsimp only
    split_ifs with incomplete
    · exact fun same => by contradiction
    · have complete : phase.isComplete = true := by simpa using incomplete
      have legal := endNumber_legal (m := m) spelled complete
      cases ended : m.endNumber (Number.marked literal) literal with
      | error code =>
        intro same
        rw [ended, same] at legal
        exact legal rfl
      | ok done =>
        obtain ⟨same, -⟩ := endNumber_eq_ok ended
        show done.2.unfinished.Whole
        rw [same]
        exact m.whole_endScalar
    · exact fun same => by contradiction

theorem stepText_whole (latin1 : m.options.encoding = .latin1) {content : Bytes}
    (text : ∃ chars, content = Utf8.encode chars) (byte : UInt8) :
    (m.stepText .boundary content byte).Whole := by
  rw [stepText]
  split_ifs with open_ quote
  · exact absurd rfl open_
  · obtain ⟨chars, rfl⟩ := text
    rw [endString, text?_encode]
    exact m.whole_endScalar
  · trivial
  · exact fun same => by contradiction
  · rfl
  · rw [latin1]
    rfl

theorem stepEscape_whole (state : EscapeState) (content : Bytes) (byte : UInt8) :
    (m.stepEscape state content byte).Whole := by
  simp only [stepEscape, pushEscaped]
  repeat' split
  all_goals first
    | trivial
    | rfl
    | exact fun same => by contradiction

/-- **Bytes that are characters open no sequence**, and none of them is malformed. -/
theorem step_whole (latin1 : m.options.encoding = .latin1) (viable : m.Viable)
    (h : m.unfinished.Whole) (byte : UInt8) : (m.step byte).Whole := by
  have viable := viable.unfinished
  rw [step]
  cases unfinished : m.unfinished with
  | nothing => exact stepStructure_whole unfinished byte
  | keyword word missing =>
    rw [unfinished] at h
    exact stepKeyword_whole h word byte
  | number phase fractional literal =>
    rw [unfinished] at viable
    obtain ⟨spelled, rfl⟩ := viable
    exact stepNumber_whole spelled byte
  | text utf8 content =>
    rw [unfinished] at h viable
    cases (show utf8 = .boundary from h)
    exact stepText_whole latin1 (Utf8.State.continues_boundary_iff.1 viable) byte
  | escape state content => exact stepEscape_whole state content byte

theorem refuse_legal (m : Machine) (p : Position) :
    (m.refuse p .unexpectedEnd).failure ≠ some .illegalUnicode := by
  intro same
  cases same

theorem finish_legal (viable : m.Viable) (p : Position) :
    (m.finish p).failure ≠ some .illegalUnicode := by
  have documentEnd : ∀ next : Machine, (next.documentEnd p).failure ≠ some .illegalUnicode := by
    intro next
    rw [Machine.documentEnd]
    split_ifs
    · exact (Option.some_ne_none _).symm
    · exact next.refuse_legal p
  have viable := viable.unfinished
  rw [finish]
  cases unfinished : m.unfinished with
  | nothing => exact documentEnd m
  | keyword word missing =>
    cases missing with
    | nil => exact documentEnd m.endScalar
    | cons => exact m.refuse_legal p
  | number phase fractional literal =>
    rw [unfinished] at viable
    obtain ⟨spelled, rfl⟩ := viable
    dsimp only
    split_ifs with complete
    · have legal := endNumber_legal (m := m) spelled complete
      cases ended : m.endNumber (Number.marked literal) literal with
      | error code =>
        intro same
        cases same
        exact legal ended
      | ok done => exact documentEnd done.2
    · exact m.refuse_legal p
  | text => exact m.refuse_legal p
  | escape => exact m.refuse_legal p

end Machine

end JsonStream
