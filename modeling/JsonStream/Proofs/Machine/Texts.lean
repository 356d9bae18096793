import JsonStream.Proofs.Machine.Viable

/-!
# Texts of complete scalars

A scalar may end where its bytes are text: a number in a complete phase, a string outside sequences
and escapes. So the text of a token is the encoding of what has been read, and no scalar is refused
for its bytes once it is complete. A malformed byte is refused when it comes, by the check of its
sequence.

* `Reader.exists_scalarText`: a scalar that may end is text.
* `Reader.step_reports`, `Reader.handsOut_atEnd`: the text of a token is that of the scalar in
  progress.
* `Reader.Decodes.step_malformed`, `Reader.Decodes.atEnd_legal`: what is refused as malformed.
-/

namespace JsonStream

/-- The text that a token hands out. -/
def Token.text? : Token → Option String
  | .string text | .key text | .number (.text text) => some text
  | _ => none

namespace Token

theorem text?_of_ofLiteral {options : ReaderOptions} {fractional : Bool} {literal text : String}
    {token : Token} (h : ofLiteral options fractional literal = .ok token)
    (handed : token.text? = some text) : literal = text := by
  unfold ofLiteral at h
  dsimp only at h
  repeat' split at h
  all_goals first
    | contradiction
    | (cases h; contradiction)
    | (cases h; exact Option.some.inj handed)

theorem ofLiteral_legal (options : ReaderOptions) (fractional : Bool) (literal : String) :
    ofLiteral options fractional literal ≠ .error .illegalUnicode := by
  intro h
  unfold ofLiteral at h
  dsimp only at h
  repeat' split at h
  all_goals contradiction

theorem text?_ofKeyword (word : Keyword) : (ofKeyword word).text? = none := by
  cases word <;> rfl

end Token

namespace Lexeme

/-- The segment of the scalar in progress. -/
def segment? : Lexeme → Option Segment
  | .number _ _ segment | .text _ segment => some segment
  | .none | .keyword .. | .escape _ => .none

/-- The segment of a scalar that may end here: of a number in a complete phase, of a string outside
sequences and escapes. -/
def complete? : Lexeme → Option Segment
  | .number phase _ segment => if phase.isComplete then some segment else .none
  | .text .boundary segment => some segment
  | _ => .none

end Lexeme

/-! ### Scalars that may end -/

namespace Reader

variable {r next : Reader} {rest : Bytes} {token : Token} {segment : Segment}

/-- The text of a scalar is the one that its bytes encode. -/
theorem scalarText_eq_ok_iff {text : String} :
    r.scalarText segment = .ok text ↔ Utf8.bytes text = r.scalarBytes segment := by
  constructor
  · intro h
    rw [scalarText] at h
    split at h
    · rename_i decoded
      cases h
      exact (Utf8.text?_eq_some_iff.1 decoded).symm
    · contradiction
  · intro same
    rw [scalarText, ← same, Utf8.text?_bytes]

/-- **A scalar that may end is text**, so that none is refused for its bytes when it does. -/
theorem exists_scalarText (aligned : r.Aligned rest) (viable : r.machine.Viable)
    (complete : r.lexeme.complete? = some segment) : ∃ text, r.scalarText segment = .ok text := by
  have viable : (r.lexeme.unfinished r.carried).Viable := viable.unfinished
  rw [Aligned] at aligned
  cases lexeme : r.lexeme with
  | number phase fractional _ =>
    rw [lexeme] at complete aligned viable
    rw [Lexeme.complete?] at complete
    split_ifs at complete with ends
    cases complete
    obtain ⟨text, same⟩ := (viable.1.numberText ends).exists_text
    refine ⟨text, scalarText_eq_ok_iff.2 ?_⟩
    rw [scalarBytes_eq aligned, same]
  | text utf8 _ =>
    rw [lexeme] at complete aligned viable
    cases utf8 with
    | boundary =>
      cases complete
      obtain ⟨chars, same⟩ := Utf8.State.continues_boundary_iff.1 viable
      refine ⟨String.ofList chars, scalarText_eq_ok_iff.2 ?_⟩
      rw [scalarBytes_eq aligned, same, Utf8.bytes, String.toList_ofList]
    | _ => contradiction
  | none | keyword | escape =>
    rw [lexeme] at complete
    contradiction

/-! ### What is handed out -/

/-- The text of the token, if it has one, is that of the scalar in progress, which may end here. -/
def HandsOut (r : Reader) (token : Token) : Prop :=
  ∀ text, token.text? = some text →
    ∃ segment, r.lexeme.complete? = some segment ∧ r.scalarText segment = .ok text

theorem handsOut_of_text?_eq_none (h : token.text? = none) : r.HandsOut token := by
  intro text handed
  rw [h] at handed
  contradiction

/-- A complete number hands out its literal, if anything. -/
theorem handsOut_endNumber {fractional : Bool} (complete : r.lexeme.complete? = some segment)
    (h : r.endNumber fractional segment = .ok (token, next)) : r.HandsOut token := by
  obtain ⟨-, literal, decoded, read⟩ := endNumber_eq_ok h
  intro text handed
  obtain rfl := Token.text?_of_ofLiteral read handed
  exact ⟨segment, complete, decoded⟩

theorem handsOut_endString (complete : r.lexeme.complete? = some segment)
    (h : r.endString segment = .ok (token, next)) : r.HandsOut token := by
  obtain ⟨-, content, decoded, rfl⟩ := endString_eq_ok h
  intro text handed
  have same : content = text := by
    split at handed <;> exact Option.some.inj handed
  exact ⟨segment, complete, same ▸ decoded⟩

end Reader

/-- What holds of the token that a step reports. -/
def Step.Reports {σ : Type} (P : Token → Prop) : Step σ → Prop
  | .emit token _ | .emitBefore token _ => P token
  | .advance _ | .fail _ => True

namespace Reader

variable {r next : Reader} {byte : UInt8} {rest : Bytes} {token : Token} {segment : Segment}

theorem stepStructure_reports (r : Reader) (byte : UInt8) (rest : Bytes) :
    (r.stepStructure byte rest).Reports r.HandsOut := by
  have closing : ∀ frame : Frame, frame.closing.text? = none := fun frame => by
    cases frame <;> rfl
  simp only [stepStructure, stepArray, stepObject, stepValue, close]
  repeat' split
  all_goals first
    | exact handsOut_of_text?_eq_none rfl
    | exact handsOut_of_text?_eq_none (closing _)
    | trivial

/-- **The text of a token is that of the scalar which the byte completes.** -/
theorem step_reports (r : Reader) (byte : UInt8) (rest : Bytes) :
    (r.step byte rest).Reports r.HandsOut := by
  rw [step]
  cases lexeme : r.lexeme with
  | none => exact r.stepStructure_reports byte rest
  | keyword word missing =>
    have word := handsOut_of_text?_eq_none (r := r) (Token.text?_ofKeyword word)
    simp only [stepKeyword]
    repeat' split
    all_goals first
      | exact word
      | trivial
  | number phase fractional segment =>
    dsimp only
    rw [stepNumber]
    cases phase.next? byte with
    | some next => trivial
    | none =>
      dsimp only
      split_ifs with incomplete ends
      · trivial
      · have complete : r.lexeme.complete? = some segment := by
          rw [lexeme]
          exact if_pos (by simpa using incomplete)
        cases ended : r.endNumber fractional segment with
        | error code => trivial
        | ok done => exact handsOut_endNumber complete ended
      · trivial
  | text utf8 segment =>
    dsimp only
    rw [stepText, stepUtf8]
    split_ifs with sequence
    · cases utf8.step? byte <;> trivial
    · have complete : r.lexeme.complete? = some segment := by
        rw [lexeme, Classical.not_not.1 sequence]
        rfl
      cases ended : r.endString segment with
      | error code => trivial
      | ok done => exact handsOut_endString complete ended
    · trivial
    · trivial
    · trivial
    · cases r.options.encoding with
      | utf8 => cases utf8.step? byte <;> trivial
      | latin1 => trivial
  | escape state =>
    simp only [stepEscape, pushEscaped]
    repeat' split
    all_goals trivial

/-- The end of input completes a number as a byte does. -/
theorem handsOut_atEnd (h : r.atEnd = .ok (token, next)) : r.HandsOut token := by
  rw [atEnd] at h
  cases lexeme : r.lexeme with
  | none =>
    rw [lexeme] at h
    dsimp only at h
    split_ifs at h
    cases h
    exact handsOut_of_text?_eq_none rfl
  | keyword word missing =>
    rw [lexeme] at h
    cases missing with
    | nil =>
      cases h
      exact handsOut_of_text?_eq_none (Token.text?_ofKeyword word)
    | cons => contradiction
  | number phase fractional segment =>
    rw [lexeme] at h
    dsimp only at h
    split_ifs at h with ends
    refine handsOut_endNumber ?_ h
    rw [lexeme]
    exact if_pos ends
  | text | escape =>
    rw [lexeme] at h
    contradiction

/-! ### What is refused as malformed -/

/-- Every scalar that may end is text. -/
def Decodes (r : Reader) : Prop :=
  ∀ segment, r.lexeme.complete? = some segment → ∃ text, r.scalarText segment = .ok text

/-- The byte is refused by the check of the sequence that it would continue or start. -/
def Malformed (r : Reader) (byte : UInt8) : Prop :=
  ∃ utf8 segment, r.lexeme = .text utf8 segment ∧ utf8.step? byte = none

theorem Decodes.endNumber_legal (h : r.Decodes) (complete : r.lexeme.complete? = some segment)
    (fractional : Bool) : r.endNumber fractional segment ≠ .error .illegalUnicode := by
  obtain ⟨text, decoded⟩ := h segment complete
  intro refused
  simp only [endNumber, decoded, bind, Except.bind, pure, Except.pure] at refused
  split at refused
  · cases refused
    exact Token.ofLiteral_legal r.options fractional text ‹_›
  · contradiction

theorem Decodes.endString_legal (h : r.Decodes) (complete : r.lexeme.complete? = some segment)
    (code : ErrorCode) : r.endString segment ≠ .error code := by
  obtain ⟨text, decoded⟩ := h segment complete
  intro refused
  simp only [endString, decoded, bind, Except.bind, pure, Except.pure] at refused
  contradiction

end Reader

/-- What holds if a step refuses its byte as malformed. -/
def Step.IfMalformed {σ : Type} (P : Prop) : Step σ → Prop
  | .fail code => code = .illegalUnicode → P
  | .advance _ | .emit .. | .emitBefore .. => True

namespace Reader

variable {r next : Reader} {byte : UInt8} {rest : Bytes} {token : Token} {segment : Segment}

theorem stepUtf8_malformed {utf8 : Utf8.State} (lexeme : r.lexeme = .text utf8 segment) :
    (r.stepUtf8 utf8 segment byte).IfMalformed (r.Malformed byte) := by
  rw [stepUtf8]
  cases next : utf8.step? byte with
  | some next => trivial
  | none => exact fun _ => ⟨utf8, segment, lexeme, next⟩

theorem Decodes.stepNumber_malformed {phase : Number.Phase} {fractional : Bool}
    (h : r.Decodes) (lexeme : r.lexeme = .number phase fractional segment) (P : Prop) :
    (r.stepNumber phase fractional segment byte).IfMalformed P := by
  rw [stepNumber]
  cases phase.next? byte with
  | some next => trivial
  | none =>
    dsimp only
    split_ifs with incomplete
    · exact fun same => by contradiction
    · have complete : r.lexeme.complete? = some segment := by
        rw [lexeme]
        exact if_pos (by simpa using incomplete)
      have legal := h.endNumber_legal complete fractional
      cases ended : r.endNumber fractional segment with
      | ok done => trivial
      | error code =>
        rintro rfl
        exact absurd ended legal
    · exact fun same => by contradiction

theorem Decodes.stepText_malformed {utf8 : Utf8.State} (h : r.Decodes)
    (lexeme : r.lexeme = .text utf8 segment) :
    (r.stepText utf8 segment byte rest).IfMalformed (r.Malformed byte) := by
  rw [stepText]
  split_ifs with sequence
  · exact stepUtf8_malformed lexeme
  · have complete : r.lexeme.complete? = some segment := by
      rw [lexeme, Classical.not_not.1 sequence]
      rfl
    cases ended : r.endString segment with
    | ok done => trivial
    | error code => exact absurd ended (h.endString_legal complete code)
  · trivial
  · exact fun same => by contradiction
  · trivial
  · cases r.options.encoding with
    | utf8 => exact stepUtf8_malformed lexeme
    | latin1 => trivial

/-- **Only the check of a sequence refuses a byte as malformed.** -/
theorem Decodes.step_malformed (h : r.Decodes) (byte : UInt8) (rest : Bytes) :
    (r.step byte rest).IfMalformed (r.Malformed byte) := by
  rw [step]
  cases lexeme : r.lexeme with
  | none =>
    simp only [stepStructure, stepArray, stepObject, stepValue, close]
    repeat' split
    all_goals first
      | trivial
      | exact fun same => by contradiction
  | keyword word missing =>
    simp only [stepKeyword]
    repeat' split
    all_goals first
      | trivial
      | exact fun same => by contradiction
  | number phase fractional segment => exact h.stepNumber_malformed lexeme _
  | text utf8 segment => exact h.stepText_malformed lexeme
  | escape state =>
    simp only [stepEscape, pushEscaped]
    repeat' split
    all_goals first
      | trivial
      | exact fun same => by contradiction

/-- The end of input refuses nothing as malformed. -/
theorem Decodes.atEnd_legal (h : r.Decodes) : r.atEnd ≠ .error .illegalUnicode := by
  intro refused
  rw [atEnd] at refused
  cases lexeme : r.lexeme with
  | none =>
    rw [lexeme] at refused
    dsimp only at refused
    split_ifs at refused
    cases refused
  | keyword word missing =>
    rw [lexeme] at refused
    cases missing <;> cases refused
  | number phase fractional segment =>
    rw [lexeme] at refused
    dsimp only at refused
    split_ifs at refused with ends
    · refine h.endNumber_legal ?_ fractional refused
      rw [lexeme]
      exact if_pos ends
    · cases refused
  | text | escape =>
    rw [lexeme] at refused
    cases refused

end Reader

end JsonStream
