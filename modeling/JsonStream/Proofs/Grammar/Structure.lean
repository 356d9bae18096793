import JsonStream.Proofs.Grammar.Strings

/-!
# Between tokens

Between tokens a machine is given by its open containers. This module says what one byte does there:
what starts a value, a key or a container, what separates, and what closes.

* `Machine.between`, `Machine.past`: the machine between tokens, and after a complete value.
* `Machine.stepValue_cases`: the ways a value may start.
-/

namespace JsonStream

namespace Machine

/-- The machine between tokens, inside the given containers. -/
def between (options : ReaderOptions) (frames : List Frame) : Machine :=
  { options, frames }

/-- The machine after a complete value or key inside the given containers. -/
def past (options : ReaderOptions) : List Frame → Machine
  | [] => { options, root := .afterValue }
  | frame :: outer => between options (frame.completed :: outer)

/-- The containers once a value or key has started in the innermost one. -/
def started : List Frame → List Frame
  | [] => []
  | frame :: outer => frame.started :: outer

/-- A value may come next. -/
def TakesValue : List Frame → Prop
  | [] | .array .first :: _ | .array .value :: _ | .object .value :: _ => True
  | .array .separator :: _ | .object .first :: _ | .object .key :: _ | .object .colon :: _
  | .object .separator :: _ => False

section
variable {options : ReaderOptions} {frames outer : List Frame} {byte : UInt8} {rest : Bytes}

theorem past_started (options : ReaderOptions) (frames : List Frame) :
    past options (started frames) = past options frames := by
  rcases frames with _ | ⟨⟨_ | _ | _⟩ | ⟨_ | _ | _ | _ | _⟩, outer⟩ <;> rfl

theorem endScalar_started (options : ReaderOptions) (frames : List Frame) :
    (between options (started frames)).endScalar = past options frames := by
  rcases frames with _ | ⟨⟨_ | _ | _⟩ | ⟨_ | _ | _ | _ | _⟩, outer⟩ <;> rfl

theorem stringToken_started (takes : TakesValue frames) (text : String) :
    (between options (started frames)).stringToken text = .string text := by
  rcases frames with _ | ⟨⟨_ | _ | _⟩ | ⟨_ | _ | _ | _ | _⟩, outer⟩ <;>
    first | rfl | exact absurd takes id

theorem begin_between (unfinished : Unfinished) :
    (between options frames).begin unfinished =
      (between options (started frames)).goOn unfinished := by
  cases frames <;> rfl

theorem openContainer_between (frame : Frame) :
    (between options frames).openContainer frame =
      between options (frame :: started frames) := by
  cases frames <;> rfl

theorem closeContainer_between (frames outer : List Frame) :
    (between options frames).closeContainer outer = past options outer := by
  cases outer <;> rfl

/-! ### Values -/

theorem step_between (space : Byte.isWhitespace byte = false) :
    (between options frames).step byte =
      match frames with
      | .array slot :: outer => (between options frames).stepArray slot outer byte
      | .object slot :: outer => (between options frames).stepObject slot outer byte
      | [] => (between options frames).stepValue byte :=
  if_neg (Bool.eq_false_iff.1 space)

/-- Where a value is due, any byte that is neither white space nor a closing bracket starts one. -/
theorem step_takesValue (options : ReaderOptions) (takes : TakesValue frames)
    (space : Byte.isWhitespace byte = false) (close : byte ≠ Byte.closeBracket) :
    (between options frames).step byte = (between options frames).stepValue byte := by
  rw [step_between space]
  rcases frames with _ | ⟨⟨_ | _ | _⟩ | ⟨_ | _ | _ | _ | _⟩, outer⟩
  case cons.array.first => exact if_neg close
  all_goals first
    | rfl
    | exact absurd takes id

/-- Inside an array, any byte starts a value but white space and a bracket that closes it. -/
theorem step_element {slot : ArraySlot} (h : slot ≠ .separator)
    (space : Byte.isWhitespace byte = false) (other : slot = .first → byte ≠ Byte.closeBracket) :
    (between options (.array slot :: outer)).step byte =
      (between options (.array slot :: outer)).stepValue byte := by
  rw [step_between space]
  cases slot with
  | first => exact if_neg (other rfl)
  | value => rfl
  | separator => exact absurd rfl h

theorem takesValue_array {slot : ArraySlot} (h : slot ≠ .separator) (outer : List Frame) :
    TakesValue (.array slot :: outer) := by
  cases slot with
  | first => trivial
  | value => trivial
  | separator => exact absurd rfl h

theorem stepValue_openBracket :
    (between options frames).stepValue Byte.openBracket =
      .emit .beginArray (between options (.array .first :: started frames)) := by
  rw [← openContainer_between]
  rfl

theorem stepValue_openBrace :
    (between options frames).stepValue Byte.openBrace =
      .emit .beginObject (between options (.object .first :: started frames)) := by
  rw [← openContainer_between]
  rfl

theorem stepValue_quote :
    (between options frames).stepValue Byte.quote =
      .advance ((between options (started frames)).inText []) := by
  rw [inText]
  rw [← begin_between]
  rfl

/-- A digit or a minus sign starts a number. -/
theorem stepValue_start (m : Machine) {phase : Number.Phase}
    (start : Number.Phase.start? byte = some phase) :
    m.stepValue byte = .advance (m.valueStarted.inNumber phase [byte]) := by
  have bracket : byte ≠ Byte.openBracket := by
    intro same
    subst same
    contradiction
  have brace : byte ≠ Byte.openBrace := by
    intro same
    subst same
    contradiction
  have quote : byte ≠ Byte.quote := by
    intro same
    subst same
    contradiction
  have unmarked : Number.marked [byte] = false := by
    rw [Number.marked]
    rw [List.any_cons, Number.Phase.isMarkByte_of_start? start]
    rfl
  rw [stepValue]
  rw [if_neg bracket, if_neg brace, if_neg quote, start]
  dsimp only
  rw [inNumber, unmarked]
  rfl

/-- The first byte of a keyword starts it. -/
theorem stepValue_head (m : Machine) (word : Keyword) :
    m.stepValue word.head = .advance (m.valueStarted.goOn (.keyword word word.tail)) := by
  cases word <;> rfl

theorem valueStarted_between (options : ReaderOptions) (frames : List Frame) :
    (between options frames).valueStarted = between options (started frames) := by
  cases frames <;> rfl

theorem stepValue_number {phase : Number.Phase} (start : Number.Phase.start? byte = some phase) :
    (between options frames).stepValue byte =
      .advance ((between options (started frames)).inNumber phase [byte]) := by
  rw [stepValue_start _ start, valueStarted_between]

theorem stepValue_keyword (word : Keyword) :
    (between options frames).stepValue word.head =
      .advance ((between options (started frames)).goOn (.keyword word word.tail)) := by
  rw [stepValue_head, valueStarted_between]

/-- **The ways a value may start.** -/
theorem stepValue_cases (m : Machine) (byte : UInt8) :
    byte = Byte.openBracket ∨ byte = Byte.openBrace ∨ byte = Byte.quote ∨
      (∃ phase, Number.Phase.start? byte = some phase) ∨ (∃ word : Keyword, byte = word.head) ∨
        m.stepValue byte = .fail .unexpectedCharacter := by
  by_cases bracket : byte = Byte.openBracket
  · exact .inl bracket
  by_cases brace : byte = Byte.openBrace
  · exact .inr (.inl brace)
  by_cases quote : byte = Byte.quote
  · exact .inr (.inr (.inl quote))
  cases start : Number.Phase.start? byte with
  | some phase => exact .inr (.inr (.inr (.inl ⟨phase, rfl⟩)))
  | none =>
    cases head : Keyword.ofHead? byte with
    | some word => exact .inr (.inr (.inr (.inr (.inl ⟨word, Keyword.ofHead?_eq_some_iff.1 head⟩))))
    | none =>
      refine .inr (.inr (.inr (.inr (.inr ?_))))
      rw [stepValue]
      rw [if_neg bracket, if_neg brace, if_neg quote, start, head]

/-! ### Separators and closings -/

theorem tokens?_closeArray {slot : ArraySlot} (h : slot ≠ .value) :
    (between options (.array slot :: outer)).tokens? (Byte.closeBracket :: rest) =
      ((past options outer).tokens? rest).map (.endArray :: ·) := by
  have step : (between options (.array slot :: outer)).step Byte.closeBracket =
      .emit .endArray (past options outer) := by
    rw [← closeContainer_between (.array slot :: outer), step_between (by decide)]
    cases slot with
    | first => rfl
    | value => exact absurd rfl h
    | separator => rfl
  rw [tokens?_emit step]

theorem tokens?_closeObject {slot : ObjectSlot} (h : slot = .first ∨ slot = .separator) :
    (between options (.object slot :: outer)).tokens? (Byte.closeBrace :: rest) =
      ((past options outer).tokens? rest).map (.endObject :: ·) := by
  have step : (between options (.object slot :: outer)).step Byte.closeBrace =
      .emit .endObject (past options outer) := by
    rw [← closeContainer_between (.object slot :: outer), step_between (by decide)]
    rcases h with rfl | rfl <;> rfl
  rw [tokens?_emit step]

theorem tokens?_comma_array :
    (between options (.array .separator :: outer)).tokens? (Byte.comma :: rest) =
      (between options (.array .value :: outer)).tokens? rest := by
  rw [tokens?_cons]
  rfl

theorem tokens?_comma_object :
    (between options (.object .separator :: outer)).tokens? (Byte.comma :: rest) =
      (between options (.object .key :: outer)).tokens? rest := by
  rw [tokens?_cons]
  rfl

theorem tokens?_colon :
    (between options (.object .colon :: outer)).tokens? (Byte.colon :: rest) =
      (between options (.object .value :: outer)).tokens? rest := by
  rw [tokens?_cons]
  rfl

/-- A key starts where an object takes one. -/
theorem tokens?_quote_object {slot : ObjectSlot} (h : slot = .first ∨ slot = .key) :
    (between options (.object slot :: outer)).tokens? (Byte.quote :: rest) =
      ((between options (.object .key :: outer)).inText []).tokens? rest := by
  have step : (between options (.object slot :: outer)).step Byte.quote =
      .advance ((between options (.object .key :: outer)).inText []) := by
    rw [step_between (by decide)]
    rcases h with rfl | rfl <;> rfl
  rw [tokens?_advance step]

end

end Machine

end JsonStream
