import JsonStream.Reader.Basic

/-!
# One byte at a time

Each unread byte either advances the reader, completes a token, ends a scalar that it does not
belong to, or is refused. The position moves with the bytes that are taken and in no other way, so
every refusal is reported at the offending byte. The last section says what the end of input
completes.
-/

namespace JsonStream

/-- What an unread byte does to a reader, or to any other state of type `σ`. -/
inductive Step (σ : Type) where
  /-- The byte is taken, and nothing is reported. -/
  | advance (next : σ)
  /-- The byte is taken and completes a token. -/
  | emit (token : Token) (next : σ)
  /-- The byte is left: the scalar before it is complete. -/
  | emitBefore (token : Token) (next : σ)
  /-- The byte cannot stand here. -/
  | fail (code : ErrorCode)
deriving Repr

/-- The token at the end of a container. -/
def Frame.closing : Frame → Token
  | .array _ => .endArray
  | .object _ => .endObject

namespace Reader

/-! ### Values -/

/-- Opens a container. -/
def openContainer (r : Reader) (frame : Frame) : Reader :=
  { r.valueStarted with frames := frame :: r.valueStarted.frames }

/-- Closes the innermost container, the one inside `outer`. -/
def closeContainer (r : Reader) (outer : List Frame) : Reader :=
  { r with frames := outer }.valueCompleted

/-- Takes a closing bracket. It closes the innermost container, whatever kind that is, and is refused
if there is none. -/
def close (r : Reader) : Step Reader :=
  match r.frames with
  | [] => .fail .stackEmpty
  | frame :: outer => .emit frame.closing (r.closeContainer outer)

/-- Starts a string whose first byte is that of `rest`. -/
def beginString (r : Reader) (rest : Bytes) : Reader :=
  { r.valueStarted with carry := [], lexeme := .text .boundary { start := rest } }

/-- Starts a number with `byte`. -/
def beginNumber (r : Reader) (phase : Number.Phase) (byte : UInt8) (rest : Bytes) : Reader :=
  { r.valueStarted with
    carry := []
    lexeme := .number phase false { start := byte :: rest, length := 1 } }

/-- Starts a keyword. -/
def beginKeyword (r : Reader) (keyword : Keyword) : Reader :=
  { r.valueStarted with lexeme := .keyword keyword keyword.tail }

/-- A byte where a value is due. -/
def stepValue (r : Reader) (byte : UInt8) (rest : Bytes) : Step Reader :=
  if byte = Byte.openBracket then .emit .beginArray (r.openContainer (.array .first))
  else if byte = Byte.openBrace then .emit .beginObject (r.openContainer (.object .first))
  else if byte = Byte.quote then .advance (r.beginString rest)
  else match Number.Phase.start? byte with
    | some phase => .advance (r.beginNumber phase byte rest)
    | none =>
      match Keyword.ofHead? byte with
      | some keyword => .advance (r.beginKeyword keyword)
      | none => .fail .unexpectedCharacter

/-- A byte inside an array, between tokens. -/
def stepArray (r : Reader) (slot : ArraySlot) (outer : List Frame) (byte : UInt8) (rest : Bytes) :
    Step Reader :=
  match slot with
  | .first =>
    if byte = Byte.closeBracket then r.close
    else r.stepValue byte rest
  | .value => r.stepValue byte rest
  | .separator =>
    if byte = Byte.comma then .advance { r with frames := .array .value :: outer }
    else if byte = Byte.closeBracket then r.close
    else .fail .expectedCommaOrArrayEnd

/-- A byte inside an object, between tokens. -/
def stepObject (r : Reader) (slot : ObjectSlot) (outer : List Frame) (byte : UInt8)
    (rest : Bytes) : Step Reader :=
  match slot with
  | .first =>
    if byte = Byte.quote then .advance (r.beginString rest)
    else if byte = Byte.closeBrace then r.close
    else .fail .expectedString
  | .key =>
    if byte = Byte.quote then .advance (r.beginString rest)
    else .fail .expectedString
  | .colon =>
    if byte = Byte.colon then .advance { r with frames := .object .value :: outer }
    else .fail .expectedColon
  | .value => r.stepValue byte rest
  | .separator =>
    if byte = Byte.comma then .advance { r with frames := .object .key :: outer }
    else if byte = Byte.closeBrace then r.close
    else .fail .expectedCommaOrObjectEnd

/-- A byte between tokens. -/
def stepStructure (r : Reader) (byte : UInt8) (rest : Bytes) : Step Reader :=
  if Byte.isWhitespace byte then .advance r
  else match r.frames with
    | .array slot :: outer => r.stepArray slot outer byte rest
    | .object slot :: outer => r.stepObject slot outer byte rest
    | [] =>
      match r.root with
      | .value => r.stepValue byte rest
      | .afterValue | .done => .fail .unexpectedCharacter

/-! ### Keywords -/

/-- The reader after a complete scalar. -/
def endScalar (r : Reader) : Reader :=
  { r with lexeme := .none }.valueCompleted

/-- A byte inside or right after a keyword. -/
def stepKeyword (r : Reader) (keyword : Keyword) (missing : Bytes) (byte : UInt8) : Step Reader :=
  match missing with
  | expected :: missing =>
    if byte = expected then .advance { r with lexeme := .keyword keyword missing }
    else .fail .unexpectedCharacter
  | [] =>
    if Byte.endsScalar byte then .emitBefore (.ofKeyword keyword) r.endScalar
    else .fail .unexpectedCharacter

/-! ### Numbers -/

/-- Completes the number of which `segment` is the raw part. -/
def endNumber (r : Reader) (fractional : Bool) (segment : Segment) :
    Except ErrorCode (Token × Reader) := do
  let literal ← r.scalarText segment
  let token ← Token.ofLiteral r.options fractional literal
  return (token, r.endScalar)

/-- A complete number is what the options make of its text. -/
theorem endNumber_eq_ok {r next : Reader} {fractional : Bool} {segment : Segment} {token : Token}
    (h : r.endNumber fractional segment = .ok (token, next)) :
    next = r.endScalar ∧ ∃ text, r.scalarText segment = .ok text ∧
      Token.ofLiteral r.options fractional text = .ok token := by
  simp only [endNumber, bind, Except.bind, pure, Except.pure] at h
  split at h
  · contradiction
  · split at h
    · contradiction
    · cases h
      exact ⟨rfl, _, ‹_›, ‹_›⟩

/-- A byte inside or right after a number. -/
def stepNumber (r : Reader) (phase : Number.Phase) (fractional : Bool) (segment : Segment)
    (byte : UInt8) : Step Reader :=
  match phase.next? byte with
  | some next =>
    .advance { r with lexeme := .number next (fractional || next.isMark) segment.extend }
  | none =>
    if !phase.isComplete then .fail .expectedDigit
    else if Byte.endsScalar byte then
      match r.endNumber fractional segment with
      | .ok (token, next) => .emitBefore token next
      | .error code => .fail code
    else .fail .unexpectedCharacter

/-! ### Strings -/

/-- Carries the raw bytes of a segment over. -/
def spill (r : Reader) (segment : Segment) : Reader :=
  r.carryOver segment.raw

/-- Adds a decoded character and goes on with the raw bytes of `rest`. -/
def pushChar (r : Reader) (c : Char) (rest : Bytes) : Reader :=
  { r.carryOver (String.utf8EncodeChar c) with lexeme := .text .boundary (.resume rest) }

/-- Completes the string of which `segment` is the raw part. -/
def endString (r : Reader) (segment : Segment) : Except ErrorCode (Token × Reader) := do
  let text ← r.scalarText segment
  return (if r.takesKey then .key text else .string text, r.endScalar)

/-- A complete string is reported with its role. -/
theorem endString_eq_ok {r next : Reader} {segment : Segment} {token : Token}
    (h : r.endString segment = .ok (token, next)) :
    next = r.endScalar ∧ ∃ text, r.scalarText segment = .ok text ∧
      token = if r.takesKey then .key text else .string text := by
  simp only [endString, bind, Except.bind, pure, Except.pure] at h
  split at h
  · contradiction
  · cases h
    exact ⟨rfl, _, ‹_›, rfl⟩

/-- A byte of a string that has to continue or to start a UTF-8 sequence. -/
def stepUtf8 (r : Reader) (utf8 : Utf8.State) (segment : Segment) (byte : UInt8) : Step Reader :=
  match utf8.step? byte with
  | some next => .advance { r with lexeme := .text next segment.extend }
  | none => .fail .illegalUnicode

/-- A byte of a string, outside escapes. -/
def stepText (r : Reader) (utf8 : Utf8.State) (segment : Segment) (byte : UInt8) (rest : Bytes) :
    Step Reader :=
  if utf8 ≠ .boundary then r.stepUtf8 utf8 segment byte
  else if byte = Byte.quote then
    match r.endString segment with
    | .ok (token, next) => .emit token next
    | .error code => .fail code
  else if byte = Byte.backslash then .advance { r.spill segment with lexeme := .escape .start }
  else if byte < Byte.space then .fail .unexpectedCharacter
  else if byte < 0x80 then .advance { r with lexeme := .text utf8 segment.extend }
  else match r.options.encoding with
    | .utf8 => r.stepUtf8 utf8 segment byte
    | .latin1 => .advance ((r.spill segment).pushChar (Latin1.char byte) rest)

/-- The reader inside an escape. -/
def inEscape (r : Reader) (state : EscapeState) : Reader :=
  { r with lexeme := .escape state }

/-- Adds the character of an escape, if its code unit or units name one. -/
def pushEscaped (r : Reader) (c : Option Char) (rest : Bytes) : Step Reader :=
  match c with
  | some c => .advance (r.pushChar c rest)
  | none => .fail .numericRange

/-- A byte of a string, inside an escape. -/
def stepEscape (r : Reader) (state : EscapeState) (byte : UInt8) (rest : Bytes) : Step Reader :=
  match state with
  | .start =>
    if byte = Byte.lowerU then .advance (r.inEscape (.unit {}))
    else match Escape.short? byte with
      | some c => .advance (r.pushChar c rest)
      | none => .fail .illegalEscape
  | .unit digits =>
    match digits.push? byte with
    | none => .fail .expectedHexDigit
    | some digits =>
      match digits.unit? with
      | none => .advance (r.inEscape (.unit digits))
      | some unit =>
        if Utf16.isHighSurrogate unit then .advance (r.inEscape (.needBackslash unit))
        else r.pushEscaped (Utf16.char? unit) rest
  | .needBackslash high =>
    if byte = Byte.backslash then .advance (r.inEscape (.needMark high)) else .fail .numericRange
  | .needMark high =>
    if byte = Byte.lowerU then .advance (r.inEscape (.secondUnit high {})) else .fail .numericRange
  | .secondUnit high digits =>
    match digits.push? byte with
    | none => .fail .expectedHexDigit
    | some digits =>
      match digits.unit? with
      | none => .advance (r.inEscape (.secondUnit high digits))
      | some low => r.pushEscaped (Utf16.pairChar? high low) rest

/-! ### Any byte, the end of a chunk and the end of input -/

/-- The next unread byte, with `rest` after it. -/
def step (r : Reader) (byte : UInt8) (rest : Bytes) : Step Reader :=
  match r.lexeme with
  | .none => r.stepStructure byte rest
  | .keyword keyword missing => r.stepKeyword keyword missing byte
  | .number phase fractional segment => r.stepNumber phase fractional segment byte
  | .text utf8 segment => r.stepText utf8 segment byte rest
  | .escape state => r.stepEscape state byte rest

/-- The end of a chunk that is not the end of input: raw bytes are carried over. -/
def suspend (r : Reader) : Reader :=
  match r.lexeme with
  | .number phase fractional segment =>
    { r.spill segment with lexeme := .number phase fractional (.resume []) }
  | .text utf8 segment => { r.spill segment with lexeme := .text utf8 (.resume []) }
  | _ => r

/-- The end of input: it completes a scalar that may end here, or else the document. -/
def atEnd (r : Reader) : Except ErrorCode (Token × Reader) :=
  match r.lexeme with
  | .none =>
    if r.frames = [] ∧ r.root = .afterValue then .ok (.done, { r with root := .done })
    else .error .unexpectedEnd
  | .keyword keyword [] => .ok (Token.ofKeyword keyword, r.endScalar)
  | .number phase fractional segment =>
    if phase.isComplete then r.endNumber fractional segment else .error .unexpectedEnd
  | .keyword .. | .text .. | .escape .. => .error .unexpectedEnd

end Reader

end JsonStream
