import JsonStream.Reader.Next

/-!
# Readers without buffers

What a reader does with a byte depends on the open containers, the scalar in progress and the bytes
of that scalar. It does not depend on which of these bytes have been carried over and which still
lie in a chunk. A `Machine` keeps only the former. It never sees a chunk, so a statement about
machines is a statement about one byte string, however it arrives.

`Machine.step` is `Reader.step` on this state. That a reader steps like its machine is shown where
the machine of a reader is defined.
-/

namespace JsonStream

/-- The scalar in progress with its bytes so far; those of a string are the decoded ones. -/
inductive Unfinished where
  | nothing
  | keyword (keyword : Keyword) (missing : Bytes)
  | number (phase : Number.Phase) (fractional : Bool) (literal : Bytes)
  | text (utf8 : Utf8.State) (content : Bytes)
  | escape (state : EscapeState) (content : Bytes)
deriving Repr, DecidableEq, Inhabited

/-- The state of reading one document, apart from buffers and positions. -/
structure Machine where
  options : ReaderOptions := {}
  frames : List Frame := []
  root : Root := .value
  unfinished : Unfinished := .nothing
deriving Repr, DecidableEq, Inhabited

/-- The same effect on the image of the state. -/
def Step.map {σ τ : Type} (f : σ → τ) : Step σ → Step τ
  | .advance next => .advance (f next)
  | .emit token next => .emit token (f next)
  | .emitBefore token next => .emitBefore token (f next)
  | .fail code => .fail code

namespace Machine

/-! ### Values -/

/-- A value has started: the container around it is not empty. -/
def valueStarted (m : Machine) : Machine :=
  match m.frames with
  | [] => m
  | frame :: outer => { m with frames := frame.started :: outer }

/-- A value or a key is complete: what is around it moves on. -/
def valueCompleted (m : Machine) : Machine :=
  match m.frames with
  | [] => { m with root := .afterValue }
  | frame :: outer => { m with frames := frame.completed :: outer }

/-- Whether a string that is read now is a key. -/
def takesKey (m : Machine) : Bool :=
  match m.frames with
  | [] => false
  | frame :: _ => frame.takesKey

/-- Opens a container. -/
def openContainer (m : Machine) (frame : Frame) : Machine :=
  { m.valueStarted with frames := frame :: m.valueStarted.frames }

/-- Closes the innermost container, the one inside `outer`. -/
def closeContainer (m : Machine) (outer : List Frame) : Machine :=
  { m with frames := outer }.valueCompleted

/-- Starts a scalar. -/
def begin (m : Machine) (unfinished : Unfinished) : Machine :=
  { m.valueStarted with unfinished }

/-- Goes on with a scalar. -/
def goOn (m : Machine) (unfinished : Unfinished) : Machine :=
  { m with unfinished }

/-- The machine after a complete scalar. -/
def endScalar (m : Machine) : Machine :=
  { m with unfinished := .nothing }.valueCompleted

/-- A byte where a value is due. -/
def stepValue (m : Machine) (byte : UInt8) : Step Machine :=
  if byte = Byte.openBracket then .emit .beginArray (m.openContainer (.array .first))
  else if byte = Byte.openBrace then .emit .beginObject (m.openContainer (.object .first))
  else if byte = Byte.quote then .advance (m.begin (.text .boundary []))
  else match Number.Phase.start? byte with
    | some phase => .advance (m.begin (.number phase false [byte]))
    | none =>
      match Keyword.ofHead? byte with
      | some keyword => .advance (m.begin (.keyword keyword keyword.tail))
      | none => .fail .unexpectedCharacter

/-- A byte inside an array, between tokens. -/
def stepArray (m : Machine) (slot : ArraySlot) (outer : List Frame) (byte : UInt8) : Step Machine :=
  match slot with
  | .first =>
    if byte = Byte.closeBracket then .emit .endArray (m.closeContainer outer)
    else m.stepValue byte
  | .value => m.stepValue byte
  | .separator =>
    if byte = Byte.comma then .advance { m with frames := .array .value :: outer }
    else if byte = Byte.closeBracket then .emit .endArray (m.closeContainer outer)
    else .fail .expectedCommaOrArrayEnd

/-- A byte inside an object, between tokens. -/
def stepObject (m : Machine) (slot : ObjectSlot) (outer : List Frame) (byte : UInt8) :
    Step Machine :=
  match slot with
  | .first =>
    if byte = Byte.quote then .advance (m.begin (.text .boundary []))
    else if byte = Byte.closeBrace then .emit .endObject (m.closeContainer outer)
    else .fail .expectedString
  | .key =>
    if byte = Byte.quote then .advance (m.begin (.text .boundary []))
    else .fail .expectedString
  | .colon =>
    if byte = Byte.colon then .advance { m with frames := .object .value :: outer }
    else .fail .expectedColon
  | .value => m.stepValue byte
  | .separator =>
    if byte = Byte.comma then .advance { m with frames := .object .key :: outer }
    else if byte = Byte.closeBrace then .emit .endObject (m.closeContainer outer)
    else .fail .expectedCommaOrObjectEnd

/-- A byte between tokens. -/
def stepStructure (m : Machine) (byte : UInt8) : Step Machine :=
  if Byte.isWhitespace byte then .advance m
  else match m.frames with
    | .array slot :: outer => m.stepArray slot outer byte
    | .object slot :: outer => m.stepObject slot outer byte
    | [] =>
      match m.root with
      | .value => m.stepValue byte
      | .afterValue | .done => .fail .unexpectedCharacter

/-! ### Scalars -/

/-- A byte inside or right after a keyword. -/
def stepKeyword (m : Machine) (keyword : Keyword) (missing : Bytes) (byte : UInt8) : Step Machine :=
  match missing with
  | expected :: missing =>
    if byte = expected then .advance (m.goOn (.keyword keyword missing))
    else .fail .unexpectedCharacter
  | [] =>
    if Byte.endsScalar byte then .emitBefore (.ofKeyword keyword) m.endScalar
    else .fail .unexpectedCharacter

/-- Completes a number. -/
def endNumber (m : Machine) (fractional : Bool) (literal : Bytes) :
    Except ErrorCode (Token × Machine) :=
  match Utf8.text? literal with
  | none => .error .illegalUnicode
  | some text =>
    match Token.ofLiteral m.options fractional text with
    | .ok token => .ok (token, m.endScalar)
    | .error code => .error code

/-- A byte inside or right after a number. -/
def stepNumber (m : Machine) (phase : Number.Phase) (fractional : Bool) (literal : Bytes)
    (byte : UInt8) : Step Machine :=
  match phase.next? byte with
  | some next =>
    .advance (m.goOn (.number next (fractional || next.isMark) (literal ++ [byte])))
  | none =>
    if !phase.isComplete then .fail .expectedDigit
    else if Byte.endsScalar byte then
      match m.endNumber fractional literal with
      | .ok (token, next) => .emitBefore token next
      | .error code => .fail code
    else .fail .unexpectedCharacter

/-- Completes a string. -/
def endString (m : Machine) (content : Bytes) : Except ErrorCode (Token × Machine) :=
  match Utf8.text? content with
  | none => .error .illegalUnicode
  | some text => .ok (if m.takesKey then .key text else .string text, m.endScalar)

/-- A byte of a string that has to continue or to start a UTF-8 sequence. -/
def stepUtf8 (m : Machine) (utf8 : Utf8.State) (content : Bytes) (byte : UInt8) : Step Machine :=
  match utf8.step? byte with
  | some next => .advance (m.goOn (.text next (content ++ [byte])))
  | none => .fail .illegalUnicode

/-- Goes on with a string after a character that is not written as itself. -/
def pushChar (m : Machine) (content : Bytes) (c : Char) : Machine :=
  m.goOn (.text .boundary (content ++ String.utf8EncodeChar c))

/-- A byte of a string, outside escapes. -/
def stepText (m : Machine) (utf8 : Utf8.State) (content : Bytes) (byte : UInt8) : Step Machine :=
  if utf8 ≠ .boundary then m.stepUtf8 utf8 content byte
  else if byte = Byte.quote then
    match m.endString content with
    | .ok (token, next) => .emit token next
    | .error code => .fail code
  else if byte = Byte.backslash then .advance (m.goOn (.escape .start content))
  else if byte < Byte.space then .fail .unexpectedCharacter
  else if byte < 0x80 then .advance (m.goOn (.text utf8 (content ++ [byte])))
  else match m.options.encoding with
    | .utf8 => m.stepUtf8 utf8 content byte
    | .latin1 => .advance (m.pushChar content (Latin1.char byte))

/-- Adds the character of an escape, if its code unit or units name one. -/
def pushEscaped (m : Machine) (content : Bytes) : Option Char → Step Machine
  | some c => .advance (m.pushChar content c)
  | none => .fail .numericRange

/-- A byte of a string, inside an escape. -/
def stepEscape (m : Machine) (state : EscapeState) (content : Bytes) (byte : UInt8) :
    Step Machine :=
  match state with
  | .start =>
    if byte = Byte.lowerU then .advance (m.goOn (.escape (.unit {}) content))
    else match Escape.short? byte with
      | some c => .advance (m.pushChar content c)
      | none => .fail .illegalEscape
  | .unit digits =>
    match digits.push? byte with
    | none => .fail .expectedHexDigit
    | some digits =>
      match digits.unit? with
      | none => .advance (m.goOn (.escape (.unit digits) content))
      | some unit =>
        if Utf16.isHighSurrogate unit then .advance (m.goOn (.escape (.needBackslash unit) content))
        else m.pushEscaped content (Utf16.char? unit)
  | .needBackslash high =>
    if byte = Byte.backslash then .advance (m.goOn (.escape (.needMark high) content))
    else .fail .numericRange
  | .needMark high =>
    if byte = Byte.lowerU then .advance (m.goOn (.escape (.secondUnit high {}) content))
    else .fail .numericRange
  | .secondUnit high digits =>
    match digits.push? byte with
    | none => .fail .expectedHexDigit
    | some digits =>
      match digits.unit? with
      | none => .advance (m.goOn (.escape (.secondUnit high digits) content))
      | some low => m.pushEscaped content (Utf16.pairChar? high low)

/-- The next byte. -/
def step (m : Machine) (byte : UInt8) : Step Machine :=
  match m.unfinished with
  | .nothing => m.stepStructure byte
  | .keyword keyword missing => m.stepKeyword keyword missing byte
  | .number phase fractional literal => m.stepNumber phase fractional literal byte
  | .text utf8 content => m.stepText utf8 content byte
  | .escape state content => m.stepEscape state content byte

end Machine

end JsonStream
