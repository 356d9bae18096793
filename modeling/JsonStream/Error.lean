import JsonStream.Position

/-!
# Errors

Each kind of failure is a type of causes, and each type has one function that words it.
-/

namespace JsonStream

/-- Why a document is refused. -/
inductive ErrorCode where
  /-- A buffer cannot be made as large as asked for. -/
  | outOfMemory
  /-- A container is closed while none is open. No input leads here. -/
  | stackEmpty
  /-- A number lacks a digit after its sign, its point or the letter or sign of its exponent. -/
  | expectedDigit
  /-- An escape of a code unit contains another byte than a hexadecimal digit. -/
  | expectedHexDigit
  /-- An element is followed by neither a comma nor the end of its array. -/
  | expectedCommaOrArrayEnd
  /-- A member is followed by neither a comma nor the end of its object. -/
  | expectedCommaOrObjectEnd
  /-- A member does not start with a string. -/
  | expectedString
  /-- A key is not followed by a colon. -/
  | expectedColon
  /-- The byte after a backslash forms no escape. -/
  | illegalEscape
  /-- A string contains a malformed UTF-8 sequence. -/
  | illegalUnicode
  /-- A number or an escaped code unit does not fit the range of values. -/
  | numericRange
  /-- A byte that cannot stand here. -/
  | unexpectedCharacter
  /-- The input ends before the document does. -/
  | unexpectedEnd
deriving Repr, DecidableEq, Inhabited

/-- The wording of a cause. -/
def ErrorCode.message : ErrorCode → String
  | .outOfMemory => "out of memory"
  | .stackEmpty => "empty stack"
  | .expectedDigit => "expected digit"
  | .expectedHexDigit => "expected hex digit"
  | .expectedCommaOrArrayEnd => "expected ',' or ']'"
  | .expectedCommaOrObjectEnd => "expected ',' or '\x7d'"
  | .expectedString => "expected string"
  | .expectedColon => "expected ':'"
  | .illegalEscape => "illegal escape sequence"
  | .illegalUnicode => "illegal unicode codepoint"
  | .numericRange => "numeric value out of range"
  | .unexpectedCharacter => "unexpected character"
  | .unexpectedEnd => "unexpected end of input"

/-- A refused document: the cause and the place of the offending byte. -/
structure ParseError where
  code : ErrorCode
  position : Position
deriving Repr, DecidableEq, Inhabited

/-- The wording of a refusal. -/
def ParseError.message (e : ParseError) : String :=
  e.code.message ++ " at " ++ toString e.position.line ++ ":" ++ toString e.position.column

/-- Why a reader takes no further chunk. -/
inductive FeedError where
  /-- The last chunk was released with unread bytes. -/
  | unconsumed (remaining : Nat)
  /-- The reader has failed. -/
  | failed (error : ParseError)
  /-- The end of input was already signalled. -/
  | closed
deriving Repr, DecidableEq, Inhabited

/-- The wording of a refused chunk. -/
def FeedError.message : FeedError → String
  | .unconsumed remaining =>
    "previous chunk still has " ++ toString remaining ++ " unconsumed bytes"
  | .failed error => "parser is in an error state: " ++ error.message
  | .closed => "end of input was already signalled"

/-- Why a writer refuses a call. -/
inductive WriterError where
  /-- There is no room for output at all. -/
  | zeroCapacity
  /-- Bytes of the previous call have not been handed out. -/
  | fragmentPending (remaining : Nat)
  /-- No container is open. -/
  | nothingToClose
  /-- The innermost container is of the other kind. -/
  | mismatchedClose
  /-- Bytes given as UTF-8 are well formed only up to here. -/
  | invalidUtf8 (validUpTo : Nat)
  /-- A text given as a number is no number literal, or components would print as another
  number. -/
  | invalidNumber
  /-- A buffer cannot grow. -/
  | outOfMemory
deriving Repr, DecidableEq, Inhabited

/-- The wording of a refused call. -/
def WriterError.message : WriterError → String
  | .zeroCapacity => "output buffer has zero capacity"
  | .fragmentPending remaining =>
    "previous fragment still has " ++ toString remaining ++ " bytes to flush"
  | .nothingToClose => "no open container to close"
  | .mismatchedClose => "closing bracket does not match the open container"
  | .invalidUtf8 validUpTo =>
    "invalid UTF-8 in string input after " ++ toString validUpTo ++ " bytes"
  | .invalidNumber => "invalid number literal"
  | .outOfMemory => "out of memory"

/-- Whether the caller is to blame, and not a lack of memory. -/
def WriterError.isMisuse : WriterError → Bool
  | .outOfMemory => false
  | _ => true

end JsonStream
