import JsonStream.Error
import JsonStream.Keyword
import JsonStream.Number.Components
import JsonStream.Options
import JsonStream.Text.Utf8

/-!
# Tokens

A reader reports a document as a flat sequence of tokens: scalars, keys, and the openings and
closings of containers. `Token.ofLiteral` says what the options make of a number literal.
-/

namespace JsonStream

/-- A number that is not reported as an integer. -/
inductive NumberValue where
  | float (value : Binary64)
  | components (value : Number.Components)
  | text (literal : String)
deriving Repr, DecidableEq

/-- One unit of what a reader reports. -/
inductive Token where
  /-- The chunk is used up; the next one is wanted. -/
  | needMore
  | null
  | bool (value : Bool)
  | number (value : NumberValue)
  | integer (value : Int64)
  /-- A string value, decoded. -/
  | string (text : String)
  /-- The key of an object member, decoded. -/
  | key (text : String)
  | beginArray
  | endArray
  | beginObject
  | endObject
  /-- The root value is complete and the input has ended. -/
  | done
deriving Repr, DecidableEq

/-- Equality of reported values, under which zeros of either sign are equal and NaN equals
nothing. -/
protected def NumberValue.beq : NumberValue → NumberValue → Bool
  | .float x, .float y => x == y
  | .components c, .components d => c = d
  | .text s, .text t => s = t
  | _, _ => false

instance : BEq NumberValue := ⟨NumberValue.beq⟩

namespace Token

/-- Equality of tokens as reported: floats are compared as numbers, and a string equals a key of
the same text. -/
protected def beq : Token → Token → Bool
  | .number x, .number y => x == y
  | .string s, .string t | .string s, .key t | .key s, .string t | .key s, .key t => s = t
  | x, y => x = y

instance : BEq Token := ⟨Token.beq⟩

/-- Whether a value starts here: scalars and openings. A key counts as a string. -/
def isValueStart : Token → Bool
  | .null | .bool _ | .number _ | .integer _ | .string _ | .key _ | .beginArray | .beginObject =>
    true
  | .needMore | .endArray | .endObject | .done => false

/-- The token of a keyword. -/
def ofKeyword : Keyword → Token
  | .null => .null
  | .true => .bool true
  | .false => .bool false

/-- The token of a number literal under the given options; `fractional` tells whether it has a
point or an exponent. Integers come first, in every number mode. -/
def ofLiteral (options : ReaderOptions) (fractional : Bool) (literal : String) :
    Except ErrorCode Token :=
  let bytes := Utf8.bytes literal
  match if options.integers && !fractional then Number.int64? bytes else none with
  | some value => .ok (.integer value)
  | none =>
    match options.numbers with
    | .float =>
      match Binary64.ofBytes? bytes with
      | some value => if value.isFinite then .ok (.number (.float value)) else .error .numericRange
      | none => .error .unexpectedCharacter
    | .components =>
      match Number.Components.ofBytes bytes with
      | .ok value => .ok (.number (.components value))
      | .error .outOfRange => .error .numericRange
      | .error .malformed => .error .unexpectedCharacter
    | .text => .ok (.number (.text literal))

/-- Whether more tokens of the same chunk may follow at once. -/
def isOngoing : Token → Bool
  | .needMore | .done => false
  | _ => true

end Token

end JsonStream
