import JsonStream.Error
import JsonStream.Options
import JsonStream.Keyword
import JsonStream.Text.Escape
import JsonStream.Text.Latin1
import JsonStream.Number.Components
import JsonStream.Binary64.Shortest

/-!
# The text of a scalar

A scalar has one text, which does not depend on where it stands. Three scalars may be refused:
components whose fraction does not fit its places, a text that is no number literal, and bytes that
are not the UTF-8 they are said to be.
-/

namespace JsonStream

/-- A value or a key that is no container. -/
inductive Scalar where
  | null
  | bool (value : Bool)
  /-- A binary64 number, written as a literal that reads back as it. What is not finite
  has no literal and is written as `null`. -/
  | float (value : Binary64)
  | integer (value : Int64)
  /-- An exact number, in its canonical form. -/
  | components (value : Number.Components)
  /-- A number literal, written as it is. -/
  | literal (text : String)
  /-- A string value or a key. -/
  | string (text : String)
  /-- A string value or a key, given as bytes in an encoding. -/
  | encoded (bytes : Bytes) (encoding : Encoding)
deriving Repr, DecidableEq

namespace Scalar

/-- A signed integer as a literal: a minus sign if it is negative, and its digits without leading
zeros. This stands for `itoa` and follows its documented output. -/
def integerText (value : Int64) : Bytes :=
  (if value < 0 then [Byte.minus] else []) ++ Decimal.digits value.toInt.natAbs

/-- The text of a scalar, or why it has none. -/
def text (asciiOnly : Bool) : Scalar → Except WriterError Bytes
  | .null => .ok Keyword.null.spelling
  | .bool value => .ok (Keyword.ofBool value).spelling
  | .float value => .ok (if value.isFinite then value.text else Keyword.null.spelling)
  | .integer value => .ok (integerText value)
  | .components value => if value.fractionFits then .ok value.text else .error .invalidNumber
  | .literal text =>
    if Number.isLiteral (Utf8.bytes text) then .ok (Utf8.bytes text) else .error .invalidNumber
  | .string text => .ok (quoted asciiOnly text)
  | .encoded bytes .utf8 =>
    match Utf8.text? bytes with
    | some text => .ok (quoted asciiOnly text)
    | none => .error (.invalidUtf8 (Utf8.validPrefixLength bytes))
  | .encoded bytes .latin1 => .ok (quoted asciiOnly (Latin1.text bytes))

/-- Bytes that encode a text are written like the text. -/
theorem text_encoded_bytes (asciiOnly : Bool) (s : String) :
    (Scalar.encoded (Utf8.bytes s) .utf8).text asciiOnly = (Scalar.string s).text asciiOnly := by
  simp only [text, Utf8.text?_bytes]

end Scalar

end JsonStream
