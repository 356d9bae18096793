/-!
# Options of readers and writers
-/

namespace JsonStream

/-- How a reader reports the numbers that it does not report as integers. -/
inductive NumberMode where
  /-- As the nearest binary64 number; what rounds to infinity is out of range. -/
  | float
  /-- As exact components; what does not fit them is out of range. -/
  | components
  /-- As the literal itself. -/
  | text
deriving Repr, DecidableEq, Inhabited

/-- How bytes stand for characters. -/
inductive Encoding where
  /-- UTF-8; inside strings, malformed sequences are errors. -/
  | utf8
  /-- ISO-8859-1: every byte is one code point. -/
  | latin1
deriving Repr, DecidableEq, Inhabited

/-- How a reader reads. -/
structure ReaderOptions where
  /-- Whether numbers without fraction and exponent that fit 64 signed bits are reported as
  integers, in every number mode. -/
  integers : Bool := false
  numbers : NumberMode := .float
  encoding : Encoding := .utf8
deriving Repr, DecidableEq, Inhabited

/-- How a writer writes. -/
structure WriterOptions where
  /-- The text that stands once per nesting level in front of every member, each member taking a
  line of its own. Without it there is no white space at all; the empty indent still breaks
  lines. -/
  indent : Option String := none
  /-- Whether everything outside ASCII is escaped. -/
  asciiOnly : Bool := false
deriving Repr, DecidableEq, Inhabited

end JsonStream
