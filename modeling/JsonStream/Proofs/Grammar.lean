import JsonStream.Token
import JsonStream.Proofs.Number.Literal

/-!
# The grammar of JSON

Values and the texts that spell them. The grammar is that of RFC 8259, stated as a relation between
phrases and byte strings and without reference to any machine. What depends on options is a
parameter, the dialect: which literals spell a number, and which bytes stand for a character that
stands for itself.

* `Spells`: the grammar.
* `Value.flatten`: the tokens of a value, in the order of its text.
-/

namespace JsonStream

/-! ### Values -/

/-- A number as a reader reports it. -/
inductive Numeral where
  | integer (value : Int64)
  | other (value : NumberValue)
deriving Repr, DecidableEq

/-- A value. The members of an object stand in order, and a key may occur more than once. -/
inductive Value where
  | null
  | bool (value : Bool)
  | number (value : Numeral)
  | string (text : String)
  | array (elements : List Value)
  | object (members : List (String × Value))

/-- The token of a number. -/
def Numeral.token : Numeral → Token
  | .integer value => .integer value
  | .other value => .number value

theorem Numeral.token_injective {m n : Numeral} (h : m.token = n.token) : m = n := by
  cases m <;> cases n <;> cases h <;> rfl

mutual

/-- The tokens of a value. -/
def Value.flatten : Value → List Token
  | .null => [.null]
  | .bool value => [.bool value]
  | .number value => [value.token]
  | .string text => [.string text]
  | .array elements => .beginArray :: (flattenElements elements ++ [.endArray])
  | .object members => .beginObject :: (flattenMembers members ++ [.endObject])

/-- The tokens of values in a row. -/
def Value.flattenElements : List Value → List Token
  | [] => []
  | value :: elements => value.flatten ++ flattenElements elements

/-- The tokens of members in a row, each key before its value. -/
def Value.flattenMembers : List (String × Value) → List Token
  | [] => []
  | (key, value) :: members => .key key :: (value.flatten ++ flattenMembers members)

end

/-! ### Leaves -/

/-- White space: spaces, tabs, line feeds and carriage returns. -/
def Blank (bytes : Bytes) : Prop :=
  ∀ byte ∈ bytes,
    byte = Byte.space ∨ byte = Byte.tab ∨ byte = Byte.lineFeed ∨ byte = Byte.carriageReturn

/-- A hexadecimal digit of either case, with its value. -/
def HexDigit (byte : UInt8) (value : Nat) : Prop :=
  (0x30 ≤ byte.toNat ∧ byte.toNat ≤ 0x39 ∧ byte.toNat = 0x30 + value) ∨
    (0x41 ≤ byte.toNat ∧ byte.toNat ≤ 0x46 ∧ byte.toNat = 0x41 + (value - 10) ∧ 10 ≤ value) ∨
      (0x61 ≤ byte.toNat ∧ byte.toNat ≤ 0x66 ∧ byte.toNat = 0x61 + (value - 10) ∧ 10 ≤ value)

/-- Four hexadecimal digits, with the code unit that they name. -/
def UnitText (bytes : Bytes) (unit : Nat) : Prop :=
  ∃ a b c d x y z w, bytes = [a, b, c, d] ∧
    (HexDigit a x ∧ HexDigit b y ∧ HexDigit c z ∧ HexDigit d w) ∧
      unit = 0x1000 * x + 0x100 * y + 0x10 * z + w

/-- The characters that a backslash and one more byte stand for. -/
def shortEscapes : List (UInt8 × Char) :=
  [(0x22, '"'), (0x5c, '\\'), (0x2f, '/'), (0x62, '\x08'), (0x66, '\x0c'), (0x6e, '\n'),
    (0x72, '\r'), (0x74, '\t')]

/-- Code units that stand for no character of their own. -/
def Surrogate (unit : Nat) : Prop :=
  0xd800 ≤ unit ∧ unit ≤ 0xdfff

/-- What the options of a reader decide. -/
structure Dialect where
  /-- The literals of a number. -/
  numeral : Numeral → Bytes → Prop
  /-- The bytes of a character that stands for itself. -/
  raw : Char → Bytes → Prop

/-- A character inside a string: as itself unless it is a quote, a backslash or below the space, or
as an escape. Beyond the basic plane an escape takes a high and a low surrogate. -/
inductive CharText (d : Dialect) : Char → Bytes → Prop where
  | raw {c : Char} {bytes : Bytes} (spelled : d.raw c bytes) (space : 0x20 ≤ c.toNat)
      (quote : c ≠ '"') (backslash : c ≠ '\\') : CharText d c bytes
  | short {c : Char} {byte : UInt8} (entry : (byte, c) ∈ shortEscapes) :
      CharText d c [Byte.backslash, byte]
  | unit {c : Char} {digits : Bytes} {unit : Nat} (named : UnitText digits unit)
      (scalar : ¬Surrogate unit) (same : c.toNat = unit) :
      CharText d c (Byte.backslash :: Byte.lowerU :: digits)
  | pair {c : Char} {first second : Bytes} {high low : Nat} (high_named : UnitText first high)
      (low_named : UnitText second low) (isHigh : 0xd800 ≤ high ∧ high ≤ 0xdbff)
      (isLow : 0xdc00 ≤ low ∧ low ≤ 0xdfff)
      (same : c.toNat = 0x10000 + (high - 0xd800) * 0x400 + (low - 0xdc00)) :
      CharText d c (Byte.backslash :: Byte.lowerU ::
        (first ++ Byte.backslash :: Byte.lowerU :: second))

/-- Characters inside a string. -/
inductive BodyText (d : Dialect) : List Char → Bytes → Prop where
  | nil : BodyText d [] []
  | cons {c : Char} {chars : List Char} {first rest : Bytes} (head : CharText d c first)
      (tail : BodyText d chars rest) : BodyText d (c :: chars) (first ++ rest)

/-- A string literal. -/
def StringText (d : Dialect) (text : String) (bytes : Bytes) : Prop :=
  ∃ body, bytes = Byte.quote :: (body ++ [Byte.quote]) ∧ BodyText d text.toList body

/-- A key and its colon. -/
def KeyText (d : Dialect) (key : String) (bytes : Bytes) : Prop :=
  ∃ before name after, bytes = before ++ (name ++ (after ++ [Byte.colon])) ∧ Blank before ∧
    StringText d key name ∧ Blank after

/-! ### Phrases -/

/-- What the grammar spells: a value, or what stands between the brackets of a container. -/
inductive Phrase where
  | value (value : Value)
  | elements (elements : List Value)
  | members (members : List (String × Value))

/-- **The grammar.** Commas separate elements and members, white space may stand around them, and
only the brackets of an empty container have nothing else between them. -/
inductive Spells (d : Dialect) : Phrase → Bytes → Prop where
  | null : Spells d (.value .null) (Utf8.bytes "null")
  | true : Spells d (.value (.bool Bool.true)) (Utf8.bytes "true")
  | false : Spells d (.value (.bool Bool.false)) (Utf8.bytes "false")
  | number {n : Numeral} {bytes : Bytes} (literal : d.numeral n bytes) :
      Spells d (.value (.number n)) bytes
  | string {text : String} {bytes : Bytes} (literal : StringText d text bytes) :
      Spells d (.value (.string text)) bytes
  | emptyArray {blank : Bytes} (isBlank : Blank blank) :
      Spells d (.value (.array [])) (Byte.openBracket :: (blank ++ [Byte.closeBracket]))
  | array {elements : List Value} {inside : Bytes} (spelled : Spells d (.elements elements) inside) :
      Spells d (.value (.array elements)) (Byte.openBracket :: (inside ++ [Byte.closeBracket]))
  | emptyObject {blank : Bytes} (isBlank : Blank blank) :
      Spells d (.value (.object [])) (Byte.openBrace :: (blank ++ [Byte.closeBrace]))
  | object {members : List (String × Value)} {inside : Bytes}
      (spelled : Spells d (.members members) inside) :
      Spells d (.value (.object members)) (Byte.openBrace :: (inside ++ [Byte.closeBrace]))
  | lastElement {v : Value} {before bytes after : Bytes} (blank_before : Blank before)
      (spelled : Spells d (.value v) bytes) (blank_after : Blank after) :
      Spells d (.elements [v]) (before ++ (bytes ++ after))
  | element {v : Value} {elements : List Value} {before bytes after rest : Bytes}
      (blank_before : Blank before) (spelled : Spells d (.value v) bytes)
      (blank_after : Blank after) (more : Spells d (.elements elements) rest) :
      Spells d (.elements (v :: elements)) (before ++ (bytes ++ (after ++ Byte.comma :: rest)))
  | lastMember {key : String} {v : Value} {name before bytes after : Bytes}
      (named : KeyText d key name) (blank_before : Blank before)
      (spelled : Spells d (.value v) bytes) (blank_after : Blank after) :
      Spells d (.members [(key, v)]) (name ++ (before ++ (bytes ++ after)))
  | member {key : String} {v : Value} {members : List (String × Value)}
      {name before bytes after rest : Bytes} (named : KeyText d key name)
      (blank_before : Blank before) (spelled : Spells d (.value v) bytes)
      (blank_after : Blank after) (more : Spells d (.members members) rest) :
      Spells d (.members ((key, v) :: members))
        (name ++ (before ++ (bytes ++ (after ++ Byte.comma :: rest))))

/-- A document: one value with white space around it. -/
def Document (d : Dialect) (v : Value) (bytes : Bytes) : Prop :=
  ∃ before inside after, bytes = before ++ (inside ++ after) ∧ Blank before ∧
    Spells d (.value v) inside ∧ Blank after

/-- A literal of the grammar of numbers. -/
def NumberText (bytes : Bytes) : Prop :=
  ∃ literal : Number.Literal, literal.WellFormed ∧ literal.bytes = bytes

/-- JSON in UTF-8, every number denoted by its literal. -/
def Dialect.json : Dialect where
  numeral n bytes := NumberText bytes ∧ ∃ text, Utf8.bytes text = bytes ∧ n = .other (.text text)
  raw c bytes := bytes = String.utf8EncodeChar c

end JsonStream
