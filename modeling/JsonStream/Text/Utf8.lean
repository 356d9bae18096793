import JsonStream.Byte

/-!
# UTF-8, one byte at a time

Strings may be cut between any two bytes, so a sequence is checked as its bytes arrive. The state
of the check says which bytes may come next. It follows the table of well-formed sequences: only
the second byte has bounds that depend on the first one, and these exclude overlong forms,
surrogates and code points above U+10FFFF. A byte is accepted exactly if what has been read up to
it can still be continued to well-formed text.

Whole byte strings are turned into text by `text?`, which accepts exactly the encodings of
strings: `text?_eq_some_iff`.
-/

namespace JsonStream

namespace Utf8

/-- What the bytes read so far demand of the next one. -/
inductive State where
  /-- No sequence is open. -/
  | boundary
  /-- One more continuation byte. -/
  | one
  /-- Two more continuation bytes. -/
  | two
  /-- Three more continuation bytes. -/
  | three
  /-- Two more, the next of which is at least `0xa0`, as shorter forms exist below. -/
  | afterE0
  /-- Two more, the next of which is at most `0x9f`, as surrogates lie above. -/
  | afterED
  /-- Three more, the next of which is at least `0x90`, as shorter forms exist below. -/
  | afterF0
  /-- Three more, the next of which is at most `0x8f`, as nothing lies above U+10FFFF. -/
  | afterF4
deriving Repr, DecidableEq, Inhabited

namespace State

/-- The state after the first byte of a sequence. -/
def lead? (byte : UInt8) : Option State :=
  if byte < 0x80 then some .boundary
  else if byte < 0xc2 then none
  else if byte < 0xe0 then some .one
  else if byte = 0xe0 then some .afterE0
  else if byte < 0xed then some .two
  else if byte = 0xed then some .afterED
  else if byte < 0xf0 then some .two
  else if byte = 0xf0 then some .afterF0
  else if byte < 0xf4 then some .three
  else if byte = 0xf4 then some .afterF4
  else none

/-- Goes to `next` if the byte lies within the bounds. -/
def within (low high byte : UInt8) (next : State) : Option State :=
  if low ≤ byte ∧ byte ≤ high then some next else none

/-- The state after one more byte, or nothing if the byte may not stand here. -/
def step? : State → UInt8 → Option State
  | .boundary, byte => lead? byte
  | .one, byte => within 0x80 0xbf byte .boundary
  | .two, byte => within 0x80 0xbf byte .one
  | .three, byte => within 0x80 0xbf byte .two
  | .afterE0, byte => within 0xa0 0xbf byte .one
  | .afterED, byte => within 0x80 0x9f byte .one
  | .afterF0, byte => within 0x90 0xbf byte .two
  | .afterF4, byte => within 0x80 0x8f byte .two

/-- The state after a run of bytes, or nothing if one of them is rejected. -/
def run? : State → Bytes → Option State
  | state, [] => some state
  | state, byte :: rest => (state.step? byte).bind fun next => next.run? rest

@[simp] theorem run?_nil (state : State) : state.run? [] = some state := rfl

theorem run?_cons (state : State) (byte : UInt8) (rest : Bytes) :
    state.run? (byte :: rest) = (state.step? byte).bind fun next => next.run? rest := rfl

theorem run?_append (state : State) (first second : Bytes) :
    state.run? (first ++ second) = (state.run? first).bind fun next => next.run? second := by
  induction first generalizing state with
  | nil => rfl
  | cons byte rest ih =>
    simp only [List.cons_append, run?_cons]
    cases state.step? byte with
    | none => rfl
    | some next => exact ih next

end State

/-- The encoding of a list of characters. -/
def encode (chars : List Char) : Bytes :=
  chars.flatMap String.utf8EncodeChar

/-- The bytes of a text. -/
def bytes (text : String) : Bytes :=
  encode text.toList

/-- The text that a byte string encodes. This stands for conversions of whole byte strings such as
that of `bstr` and follows their documentation: what is not well-formed UTF-8 has no text. -/
def text? (input : Bytes) : Option String :=
  String.fromUTF8? input.toByteArray

@[simp] theorem encode_nil : encode [] = [] := rfl

@[simp] theorem encode_cons (c : Char) (chars : List Char) :
    encode (c :: chars) = String.utf8EncodeChar c ++ encode chars := rfl

theorem encode_append (first second : List Char) :
    encode (first ++ second) = encode first ++ encode second := by
  simp [encode]

theorem toByteArray_bytes (text : String) : (bytes text).toByteArray = text.toByteArray := by
  rw [← String.utf8Encode_toList]; rfl

/-- Reading accepts exactly the encodings of texts. -/
theorem text?_eq_some_iff {input : Bytes} {text : String} :
    text? input = some text ↔ input = bytes text := by
  have back : ∀ l : Bytes, l.toByteArray.data.toList = l := by
    intro l; simp
  unfold text? String.fromUTF8?
  constructor
  · intro h
    split at h
    · injection h with h
      have : input.toByteArray = text.toByteArray := by rw [← h]; rfl
      rw [← back input, this, ← toByteArray_bytes, back]
    · exact absurd h (by simp)
  · rintro rfl
    have valid : (bytes text).toByteArray.IsValidUTF8 := by
      rw [toByteArray_bytes]; exact text.isValidUTF8
    rw [dif_pos valid]
    congr 1
    apply String.toByteArray_inj.1
    exact toByteArray_bytes text

@[simp] theorem text?_bytes (text : String) : text? (bytes text) = some text :=
  text?_eq_some_iff.2 rfl

/-- The length of the longest prefix that is well-formed text: the scan remembers where the last
complete sequence ended and stops at the first byte that is rejected. This stands for the place that
`bstr` reports of an invalid byte string and follows its documentation. -/
def validPrefixLength (input : Bytes) : Nat :=
  go .boundary 0 0 input
where
  /-- Scans on with `complete` bytes known to be well formed and `seen` bytes read. -/
  go (state : State) (complete seen : Nat) : Bytes → Nat
    | [] => complete
    | byte :: rest =>
      match state.step? byte with
      | none => complete
      | some .boundary => go .boundary (seen + 1) (seen + 1) rest
      | some next => go next complete (seen + 1) rest

end Utf8

end JsonStream
