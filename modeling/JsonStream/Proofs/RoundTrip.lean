import JsonStream.Proofs.Reencoding

/-!
# Written values are read as they are

A value is written by the calls that walk it. What they hand out is a document, whatever the size of
the buffer, and it is read as the value again: integers as integers, and other numbers as their
literals. With everything outside ASCII escaped it is the same document in ISO-8859-1.

The literal of a number has to be none that a reader reports as an integer, since it would be.

* `Numeral.prints_of_written`: numbers.
* `Value.collect_written`: values.
-/

namespace JsonStream

namespace Value

theorem flatten_map_id (v : Value) : (v.map id).flatten = v.flatten := by
  have same : Token.map id = id := funext fun _ => Token.map_eq_self fun _ _ => rfl
  rw [flatten_map, same, List.map_id]

end Value

/-! ### Numbers -/

/-- An integer without fraction and exponent, in the range of 64 signed bits. The sign may be that
of a zero. -/
def Number.PlainInteger (bytes : Bytes) : Prop :=
  ∃ negative digits, IsInteger digits ∧ bytes = signedText negative digits ∧
    Int64.minValue.toInt ≤ signedValue negative digits ∧
      signedValue negative digits ≤ Int64.maxValue.toInt

/-- **Plain integers are the literals that are read as integers.** -/
theorem Number.int64?_eq_none_iff {bytes : Bytes} (number : NumberText bytes) :
    int64? bytes = none ↔ ¬PlainInteger bytes := by
  constructor
  · intro other plain
    obtain ⟨negative, digits, integer, rfl, range⟩ := plain
    rw [int64?_signedText integer, if_pos range] at other
    contradiction
  · intro other
    refine Option.eq_none_iff_forall_ne_some.2 fun i read => other ?_
    obtain ⟨l, wellFormed, rfl⟩ := number
    obtain ⟨fraction, exponent⟩ := eq_none_of_int64? wellFormed read
    have text : l.bytes = signedText l.negative l.integer := by
      rw [Literal.bytes, signedText, fraction, exponent]
      show _ ++ (l.integer ++ []) = _
      rw [List.append_nil]
    rw [text, int64?_signedText wellFormed.integer] at read
    split_ifs at read with range
    exact ⟨l.negative, l.integer, wellFormed.integer, text, range⟩

/-- A number that can be told from every other one when it is read again: an integer, or a literal
that stands for no such integer. -/
def Numeral.Written : Numeral → Prop
  | .integer _ => True
  | .other (.text literal) =>
    NumberText (Utf8.bytes literal) ∧ ¬Number.PlainInteger (Utf8.bytes literal)
  | .other _ => False

/-- The options under which written values are read: integers are reported as such, and other
numbers as their literals. -/
def ReaderOptions.verbatim (encoding : Encoding) : ReaderOptions :=
  { integers := true, numbers := .text, encoding }

theorem Numeral.prints_of_written {n : Numeral} (h : n.Written) (encoding : Encoding)
    (o : WriterOptions) : n.Prints (ReaderOptions.verbatim encoding).dialect o id := by
  cases n with
  | integer i =>
    exact ⟨_, rfl, ReaderOptions.numeralText_integer (ReaderOptions.numberText_integerText i) rfl
      (Number.int64?_integerText i)⟩
  | other value =>
    cases value with
    | float | components => exact h.elim
    | text literal =>
      obtain ⟨number, other⟩ := h
      have integer := (Number.int64?_eq_none_iff number).2 other
      refine ⟨Utf8.bytes literal, if_pos (Number.isLiteral_iff.2 number), number, literal, rfl, ?_⟩
      simp only [Token.ofLiteral, integer, ite_self]
      rfl

/-! ### Characters -/

/-- A character of ASCII is the same byte in ISO-8859-1 and in UTF-8. -/
theorem rawText_latin1 {options : ReaderOptions} (latin1 : options.encoding = .latin1) {c : Char}
    (ascii : c.toNat < 0x80) : options.RawText c (String.utf8EncodeChar c) := by
  have toNat : (UInt8.ofNat c.toNat).toNat = c.toNat :=
    UInt8.toNat_ofNat_of_lt' (Nat.lt_trans ascii (by decide))
  rw [ReaderOptions.RawText, latin1]
  refine ⟨UInt8.ofNat c.toNat, Utf8.utf8EncodeChar_one ascii, Char.toNat_inj.1 ?_⟩
  rw [Latin1.toNat_char, toNat]

/-- What a writer puts around numbers is read in UTF-8, and in ISO-8859-1 if it is ASCII. -/
theorem ReaderOptions.admits (options : ReaderOptions) {o : WriterOptions} (indent : o.BlankIndent)
    (ascii : options.encoding = .latin1 → o.asciiOnly = true) : options.dialect.Admits o := by
  refine ⟨indent, stringText_quoted ?_⟩
  intro c below
  show options.RawText c (String.utf8EncodeChar c)
  cases encoding : options.encoding with
  | utf8 => rw [RawText, encoding]
  | latin1 => exact rawText_latin1 encoding (below (ascii encoding))

/-! ### Values -/

namespace Value

variable {v : Value} {o : WriterOptions} {capacity : Nat}

/-- **A written value is read as it is.** The calls that walk the value hand out one text, however
small the buffer is. However the text is cut, its tokens are those of the value, and then the
document ends. -/
theorem collect_written (numbers : ∀ n : Numeral, n.token ∈ v.flatten → n.Written)
    (indent : o.BlankIndent) (room : 0 < capacity) :
    ∃ slices, ({ options := o } : Writer).writeEach capacity v.items =
        (.ok slices, { options := o }) ∧
      ∀ encoding, (encoding = .latin1 → o.asciiOnly = true) →
        ∀ chunks : List Bytes, chunks.flatten = slices.flatten →
          ({ options := .verbatim encoding } : Reader).collect chunks =
            .ok (v.flatten ++ [.done]) := by
  have prints : ∀ encoding, ∀ n : Numeral, n.token ∈ v.flatten → _ := fun encoding n mem =>
    Numeral.prints_of_written (numbers n mem) encoding o
  -- What is printed does not depend on the encoding that it is read in.
  obtain ⟨bytes, printed, -⟩ := v.prints_document
    ((ReaderOptions.verbatim .utf8).admits indent nofun) (prints .utf8)
  obtain ⟨slices, written, flat⟩ := Writer.writeEach_eq_ok room rfl printed
  have calls : (v.flatten ++ [Token.done]).flatMap Token.items = v.items := by
    rw [List.flatMap_append, items_eq]
    exact List.append_nil _
  rw [calls] at written
  refine ⟨slices, written, ?_⟩
  intro encoding ascii chunks cut
  obtain ⟨text, again, document⟩ := v.prints_document
    ((ReaderOptions.verbatim encoding).admits indent ascii) (prints encoding)
  obtain ⟨rfl, -⟩ := again.unique printed
  refine Reader.collect_eq_ok_iff_document.2 ⟨v.map id, ?_, ?_⟩
  · rw [cut, flat]
    exact document
  · rw [flatten_map_id]

/-- An object with a key that occurs twice, all of it escaped, is written one byte at a time and
read in ISO-8859-1. -/
theorem collect_written_repeated_key :
    ∃ slices, ({ options := { indent := some "\t", asciiOnly := true } } : Writer).writeEach 1
          (object [("é", .number (.integer (-1))), ("é", .number (.other (.text "1e400")))]).items =
        (.ok slices, { options := { indent := some "\t", asciiOnly := true } }) ∧
      ∀ encoding, (encoding = .latin1 → true = true) →
        ∀ chunks : List Bytes, chunks.flatten = slices.flatten →
          ({ options := .verbatim encoding } : Reader).collect chunks =
            .ok [.beginObject, .key "é", .integer (-1), .key "é", .number (.text "1e400"),
              .endObject, .done] :=
  collect_written (v := object [("é", .number (.integer (-1))),
      ("é", .number (.other (.text "1e400")))])
    (by
      intro n mem
      rcases n with _ | _ | _ | literal
      · trivial
      · simp [flatten, flattenMembers, Numeral.token] at mem
      · simp [flatten, flattenMembers, Numeral.token] at mem
      · simp only [flatten, flattenMembers, Numeral.token, List.mem_cons, List.mem_append] at mem
        obtain rfl : literal = "1e400" := by simpa using mem
        have number : NumberText (Utf8.bytes "1e400") :=
          ⟨_, Number.Literal.ofBytes?_eq_some_iff.1 rfl⟩
        exact ⟨number, (Number.int64?_eq_none_iff number).1 (by decide)⟩)
    (by rintro indent ⟨⟩; exact blank_cons_iff.2 ⟨rfl, blank_nil⟩) (by decide)

end Value

end JsonStream
