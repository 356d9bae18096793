import JsonStream.Proofs.Binary64.Text
import JsonStream.Proofs.Grammar.Numerals
import JsonStream.Proofs.Text.Quoting
import JsonStream.Proofs.Text.Validation
import JsonStream.Proofs.Writer.Layout
import JsonStream.Proofs.Writer.Refusals

/-!
# What writers write is plain text

Whatever a caller writes, in whatever order, the output is text without control characters, but for
the line breaks that the writer inserts: a line feed and copies of the indent. On request, only the
printable bytes of ASCII occur outside of line breaks.

* `Item.plain_text`: the text of one item.
* `Writer.exists_fragment`: a fragment, taken apart around its line break.
* `Writer.serve_inscribed`: what calls in turn hand out.
* `Writer.serve_plain`: it is plain between the line breaks, and quotes in texts are escaped.
-/

namespace JsonStream

/-! ### Plain text -/

/-- The bytes are text without control characters and, on request, printable ASCII. -/
structure Plain (asciiOnly : Bool) (bytes : Bytes) : Prop where
  text : ∃ chars, bytes = Utf8.encode chars ∧
    ∀ c ∈ chars, 0x20 ≤ c.toNat ∧ ¬(0x7f ≤ c.toNat ∧ c.toNat ≤ 0x9f)
  ascii : asciiOnly = true → PrintableAscii bytes

section
variable {asciiOnly : Bool} {first second bytes : Bytes}

theorem plain_nil (asciiOnly : Bool) : Plain asciiOnly [] :=
  ⟨⟨[], rfl, nofun⟩, fun _ => nofun⟩

theorem Plain.wellFormed (h : Plain asciiOnly bytes) : Utf8.WellFormed bytes := by
  obtain ⟨chars, same, -⟩ := h.text
  exact ⟨chars, same⟩

theorem Plain.append (h : Plain asciiOnly first) (h' : Plain asciiOnly second) :
    Plain asciiOnly (first ++ second) where
  text := by
    obtain ⟨chars, rfl, visible⟩ := h.text
    obtain ⟨chars', rfl, visible'⟩ := h'.text
    exact ⟨chars ++ chars', (Utf8.encode_append chars chars').symm,
      List.forall_mem_append.2 ⟨visible, visible'⟩⟩
  ascii only := List.forall_mem_append.2 ⟨h.ascii only, h'.ascii only⟩

theorem plain_flatMap {α : Type} {f : α → Bytes} {list : List α}
    (h : ∀ x ∈ list, Plain asciiOnly (f x)) : Plain asciiOnly (list.flatMap f) :=
  flatMap_induction (plain_nil asciiOnly) Plain.append h

/-- A visible character as itself. -/
theorem plain_utf8EncodeChar {c : Char} (visible : Escape.isControl c = false)
    (ascii : asciiOnly = true → c.toNat < 0x80) : Plain asciiOnly (String.utf8EncodeChar c) := by
  simp only [Escape.isControl, Bool.or_eq_false_iff, Bool.and_eq_false_iff,
    decide_eq_false_iff_not] at visible
  refine ⟨⟨[c], (List.append_nil _).symm, ?_⟩, fun only byte mem => ?_⟩
  · rintro c' mem
    rw [List.mem_singleton.1 mem]
    omega
  · have small := ascii only
    rw [Utf8.utf8EncodeChar_one small, List.mem_singleton] at mem
    rw [mem, UInt8.toNat_ofNat_of_lt' (Nat.lt_trans small (by decide))]
    omega

/-- Printable bytes of ASCII are plain in any case. -/
theorem PrintableAscii.plain (h : PrintableAscii bytes) (asciiOnly : Bool) :
    Plain asciiOnly bytes where
  text := by
    refine ⟨bytes.map Latin1.char, ?_, fun c mem => ?_⟩
    · have same := bytes_latin1 h.ascii
      rw [Latin1.text, Utf8.bytes, String.toList_ofList] at same
      exact same.symm
    · obtain ⟨byte, own, rfl⟩ := List.mem_map.1 mem
      have range := h byte own
      rw [Latin1.toNat_char]
      omega
  ascii _ := h

/-! ### Characters and texts -/

theorem plain_ofUnit (asciiOnly : Bool) (unit : Nat) : Plain asciiOnly (Escape.ofUnit unit) := by
  refine PrintableAscii.plain ?_ asciiOnly
  intro byte mem
  rw [Escape.ofUnit, List.mem_cons, List.mem_cons] at mem
  rcases mem with rfl | rfl | digit
  · decide
  · decide
  · have range := Escape.mem_hexOfUnit digit
    omega

/-- The bytes of short escapes. -/
theorem printableAscii_of_shortOf? {c : Char} {byte : UInt8} (h : Escape.shortOf? c = some byte) :
    PrintableAscii [Byte.backslash, byte] := by
  unfold Escape.shortOf? at h
  split at h
  all_goals first
    | (cases h; decide)
    | contradiction

/-- **A character is written plainly.** -/
theorem plain_ofChar (asciiOnly : Bool) (c : Char) : Plain asciiOnly (Escape.ofChar asciiOnly c) := by
  have writes := Escape.writes_ofChar asciiOnly c
  generalize Escape.ofChar asciiOnly c = bytes at writes
  cases writes with
  | short short => exact (printableAscii_of_shortOf? short).plain asciiOnly
  | units => exact plain_flatMap fun unit _ => plain_ofUnit asciiOnly unit
  | raw _ visible ascii => exact plain_utf8EncodeChar visible ascii

theorem plain_quoted (asciiOnly : Bool) (text : String) :
    Plain asciiOnly (quoted asciiOnly text) := by
  have quote : Plain asciiOnly [Byte.quote] :=
    PrintableAscii.plain (by decide) asciiOnly
  have inner : Plain asciiOnly (text.toList.flatMap (Escape.ofChar asciiOnly)) :=
    plain_flatMap fun c _ => plain_ofChar asciiOnly c
  exact quote.append (inner.append quote)

end

/-! ### Items -/

theorem Keyword.printable_spelling (word : Keyword) : PrintableAscii word.spelling := by
  cases word <;> decide

/-- **The text of a scalar is plain.** -/
theorem Scalar.plain_text {asciiOnly : Bool} {value : Scalar} {bytes : Bytes}
    (h : value.text asciiOnly = .ok bytes) : Plain asciiOnly bytes := by
  cases value with
  | null =>
    cases h
    exact (Keyword.printable_spelling .null).plain asciiOnly
  | bool value =>
    cases h
    exact (Keyword.printable_spelling (.ofBool value)).plain asciiOnly
  | float x =>
    cases h
    split_ifs with finite
    · exact (Binary64.numberText_text finite).numberBytes.printable.plain asciiOnly
    · exact (Keyword.printable_spelling .null).plain asciiOnly
  | integer i =>
    cases h
    exact (ReaderOptions.numberText_integerText i).numberBytes.printable.plain asciiOnly
  | components c =>
    rw [text] at h
    split_ifs at h
    cases h
    exact (ReaderOptions.numberText_components c).numberBytes.printable.plain asciiOnly
  | literal literal =>
    rw [text] at h
    split_ifs at h with number
    cases h
    exact (Number.isLiteral_iff.1 number).numberBytes.printable.plain asciiOnly
  | string source =>
    cases h
    exact plain_quoted asciiOnly source
  | encoded input encoding =>
    cases encoding with
    | latin1 =>
      cases h
      exact plain_quoted asciiOnly _
    | utf8 =>
      rw [text] at h
      split at h
      · cases h
        exact plain_quoted asciiOnly _
      · contradiction

/-- The text of an item, without what separates it from the items before it. -/
def Item.text (asciiOnly : Bool) : Item → Except WriterError Bytes
  | .scalar value => value.text asciiOnly
  | .beginArray => .ok [Byte.openBracket]
  | .endArray => .ok [Byte.closeBracket]
  | .beginObject => .ok [Byte.openBrace]
  | .endObject => .ok [Byte.closeBrace]

/-- **The text of an item is plain.** -/
theorem Item.plain_text {asciiOnly : Bool} {item : Item} {bytes : Bytes}
    (h : item.text asciiOnly = .ok bytes) : Plain asciiOnly bytes := by
  cases item with
  | scalar value => exact Scalar.plain_text h
  | beginArray | endArray | beginObject | endObject =>
    cases h
    exact PrintableAscii.plain (by decide) asciiOnly

/-- What is written for a text, also for one given as bytes, is its quoted form. -/
theorem Item.text_of_decoded {asciiOnly : Bool} {item : Item} {source : String}
    (h : item.decoded = .scalar (.string source)) :
    item.text asciiOnly = .ok (quoted asciiOnly source) := by
  cases item with
  | scalar value =>
    cases value with
    | string =>
      cases h
      rfl
    | encoded bytes encoding =>
      cases encoding with
      | latin1 =>
        cases h
        rfl
      | utf8 =>
        rw [decoded] at h
        split at h
        · rename_i decoded
          cases h
          rw [text, Scalar.text, decoded]
        · cases h
    | null | bool | float | integer | components | literal => cases h
  | beginArray | endArray | beginObject | endObject => cases h

namespace Writer

/-! ### Line breaks -/

/-- The line break inside the fragment of an item, between what separates the item from those before
it and its text. Members and closings take a line of their own, but not the values of keys, nor the
closing of a container without members. -/
def breakBefore (w : Writer) (item : Item) : Bytes :=
  match w.slots with
  | [] => []
  | slot :: outer =>
    if item.closes?.isSome then if slot.isFirst then [] else w.lineBreak outer.length
    else if slot = .memberValue then [] else w.lineBreak w.depth

/-- What may separate an item from those before it, apart from a line break. -/
def punctuation : List Bytes :=
  [[], [Byte.comma], [Byte.colon], [Byte.colon, Byte.space]]

theorem plain_of_mem_punctuation {bytes : Bytes} (h : bytes ∈ punctuation) (asciiOnly : Bool) :
    Plain asciiOnly bytes := by
  have all : (punctuation.all fun bytes => PrintableAscii bytes) = true := by decide
  have own : PrintableAscii bytes := of_decide_eq_true (List.all_eq_true.1 all bytes h)
  exact own.plain asciiOnly

theorem exists_separator (w : Writer) {item : Item} (opens : item.closes? = none) :
    ∃ before ∈ punctuation, w.separator = before ++ w.breakBefore item := by
  rw [separator, breakBefore, opens]
  cases w.slots with
  | nil => exact ⟨[], by decide, rfl⟩
  | cons slot outer =>
    cases slot with
    | memberValue =>
      dsimp only
      split
      · exact ⟨[Byte.colon, Byte.space], by decide, rfl⟩
      · exact ⟨[Byte.colon], by decide, rfl⟩
    | firstElement | firstKey => exact ⟨[], by decide, rfl⟩
    | nextElement | nextKey => exact ⟨[Byte.comma], by decide, rfl⟩

variable {w : Writer} {item : Item}

theorem closing_eq {array : Bool} {bytes : Bytes} {slots : List Slot}
    (closes : item.closes? = some array) (h : w.closing array = .ok (bytes, slots)) :
    bytes = w.breakBefore item ++ [if array then Byte.closeBracket else Byte.closeBrace] := by
  rw [closing] at h
  rw [breakBefore, closes]
  cases innermost : w.slots with
  | nil =>
    rw [innermost] at h
    contradiction
  | cons slot outer =>
    rw [innermost] at h
    dsimp only at h
    by_cases kind : slot.inArray = array
    · rw [if_pos kind] at h
      cases h
      rfl
    · rw [if_neg kind] at h
      contradiction

/-- **A fragment, taken apart around its line break.** -/
theorem exists_fragment {bytes : Bytes} {slots : List Slot}
    (h : w.fragment item = .ok (bytes, slots)) :
    ∃ before ∈ punctuation, ∃ after, item.text w.options.asciiOnly = .ok after ∧
      bytes = before ++ (w.breakBefore item ++ after) := by
  cases item with
  | scalar value =>
    rw [fragment] at h
    cases text : value.text w.options.asciiOnly with
    | error e =>
      rw [text] at h
      contradiction
    | ok after =>
      rw [text] at h
      cases h
      have opens : (Item.scalar value).closes? = none := rfl
      obtain ⟨before, mem, same⟩ := w.exists_separator opens
      exact ⟨before, mem, after, text, by rw [same, List.append_assoc]⟩
  | beginArray =>
    cases h
    have opens : Item.beginArray.closes? = none := rfl
    obtain ⟨before, mem, same⟩ := w.exists_separator opens
    exact ⟨before, mem, _, rfl, by rw [same, List.append_assoc]⟩
  | beginObject =>
    cases h
    have opens : Item.beginObject.closes? = none := rfl
    obtain ⟨before, mem, same⟩ := w.exists_separator opens
    exact ⟨before, mem, _, rfl, by rw [same, List.append_assoc]⟩
  | endArray => exact ⟨[], by decide, _, rfl, closing_eq rfl h⟩
  | endObject => exact ⟨[], by decide, _, rfl, closing_eq rfl h⟩

/-- Nothing, or a line feed and copies of the indent. -/
def IsLineBreak (o : WriterOptions) (bytes : Bytes) : Prop :=
  bytes = [] ∨ ∃ indent copies, o.indent = some indent ∧
    bytes = Byte.lineFeed :: (List.replicate copies (Utf8.bytes indent)).flatten

theorem isLineBreak_lineBreak (w : Writer) (depth : Nat) :
    IsLineBreak w.options (w.lineBreak depth) := by
  rw [lineBreak]
  cases indented : w.options.indent with
  | none => exact .inl rfl
  | some indent => exact .inr ⟨indent, depth, indented, rfl⟩

theorem isLineBreak_breakBefore (w : Writer) (item : Item) :
    IsLineBreak w.options (w.breakBefore item) := by
  rw [breakBefore]
  cases w.slots with
  | nil => exact .inl rfl
  | cons slot outer =>
    dsimp only
    split_ifs
    · exact .inl rfl
    · exact w.isLineBreak_lineBreak _
    · exact .inl rfl
    · exact w.isLineBreak_lineBreak _

/-- A line break is text. -/
theorem IsLineBreak.wellFormed {o : WriterOptions} {bytes : Bytes} (h : IsLineBreak o bytes) :
    Utf8.WellFormed bytes := by
  obtain rfl | ⟨indent, copies, -, rfl⟩ := h
  · exact ⟨[], rfl⟩
  · have indented : Utf8.WellFormed (List.replicate copies (Utf8.bytes indent)).flatten := by
      induction copies with
      | zero => exact ⟨[], rfl⟩
      | succ copies ih =>
        rw [List.replicate_succ, List.flatten_cons]
        exact Utf8.WellFormed.append ⟨indent.toList, rfl⟩ ih
    exact Utf8.WellFormed.append ⟨['\n'], rfl⟩ indented

/-! ### Output -/

/-- The line break in the fragment of an item that follows `earlier` ones. -/
def breakAfter (o : WriterOptions) (earlier : List Item) (item : Item) : Bytes :=
  ({ options := o, slots := slotsAfter o earlier } : Writer).breakBefore item

/-- The output for items in turn. For each of them there is plain text that separates it from those
before it, the line break that is inserted there, and the plain text of the item. -/
inductive Written (o : WriterOptions) : List Item → Bytes → Prop where
  | nil : Written o [] []
  | snoc {items : List Item} {item : Item} {out before after : Bytes} (written : Written o items out)
      (separates : before ∈ punctuation) (text : item.text o.asciiOnly = .ok after)
      (breaks : IsLineBreak o (breakAfter o items item)) (plain_before : Plain o.asciiOnly before)
      (plain_after : Plain o.asciiOnly after) :
      Written o (items ++ [item]) (out ++ (before ++ (breakAfter o items item ++ after)))

/-- The writer has taken the given items, and what it has handed out of them and what is pending is
written for them. -/
structure Inscribed (w : Writer) (o : WriterOptions) (items : List Item) (out : Bytes) : Prop where
  follows : w.Follows o items
  written : Written o items (out ++ w.pending)

variable {next : Writer} {o : WriterOptions} {items : List Item} {out : Bytes} {request : Request}
  {answer : Except WriterError Bytes}

/-- The output is text. -/
theorem Written.wellFormed (h : Written o items out) : Utf8.WellFormed out := by
  induction h with
  | nil => exact ⟨[], rfl⟩
  | snoc _ _ _ breaks plain_before plain_after ih =>
    exact ih.append (plain_before.wellFormed.append (breaks.wellFormed.append plain_after.wellFormed))

theorem inscribed_reset (w : Writer) : w.reset.Inscribed w.options [] [] :=
  ⟨w.follows_reset, .nil⟩

/-- **One call** adds what it hands out, and leaves the rest of its fragment pending. -/
theorem Answers.inscribed (h : w.Answers request answer next) (before : w.Inscribed o items out) :
    next.Inscribed o (items ++ (Exchange.taken? (request, answer)).toList)
      (out ++ Exchange.slice (request, answer)) := by
  refine ⟨(h.balances before.follows).follows, ?_⟩
  have written := before.written
  cases h with
  | refused e =>
    show Written o (items ++ []) (out ++ [] ++ w.pending)
    rw [List.append_nil, List.append_nil]
    exact written
  | @write item capacity bytes slots _ idle fragment =>
    show Written o (items ++ [item]) (out ++ bytes.take capacity ++ bytes.drop capacity)
    rw [idle, List.append_nil] at written
    rw [List.append_assoc, List.take_append_drop]
    obtain ⟨separator, separates, after, text, rfl⟩ := exists_fragment fragment
    have same : w.breakBefore item = breakAfter o items item := by
      rw [breakAfter, ← before.follows.slots, ← before.follows.options]
      rfl
    rw [before.follows.options] at text
    rw [same]
    exact .snoc written separates text (isLineBreak_breakBefore _ _)
      (plain_of_mem_punctuation separates _) (Item.plain_text text)
  | @more capacity =>
    show Written o (items ++ []) (out ++ w.pending.take capacity ++ w.pending.drop capacity)
    rw [List.append_nil, List.append_assoc, List.take_append_drop]
    exact written

/-- **Calls in turn**, whatever they are. -/
theorem serve_inscribed (before : w.Inscribed o items out) (requests : List Request) :
    (w.serve requests).2.Inscribed o (items ++ taken (w.serve requests).1)
      (out ++ handedOut (w.serve requests).1) := by
  induction requests generalizing w items out with
  | nil =>
    show w.Inscribed o (items ++ []) (out ++ [])
    rw [List.append_nil, List.append_nil]
    exact before
  | cons request requests ih =>
    have first := (w.answer_answers request).inscribed before
    have rest := ih first
    rw [List.append_assoc, List.append_assoc, ← taken_serve_cons] at rest
    exact rest

/-- **What writers write is plain.** Whatever calls are made of a writer since it was reset, in
whatever order, once nothing is pending the bytes that it has handed out are well-formed UTF-8: for
each item that was taken a separator, the line break that is inserted there, and the text of the
item. Outside of these line breaks there are no control characters and, where everything outside
ASCII is escaped, only the bytes from the space to the tilde. A text, also one given as bytes in an
encoding, is written between two quotes, the only ones that are not escaped, and every quote and
backslash of it is. -/
theorem serve_plain (w : Writer) (requests : List Request)
    (drained : (w.reset.serve requests).2.pending = []) :
    let exchanges := (w.reset.serve requests).1
    Written w.options (taken exchanges) (handedOut exchanges) ∧
      Utf8.WellFormed (handedOut exchanges) ∧
      ∀ item ∈ taken exchanges, ∀ source, item.decoded = .scalar (.string source) →
        item.text w.options.asciiOnly = .ok (quoted w.options.asciiOnly source) ∧
          QuotesEscaped w.options.asciiOnly source := by
  intro exchanges
  have written := (serve_inscribed w.inscribed_reset requests).written
  rw [drained, List.append_nil] at written
  exact ⟨written, written.wellFormed, fun item _ source decoded =>
    ⟨Item.text_of_decoded decoded, quotesEscaped _ source⟩⟩

/-- Two texts in an array that is closed as one, and one behind it that no comma separates. -/
theorem serve_plain_tabs :
    let w : Writer := { options := { indent := some "\t", asciiOnly := true } }
    let requests : List Request := [.write .beginArray 9, .write (.scalar (.string "\"é")) 9,
      .write .endObject 9, .more 9, .write .endArray 9, .write (.scalar (.encoded [0x5c] .latin1)) 9]
    handedOut (w.reset.serve requests).1 = Utf8.bytes "[\n\t\"\\\"\\u00e9\"\n]\"\\\\\"" ∧
      Written w.options (taken (w.reset.serve requests).1)
        (handedOut (w.reset.serve requests).1) ∧
      QuotesEscaped true "\"é" := by
  intro w requests
  obtain ⟨written, -, quotes⟩ := serve_plain w requests (by decide)
  exact ⟨by decide, written, (quotes (.scalar (.string "\"é")) (by decide) _ rfl).2⟩

end Writer

end JsonStream
