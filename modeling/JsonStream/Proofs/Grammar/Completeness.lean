import JsonStream.Proofs.Grammar.Structure

/-!
# What the grammar spells is read

The text of a value takes a machine from where a value is due to where it is complete, and reports
the tokens of the value.

* `Spells.reads`: the induction over the grammar.
* `Document.tokens?_eq`: a document is accepted with the tokens of its value.
-/

namespace JsonStream

open Machine

/-- A machine reads a phrase from its text. Elements and members are read together with the bracket
that closes them. -/
def Phrase.Reads (options : ReaderOptions) (bytes : Bytes) : Phrase → Prop
  | .value v => ∀ frames rest, TakesValue frames → Delimited rest →
      (between options frames).tokens? (bytes ++ rest) =
        ((past options frames).tokens? rest).map (v.flatten ++ ·)
  | .elements vs => ∀ slot outer rest, slot ≠ .separator →
      (between options (.array slot :: outer)).tokens? (bytes ++ Byte.closeBracket :: rest) =
        ((past options outer).tokens? rest).map
          (Value.flattenElements vs ++ .endArray :: ·)
  | .members ms => ∀ slot outer rest, slot = .first ∨ slot = .key →
      (between options (.object slot :: outer)).tokens? (bytes ++ Byte.closeBrace :: rest) =
        ((past options outer).tokens? rest).map
          (Value.flattenMembers ms ++ .endObject :: ·)

variable {options : ReaderOptions} {frames outer : List Frame} {bytes rest : Bytes}

/-! ### Scalars -/

theorem tokens?_keyword (word : Keyword) (takes : TakesValue frames) (h : Delimited rest) :
    (between options frames).tokens? (word.spelling ++ rest) =
      ((past options frames).tokens? rest).map (.ofKeyword word :: ·) := by
  have space : Byte.isWhitespace word.head = false := by cases word <;> rfl
  have close : word.head ≠ Byte.closeBracket := by cases word <;> decide
  have step := (step_takesValue options takes space close).trans
    (stepValue_keyword word)
  show (between options frames).tokens? (word.head :: (word.tail ++ rest)) = _
  rw [tokens?_advance step, keyword_complete _ word word.tail h, endScalar_started]

theorem tokens?_number {n : Numeral} (literal : options.dialect.numeral n bytes)
    (takes : TakesValue frames) (h : Delimited rest) :
    (between options frames).tokens? (bytes ++ rest) =
      ((past options frames).tokens? rest).map (n.token :: ·) := by
  obtain ⟨byte, more, phase, rfl, start, read⟩ :=
    number_complete (m := between options (started frames)) literal h
  have space : Byte.isWhitespace byte = false := Bool.eq_false_iff.2 fun space => by
    rcases isWhitespace_iff.1 space with rfl | rfl | rfl | rfl <;> contradiction
  have close : byte ≠ Byte.closeBracket := by
    intro same
    subst same
    contradiction
  have step := (step_takesValue options takes space close).trans
    (stepValue_number start)
  rw [List.cons_append, tokens?_advance step, read, endScalar_started]

theorem tokens?_string {text : String} (literal : StringText options.dialect text bytes)
    (takes : TakesValue frames) :
    (between options frames).tokens? (bytes ++ rest) =
      ((past options frames).tokens? rest).map (.string text :: ·) := by
  obtain ⟨body, rfl, read⟩ := string_complete (m := between options (started frames)) literal
  have step := (step_takesValue options takes (by decide) (by decide)).trans
    stepValue_quote
  rw [List.cons_append, tokens?_advance step, read, endScalar_started,
    stringToken_started takes]

/-! ### Containers -/

theorem tokens?_beginArray (takes : TakesValue frames) :
    (between options frames).tokens? (Byte.openBracket :: rest) =
      ((between options (.array .first :: started frames)).tokens? rest).map
        (.beginArray :: ·) := by
  have step := (step_takesValue options takes (by decide) (by decide)).trans
    stepValue_openBracket
  rw [tokens?_emit step]

theorem tokens?_beginObject (takes : TakesValue frames) :
    (between options frames).tokens? (Byte.openBrace :: rest) =
      ((between options (.object .first :: started frames)).tokens? rest).map
        (.beginObject :: ·) := by
  have step := (step_takesValue options takes (by decide) (by decide)).trans
    stepValue_openBrace
  rw [tokens?_emit step]

/-- A key and its colon are read, and then its value is due. -/
theorem tokens?_key {slot : ObjectSlot} {key : String} (h : slot = .first ∨ slot = .key)
    (named : KeyText options.dialect key bytes) :
    (between options (.object slot :: outer)).tokens? (bytes ++ rest) =
      ((between options (.object .value :: outer)).tokens? rest).map (.key key :: ·) := by
  obtain ⟨before, name, after, rfl, blank_before, literal, blank_after⟩ := named
  obtain ⟨body, rfl, read⟩ :=
    string_complete (m := between options (.object .key :: outer)) literal
  rw [List.append_assoc, tokens?_blank rfl blank_before, List.append_assoc, List.cons_append,
    tokens?_quote_object h, read, List.append_assoc, List.singleton_append]
  show ((between options (.object .colon :: outer)).tokens? _).map _ = _
  rw [tokens?_blank rfl blank_after, tokens?_colon]
  rfl

/-! ### Elements and members -/

section
variable {v : Value} {before after : Bytes} {stop : UInt8}

/-- An element is read with the white space around it, up to the byte that ends it. -/
theorem tokens?_element {slot : ArraySlot} (reads : Phrase.Reads options bytes (.value v))
    (inside : slot ≠ .separator) (blank_before : Blank before) (blank_after : Blank after)
    (ends : Byte.endsScalar stop = true) :
    (between options (.array slot :: outer)).tokens?
        (before ++ (bytes ++ (after ++ stop :: rest))) =
      ((between options (.array .separator :: outer)).tokens? (stop :: rest)).map
        (v.flatten ++ ·) := by
  have delimited : Delimited (after ++ stop :: rest) :=
    delimited_append blank_after (delimited_cons_iff.2 ends)
  rw [tokens?_blank rfl blank_before]
  rw [reads (.array slot :: outer) _ (takesValue_array inside outer) delimited]
  show ((between options (.array .separator :: outer)).tokens? _).map _ = _
  rw [tokens?_blank rfl blank_after]

/-- A member is read with the white space around its key and its value, up to the byte that ends
it. -/
theorem tokens?_member {slot : ObjectSlot} {key : String} {name : Bytes}
    (named : KeyText options.dialect key name) (reads : Phrase.Reads options bytes (.value v))
    (inside : slot = .first ∨ slot = .key) (blank_before : Blank before)
    (blank_after : Blank after) (ends : Byte.endsScalar stop = true) :
    (between options (.object slot :: outer)).tokens?
        (name ++ (before ++ (bytes ++ (after ++ stop :: rest)))) =
      ((between options (.object .separator :: outer)).tokens? (stop :: rest)).map
        (.key key :: v.flatten ++ ·) := by
  have delimited : Delimited (after ++ stop :: rest) :=
    delimited_append blank_after (delimited_cons_iff.2 ends)
  rw [tokens?_key inside named, tokens?_blank rfl blank_before]
  rw [reads (.object .value :: outer) _ trivial delimited]
  show (((between options (.object .separator :: outer)).tokens? _).map _).map _ = _
  rw [tokens?_blank rfl blank_after, Option.map_map]
  rfl

end

/-- **What the grammar spells is read.** -/
theorem Spells.reads {phrase : Phrase} (h : Spells options.dialect phrase bytes) :
    phrase.Reads options bytes := by
  induction h with
  | null =>
    intro frames rest takes delimited
    exact tokens?_keyword .null takes delimited
  | true =>
    intro frames rest takes delimited
    exact tokens?_keyword .true takes delimited
  | false =>
    intro frames rest takes delimited
    exact tokens?_keyword .false takes delimited
  | number literal =>
    intro frames rest takes delimited
    exact tokens?_number literal takes delimited
  | string literal =>
    intro frames rest takes _
    exact tokens?_string literal takes
  | emptyArray isBlank =>
    intro frames rest takes _
    rw [List.cons_append, tokens?_beginArray takes, List.append_assoc, tokens?_blank rfl isBlank,
      List.singleton_append, tokens?_closeArray (by decide), past_started, Option.map_map]
    rfl
  | array spelled ih =>
    intro frames rest takes _
    rw [List.cons_append, tokens?_beginArray takes, List.append_assoc, List.singleton_append,
      ih .first (started frames) rest nofun, past_started, Option.map_map]
    congr 1
    funext tail
    rw [Value.flatten, List.cons_append, List.append_assoc]
    rfl
  | emptyObject isBlank =>
    intro frames rest takes _
    rw [List.cons_append, tokens?_beginObject takes, List.append_assoc, tokens?_blank rfl isBlank,
      List.singleton_append, tokens?_closeObject (.inl rfl), past_started, Option.map_map]
    rfl
  | object spelled ih =>
    intro frames rest takes _
    rw [List.cons_append, tokens?_beginObject takes, List.append_assoc, List.singleton_append,
      ih .first (started frames) rest (.inl rfl), past_started, Option.map_map]
    congr 1
    funext tail
    rw [Value.flatten, List.cons_append, List.append_assoc]
    rfl
  | lastElement blank_before spelled blank_after ih =>
    intro slot outer rest inside
    rw [List.append_assoc, List.append_assoc,
      tokens?_element ih inside blank_before blank_after (by decide),
      tokens?_closeArray (by decide), Option.map_map]
    congr 1
    funext tail
    rw [Value.flattenElements, Value.flattenElements, List.append_nil]
    rfl
  | element blank_before spelled blank_after more ih ih_more =>
    intro slot outer rest inside
    rw [List.append_assoc, List.append_assoc, List.append_assoc, List.cons_append,
      tokens?_element ih inside blank_before blank_after (by decide), tokens?_comma_array,
      ih_more .value outer rest nofun, Option.map_map]
    congr 1
    funext tail
    rw [Value.flattenElements, List.append_assoc]
    rfl
  | lastMember named blank_before spelled blank_after ih =>
    intro slot outer rest inside
    rw [List.append_assoc, List.append_assoc, List.append_assoc,
      tokens?_member named ih inside blank_before blank_after (by decide),
      tokens?_closeObject (.inr rfl), Option.map_map]
    congr 1
    funext tail
    rw [Value.flattenMembers, Value.flattenMembers, List.append_nil]
    rfl
  | member named blank_before spelled blank_after more ih ih_more =>
    intro slot outer rest inside
    rw [List.append_assoc, List.append_assoc, List.append_assoc, List.append_assoc,
      List.cons_append, tokens?_member named ih inside blank_before blank_after (by decide),
      tokens?_comma_object, ih_more .key outer rest (.inr rfl), Option.map_map]
    congr 1
    funext tail
    rw [Value.flattenMembers, List.cons_append, List.append_assoc]
    rfl

/-! ### Documents -/

/-- **A document is accepted with the tokens of its value.** -/
theorem Document.tokens?_eq {v : Value} (h : Document options.dialect v bytes) :
    ({ options } : Machine).tokens? bytes = some (v.flatten ++ [.done]) := by
  obtain ⟨before, inside, after, rfl, blank_before, spelled, blank_after⟩ := h
  have reads : Phrase.Reads options inside (.value v) := spelled.reads
  have delimited : Delimited after := by
    rw [← List.append_nil after]
    exact delimited_append blank_after delimited_nil
  have last : (past options []).tokens? [] = some [.done] := by
    rw [tokens?_nil]
    rfl
  show (between options []).tokens? _ = _
  rw [tokens?_blank rfl blank_before, reads [] after trivial delimited, ← List.append_nil after,
    tokens?_blank rfl blank_after, last]
  rfl

end JsonStream
