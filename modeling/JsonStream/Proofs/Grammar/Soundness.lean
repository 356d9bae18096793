import JsonStream.Proofs.Grammar.Structure

/-!
# What is read is spelled by the grammar

From a run that accepts the rest of a document, the text of the next value is cut off: the machine
reports its tokens and then stands where the value is complete. The cut goes by the length of the
input, as the text of a value has the texts of its elements inside.

* `Machine.sound`: values, elements and members at once.
* `Machine.exists_document`: an accepted document is one of the grammar.
-/

namespace JsonStream

namespace Machine

/-- The input starts with the text of a value, the tokens with the tokens of that value, and the
rest is read after it. -/
def StartsWithValue (options : ReaderOptions) (frames : List Frame) (input : Bytes)
    (tokens : List Token) : Prop :=
  ∃ v bytes rest more, input = bytes ++ rest ∧ bytes ≠ [] ∧
    Spells options.dialect (.value v) bytes ∧ tokens = v.flatten ++ more ∧
      (past options frames).tokens? rest = some more

/-- Where a value is due, the input starts with the text of one. -/
def ValueSound (options : ReaderOptions) (input : Bytes) : Prop :=
  ∀ byte after frames tokens, input = byte :: after → TakesValue frames →
    (between options frames).step byte = (between options frames).stepValue byte →
    (between options frames).tokens? input = some tokens →
    StartsWithValue options frames input tokens

/-- The input starts with what closes an empty container. -/
def Closes (options : ReaderOptions) (outer : List Frame) (close : UInt8) (token : Token)
    (input : Bytes) (tokens : List Token) : Prop :=
  ∃ blank rest more, input = blank ++ close :: rest ∧ Blank blank ∧ tokens = token :: more ∧
    (past options outer).tokens? rest = some more

/-- Inside an array, the input starts with elements and the closing bracket. -/
def ElementsSound (options : ReaderOptions) (input : Bytes) : Prop :=
  ∀ slot outer tokens, slot ≠ .separator →
    (between options (.array slot :: outer)).tokens? input = some tokens →
    (slot = .first ∧ Closes options outer Byte.closeBracket .endArray input tokens) ∨
      ∃ elements bytes rest more, input = bytes ++ Byte.closeBracket :: rest ∧
        Spells options.dialect (.elements elements) bytes ∧
          tokens = Value.flattenElements elements ++ .endArray :: more ∧
            (past options outer).tokens? rest = some more

/-- Inside an object, the input starts with members and the closing brace. -/
def MembersSound (options : ReaderOptions) (input : Bytes) : Prop :=
  ∀ slot outer tokens, slot = .first ∨ slot = .key →
    (between options (.object slot :: outer)).tokens? input = some tokens →
    (slot = .first ∧ Closes options outer Byte.closeBrace .endObject input tokens) ∨
      ∃ members bytes rest more, input = bytes ++ Byte.closeBrace :: rest ∧
        Spells options.dialect (.members members) bytes ∧
          tokens = Value.flattenMembers members ++ .endObject :: more ∧
            (past options outer).tokens? rest = some more

variable {options : ReaderOptions} {frames outer : List Frame} {input rest : Bytes}
  {byte : UInt8} {tokens : List Token}

/-! ### Cutting off white space -/

theorem tokens?_between_nil (options : ReaderOptions) (frames : List Frame) :
    (between options frames).tokens? [] = none := by
  have unfinished : ¬((between options frames).frames = [] ∧
      (between options frames).root = .afterValue) := fun h => nomatch h.2
  rw [tokens?_nil, finish_of_nothing rfl, documentEnd, if_neg unfinished]
  rfl

/-- Between tokens there is white space, and then a byte that is none. -/
theorem exists_byte (h : (between options frames).tokens? input = some tokens) :
    ∃ blank byte rest, input = blank ++ byte :: rest ∧ Blank blank ∧
      Byte.isWhitespace byte = false ∧
        (between options frames).tokens? (byte :: rest) = some tokens := by
  obtain ⟨blank, rest, rfl, isBlank, stop⟩ := exists_blank input
  rw [tokens?_blank rfl isBlank] at h
  cases rest with
  | nil =>
    rw [tokens?_between_nil] at h
    contradiction
  | cons byte rest => exact ⟨blank, byte, rest, rfl, isBlank, stop byte rfl, h⟩

/-- After an element there is a comma or the closing bracket. -/
theorem separator_array
    (h : (between options (.array .separator :: outer)).tokens? input = some tokens) :
    ∃ blank rest, Blank blank ∧
      ((input = blank ++ Byte.comma :: rest ∧
          (between options (.array .value :: outer)).tokens? rest = some tokens) ∨
        input = blank ++ Byte.closeBracket :: rest ∧ ∃ more, tokens = .endArray :: more ∧
          (past options outer).tokens? rest = some more) := by
  obtain ⟨blank, byte, rest, rfl, isBlank, space, read⟩ := exists_byte h
  refine ⟨blank, rest, isBlank, ?_⟩
  by_cases comma : byte = Byte.comma
  · subst comma
    rw [tokens?_comma_array] at read
    exact .inl ⟨rfl, read⟩
  by_cases close : byte = Byte.closeBracket
  · subst close
    rw [tokens?_closeArray (by decide)] at read
    obtain ⟨more, after, same⟩ := Option.map_eq_some_iff.1 read
    exact .inr ⟨rfl, more, same.symm, after⟩
  · have step : (between options (.array .separator :: outer)).step byte =
        .fail .expectedCommaOrArrayEnd := by
      rw [step_between space]
      exact (if_neg comma).trans (if_neg close)
    rw [tokens?_fail step] at read
    contradiction

/-- After a member there is a comma or the closing brace. -/
theorem separator_object
    (h : (between options (.object .separator :: outer)).tokens? input = some tokens) :
    ∃ blank rest, Blank blank ∧
      ((input = blank ++ Byte.comma :: rest ∧
          (between options (.object .key :: outer)).tokens? rest = some tokens) ∨
        input = blank ++ Byte.closeBrace :: rest ∧ ∃ more, tokens = .endObject :: more ∧
          (past options outer).tokens? rest = some more) := by
  obtain ⟨blank, byte, rest, rfl, isBlank, space, read⟩ := exists_byte h
  refine ⟨blank, rest, isBlank, ?_⟩
  by_cases comma : byte = Byte.comma
  · subst comma
    rw [tokens?_comma_object] at read
    exact .inl ⟨rfl, read⟩
  by_cases close : byte = Byte.closeBrace
  · subst close
    rw [tokens?_closeObject (.inr rfl)] at read
    obtain ⟨more, after, same⟩ := Option.map_eq_some_iff.1 read
    exact .inr ⟨rfl, more, same.symm, after⟩
  · have step : (between options (.object .separator :: outer)).step byte =
        .fail .expectedCommaOrObjectEnd := by
      rw [step_between space]
      exact (if_neg comma).trans (if_neg close)
    rw [tokens?_fail step] at read
    contradiction

/-- After a key there is a colon. -/
theorem colon_sound
    (h : (between options (.object .colon :: outer)).tokens? input = some tokens) :
    ∃ blank rest, input = blank ++ Byte.colon :: rest ∧ Blank blank ∧
      (between options (.object .value :: outer)).tokens? rest = some tokens := by
  obtain ⟨blank, byte, rest, rfl, isBlank, space, read⟩ := exists_byte h
  by_cases colon : byte = Byte.colon
  · subst colon
    rw [tokens?_colon] at read
    exact ⟨blank, rest, rfl, isBlank, read⟩
  · have step : (between options (.object .colon :: outer)).step byte = .fail .expectedColon := by
      rw [step_between space]
      exact if_neg colon
    rw [tokens?_fail step] at read
    contradiction

/-! ### Values -/

/-- A keyword is read where its first byte starts a value. -/
theorem sound_keyword (word : Keyword) {after : Bytes}
    (step : (between options frames).step word.head =
      (between options frames).stepValue word.head)
    (h : (between options frames).tokens? (word.head :: after) = some tokens) :
    StartsWithValue options frames (word.head :: after) tokens := by
  rw [tokens?_advance (step.trans (stepValue_keyword word))] at h
  obtain ⟨rest, more, rfl, -, rfl, read⟩ := keyword_sound h
  rw [endScalar_started] at read
  cases word with
  | null => exact ⟨.null, _, rest, more, rfl, List.cons_ne_nil _ _, .null, rfl, read⟩
  | true => exact ⟨.bool Bool.true, _, rest, more, rfl, List.cons_ne_nil _ _, .true, rfl, read⟩
  | false => exact ⟨.bool Bool.false, _, rest, more, rfl, List.cons_ne_nil _ _, .false, rfl, read⟩

theorem sound_number {phase : Number.Phase} {after : Bytes}
    (start : Number.Phase.start? byte = some phase)
    (step : (between options frames).step byte = (between options frames).stepValue byte)
    (h : (between options frames).tokens? (byte :: after) = some tokens) :
    StartsWithValue options frames (byte :: after) tokens := by
  rw [tokens?_advance (step.trans (stepValue_number start))] at h
  obtain ⟨bytes, rest, text, token, more, rfl, accepts, -, same, literal, rfl, read⟩ :=
    number_sound h
  rw [endScalar_started] at read
  obtain ⟨n, rfl⟩ := exists_numeral literal
  have number : NumberText (byte :: bytes) :=
    Number.Phase.accepts_iff.1 ⟨phase, start, accepts⟩
  exact ⟨.number n, byte :: bytes, rest, more, rfl, List.cons_ne_nil _ _,
    .number ⟨number, text, same, literal⟩, rfl, read⟩

theorem sound_string {after : Bytes} (takes : TakesValue frames)
    (h : (between options frames).tokens? (Byte.quote :: after) = some tokens) :
    StartsWithValue options frames (Byte.quote :: after) tokens := by
  have step := (step_takesValue options takes (by decide) (by decide)).trans
    stepValue_quote
  rw [tokens?_advance step] at h
  obtain ⟨text, body, rest, more, rfl, literal, rfl, read⟩ := string_sound h
  rw [endScalar_started] at read
  rw [stringToken_started takes]
  exact ⟨.string text, Byte.quote :: body, rest, more, rfl, List.cons_ne_nil _ _,
    .string literal, rfl, read⟩

theorem sound_array {after : Bytes} (takes : TakesValue frames)
    (inside : ElementsSound options after)
    (h : (between options frames).tokens? (Byte.openBracket :: after) = some tokens) :
    StartsWithValue options frames (Byte.openBracket :: after) tokens := by
  have step := (step_takesValue options takes (by decide) (by decide)).trans
    stepValue_openBracket
  rw [tokens?_emit step] at h
  obtain ⟨tail, found, rfl⟩ := Option.map_eq_some_iff.1 h
  rcases inside .first _ _ (by decide) found with
    ⟨-, blank, rest, more, rfl, isBlank, rfl, read⟩ |
      ⟨elements, bytes, rest, more, rfl, spelled, rfl, read⟩
  · rw [past_started] at read
    refine ⟨.array [], _, rest, more, ?_, List.cons_ne_nil _ _, .emptyArray isBlank, rfl, read⟩
    rw [List.cons_append, List.append_assoc]
    rfl
  · rw [past_started] at read
    refine ⟨.array elements, _, rest, more, ?_, List.cons_ne_nil _ _, .array spelled, ?_, read⟩
    · rw [List.cons_append, List.append_assoc]
      rfl
    · rw [Value.flatten, List.cons_append, List.append_assoc]
      rfl

theorem sound_object {after : Bytes} (takes : TakesValue frames)
    (inside : MembersSound options after)
    (h : (between options frames).tokens? (Byte.openBrace :: after) = some tokens) :
    StartsWithValue options frames (Byte.openBrace :: after) tokens := by
  have step := (step_takesValue options takes (by decide) (by decide)).trans
    stepValue_openBrace
  rw [tokens?_emit step] at h
  obtain ⟨tail, found, rfl⟩ := Option.map_eq_some_iff.1 h
  rcases inside .first _ _ (.inl rfl) found with
    ⟨-, blank, rest, more, rfl, isBlank, rfl, read⟩ |
      ⟨members, bytes, rest, more, rfl, spelled, rfl, read⟩
  · rw [past_started] at read
    refine ⟨.object [], _, rest, more, ?_, List.cons_ne_nil _ _, .emptyObject isBlank, rfl, read⟩
    rw [List.cons_append, List.append_assoc]
    rfl
  · rw [past_started] at read
    refine ⟨.object members, _, rest, more, ?_, List.cons_ne_nil _ _, .object spelled, ?_, read⟩
    · rw [List.cons_append, List.append_assoc]
      rfl
    · rw [Value.flatten, List.cons_append, List.append_assoc]
      rfl

/-- Values, from what stands inside of shorter containers. -/
theorem valueSound_of_inside
    (inside : ∀ after, after.length < input.length →
      ElementsSound options after ∧ MembersSound options after) :
    ValueSound options input := by
  rintro byte after frames tokens rfl takes step h
  obtain ⟨elements, members⟩ := inside after (Nat.lt_succ_self _)
  rcases stepValue_cases (between options frames) byte with
    rfl | rfl | rfl | ⟨phase, start⟩ | ⟨word, rfl⟩ | refused
  · exact sound_array takes elements h
  · exact sound_object takes members h
  · exact sound_string takes h
  · exact sound_number start step h
  · exact sound_keyword word step h
  · rw [tokens?_fail (step.trans refused)] at h
    contradiction

/-! ### Elements and members -/

/-- Elements, from values that are no longer and from further elements that are shorter. -/
theorem elementsSound_of
    (value : ∀ after, after.length ≤ input.length → ValueSound options after)
    (more : ∀ after, after.length < input.length → ElementsSound options after) :
    ElementsSound options input := by
  intro slot outer tokens inside h
  obtain ⟨before, byte, after, rfl, blank_before, space, read⟩ := exists_byte h
  by_cases closes : slot = .first ∧ byte = Byte.closeBracket
  · obtain ⟨rfl, rfl⟩ := closes
    rw [tokens?_closeArray (by decide)] at read
    obtain ⟨tail, rest, same⟩ := Option.map_eq_some_iff.1 read
    exact .inl ⟨rfl, before, after, tail, rfl, blank_before, same.symm, rest⟩
  refine .inr ?_
  have step : (between options (.array slot :: outer)).step byte =
      (between options (.array slot :: outer)).stepValue byte :=
    step_element inside space fun first close => closes ⟨first, close⟩
  have shorter : (byte :: after).length ≤ (before ++ byte :: after).length := by
    rw [List.length_append]
    omega
  obtain ⟨v, bytes, rest, tail, split, nonempty, spelled, rfl, past_value⟩ :=
    value _ shorter byte after _ _ rfl (takesValue_array inside outer) step read
  obtain ⟨blank, further, isBlank, ⟨rfl, next⟩ | ⟨rfl, last, rfl, closed⟩⟩ :=
    separator_array past_value
  · have less : further.length < (before ++ byte :: after).length := by
      rw [split, List.length_append, List.length_append, List.length_append, List.length_cons]
      omega
    rcases more further less .value outer tail (by decide) next with
      ⟨first, -⟩ | ⟨elements, inner, rest, last, rfl, spelled', rfl, closed⟩
    · contradiction
    · refine ⟨v :: elements, before ++ (bytes ++ (blank ++ Byte.comma :: inner)), rest, last, ?_,
        ?_, ?_, closed⟩
      · rw [split]
        simp only [List.append_assoc, List.cons_append]
      · exact .element blank_before spelled isBlank spelled'
      · rw [Value.flattenElements, List.append_assoc]
  · refine ⟨[v], before ++ (bytes ++ blank), further, last, ?_, ?_, ?_, closed⟩
    · rw [split, List.append_assoc, List.append_assoc]
    · exact .lastElement blank_before spelled isBlank
    · rw [Value.flattenElements, Value.flattenElements, List.append_nil]

/-- A key and its colon, where an object takes a key. -/
theorem key_sound {slot : ObjectSlot} (inside : slot = .first ∨ slot = .key)
    (h : (between options (.object slot :: outer)).tokens? input = some tokens) :
    (slot = .first ∧ Closes options outer Byte.closeBrace .endObject input tokens) ∨
      ∃ key bytes rest more, input = bytes ++ rest ∧ KeyText options.dialect key bytes ∧
        bytes ≠ [] ∧ tokens = .key key :: more ∧
          (between options (.object .value :: outer)).tokens? rest = some more := by
  obtain ⟨before, byte, after, rfl, blank_before, space, read⟩ := exists_byte h
  by_cases quote : byte = Byte.quote
  · subst quote
    rw [tokens?_quote_object inside] at read
    obtain ⟨key, body, rest, more, rfl, literal, rfl, colon⟩ := string_sound read
    obtain ⟨blank, rest, rfl, isBlank, value⟩ := colon_sound colon
    refine .inr ⟨key, before ++ (Byte.quote :: body ++ (blank ++ [Byte.colon])), rest, more, ?_,
      ⟨before, _, blank, rfl, blank_before, literal, isBlank⟩, ?_, rfl, value⟩
    · simp only [List.append_assoc, List.cons_append, List.nil_append]
    · simp only [ne_eq, List.append_eq_nil_iff, List.cons_ne_nil, and_false,
        not_false_eq_true]
  · by_cases closes : slot = .first ∧ byte = Byte.closeBrace
    · obtain ⟨rfl, rfl⟩ := closes
      rw [tokens?_closeObject (.inl rfl)] at read
      obtain ⟨tail, rest, same⟩ := Option.map_eq_some_iff.1 read
      exact .inl ⟨rfl, before, after, tail, rfl, blank_before, same.symm, rest⟩
    · have step : (between options (.object slot :: outer)).step byte = .fail .expectedString := by
        rw [step_between space]
        rcases inside with rfl | rfl
        · exact (if_neg quote).trans (if_neg fun close => closes ⟨rfl, close⟩)
        · exact if_neg quote
      rw [tokens?_fail step] at read
      contradiction

/-- Members, from values and further members that are shorter. -/
theorem membersSound_of
    (value : ∀ after, after.length < input.length → ValueSound options after)
    (more : ∀ after, after.length < input.length → MembersSound options after) :
    MembersSound options input := by
  intro slot outer tokens inside h
  rcases key_sound inside h with
    closes | ⟨key, name, rest, tail, rfl, named, nonempty, rfl, after_key⟩
  · exact .inl closes
  refine .inr ?_
  obtain ⟨before, byte, after, rfl, blank_before, space, read⟩ := exists_byte after_key
  have step : (between options (.object .value :: outer)).step byte =
      (between options (.object .value :: outer)).stepValue byte :=
    step_between space
  have shorter : (byte :: after).length < (name ++ (before ++ byte :: after)).length := by
    have positive := List.length_pos_iff.2 nonempty
    rw [List.length_append, List.length_append]
    omega
  obtain ⟨v, bytes, rest, tail, split, -, spelled, rfl, past_value⟩ :=
    value _ shorter byte after (.object .value :: outer) _ rfl trivial step read
  obtain ⟨blank, further, isBlank, ⟨rfl, next⟩ | ⟨rfl, last, rfl, closed⟩⟩ :=
    separator_object past_value
  · have less : further.length < (name ++ (before ++ byte :: after)).length := by
      rw [split, List.length_append, List.length_append, List.length_append, List.length_append,
        List.length_cons]
      omega
    rcases more further less .key outer tail (.inr rfl) next with
      ⟨first, -⟩ | ⟨members, inner, rest, last, rfl, spelled', rfl, closed⟩
    · contradiction
    · refine ⟨(key, v) :: members, name ++ (before ++ (bytes ++ (blank ++ Byte.comma :: inner))),
        rest, last, ?_, ?_, ?_, closed⟩
      · rw [split]
        simp only [List.append_assoc, List.cons_append]
      · exact .member named blank_before spelled isBlank spelled'
      · rw [Value.flattenMembers, List.cons_append, List.append_assoc]
  · refine ⟨[(key, v)], name ++ (before ++ (bytes ++ blank)), further, last, ?_, ?_, ?_, closed⟩
    · rw [split]
      simp only [List.append_assoc]
    · exact .lastMember named blank_before spelled isBlank
    · rw [Value.flattenMembers, Value.flattenMembers, List.append_nil]
      rfl

/-- **What is read is spelled by the grammar.** -/
theorem sound (options : ReaderOptions) (n : Nat) :
    ∀ input : Bytes, input.length ≤ n →
      ValueSound options input ∧ ElementsSound options input ∧ MembersSound options input := by
  induction n with
  | zero =>
    intro input empty
    cases List.length_eq_zero_iff.1 (Nat.le_zero.1 empty)
    refine ⟨?_, ?_, ?_⟩
    · intro byte after frames tokens cons
      contradiction
    · intro slot outer tokens _ h
      rw [tokens?_between_nil] at h
      contradiction
    · intro slot outer tokens _ h
      rw [tokens?_between_nil] at h
      contradiction
  | succ n ih =>
    have value : ∀ input : Bytes, input.length ≤ n + 1 → ValueSound options input := by
      intro input bound
      exact valueSound_of_inside fun after shorter => (ih after (by omega)).2
    intro input bound
    refine ⟨value input bound, ?_, ?_⟩
    · exact elementsSound_of (fun after le => value after (by omega))
        fun after less => (ih after (by omega)).2.1
    · exact membersSound_of (fun after less => value after (by omega))
        fun after less => (ih after (by omega)).2.2

/-! ### Documents -/

/-- After the root value only white space is accepted. -/
theorem blank_of_past (h : (past options []).tokens? input = some tokens) :
    Blank input ∧ tokens = [.done] := by
  obtain ⟨blank, rest, rfl, isBlank, stop⟩ := exists_blank input
  rw [tokens?_blank rfl isBlank] at h
  cases rest with
  | nil =>
    rw [tokens?_nil] at h
    cases h
    rw [List.append_nil]
    exact ⟨isBlank, rfl⟩
  | cons byte rest =>
    have space : ¬Byte.isWhitespace byte = true := Bool.eq_false_iff.1 (stop byte rfl)
    have step : (past options []).step byte = .fail .unexpectedCharacter := if_neg space
    rw [tokens?_fail step] at h
    contradiction

/-- **An accepted document is one of the grammar.** -/
theorem exists_document (h : ({ options } : Machine).tokens? input = some tokens) :
    ∃ v, Document options.dialect v input ∧ tokens = v.flatten ++ [.done] := by
  replace h : (between options []).tokens? input = some tokens := h
  obtain ⟨before, byte, after, rfl, blank_before, space, read⟩ := exists_byte h
  have step : (between options []).step byte = (between options []).stepValue byte :=
    step_between space
  obtain ⟨v, bytes, rest, more, split, -, spelled, rfl, past_value⟩ :=
    (sound options _ (byte :: after) (Nat.le_refl _)).1 byte after [] tokens rfl trivial step read
  obtain ⟨isBlank, rfl⟩ := blank_of_past past_value
  exact ⟨v, ⟨before, bytes, rest, by rw [split], blank_before, spelled, isBlank⟩, rfl⟩

end Machine

end JsonStream
