import JsonStream.Proofs.Grammar.Completeness
import JsonStream.Proofs.Grammar.Standing

/-!
# A text leads to one place only

The grammar is not ambiguous between tokens: a text leads to one place at most, inside the same
containers. A machine tells two places apart by what it accepts after them, as every byte that a
place allows can be completed to a document.

* `Place.eq_of_marks`: places are told apart by the marks that they allow.
* `Upto.reads`: a text that leads to a place leads a machine there.
* `Upto.exists_accepted`: every place can be completed.
* `Upto.unique`: there is only one place.
-/

namespace JsonStream

open Machine

/-! ### Marks -/

/-- The only bytes that both delimit a scalar and start a value are a bracket, a brace and a
quote. -/
theorem startsValue_iff_mem {byte : UInt8} (ends : Byte.endsScalar byte = true) :
    StartsValue byte ↔ byte ∈ [Byte.openBracket, Byte.openBrace, Byte.quote] := by
  have other : ∀ lexicon : Lexicon, ¬lexicon.Head byte := by
    intro lexicon head
    cases lexicon with
    | number =>
      rcases head with rfl | digit
      · contradiction
      · simp [Byte.endsScalar, digit] at ends
    | keyword k =>
      obtain rfl : byte = k.head := head
      cases k <;> contradiction
  simp [startsValue_iff, other]

namespace Place

variable {place place' : Place} {inside inside' : Option Container} {byte : UInt8}

/-- The marks that a place allows: brackets, braces, quotes, commas and colons. -/
def marks : Place → Option Container → Bytes
  | value, _ => [Byte.openBracket, Byte.openBrace, Byte.quote]
  | firstElement, _ => [Byte.openBracket, Byte.openBrace, Byte.quote, Byte.closeBracket]
  | firstKey, _ => [Byte.quote, Byte.closeBrace]
  | key, _ => [Byte.quote]
  | colon, _ => [Byte.colon]
  | after, some c => [Byte.comma, c.closing]
  | after, none => []

theorem delimits_of_mem_marks (mark : byte ∈ place.marks inside) :
    Byte.endsScalar byte = true ∧ Byte.isWhitespace byte = false := by
  have all : (place.marks inside).all
      (fun mark => Byte.endsScalar mark && !Byte.isWhitespace mark) = true := by
    rcases inside with _ | _ | _ <;> cases place <;> rfl
  simpa using List.all_eq_true.1 all byte mark

/-- Marks are the bytes that a place allows and that delimit a scalar. -/
theorem mem_marks_iff (ends : Byte.endsScalar byte = true) :
    byte ∈ place.marks inside ↔ place.Allows inside byte := by
  cases place with
  | value => exact (startsValue_iff_mem ends).symm
  | firstElement =>
    simp only [marks, Allows, startsValue_iff_mem ends, List.mem_cons, List.not_mem_nil, or_false,
      or_assoc]
  | after => cases inside <;> simp [marks, Allows]
  | firstKey | key | colon => simp [marks, Allows]

/-- The place that allows some marks, and after a value the container that they can close. -/
def ofMarks (marks : Bytes) : Place × Option Container :=
  if Byte.openBracket ∈ marks then
    (if Byte.closeBracket ∈ marks then firstElement else value, none)
  else if Byte.quote ∈ marks then (if Byte.closeBrace ∈ marks then firstKey else key, none)
  else if Byte.colon ∈ marks then (colon, none)
  else if Byte.closeBracket ∈ marks then (after, some .array)
  else if Byte.closeBrace ∈ marks then (after, some .object)
  else (after, none)

theorem ofMarks_marks (place : Place) (inside : Option Container) :
    ofMarks (place.marks inside) = (place, if place = after then inside else none) := by
  rcases inside with _ | _ | _ <;> cases place <;> rfl

/-- **Places are told apart by their marks.** -/
theorem eq_of_marks (same : ∀ byte, byte ∈ place.marks inside ↔ byte ∈ place'.marks inside') :
    place = place' ∧ (place = .after → inside = inside') := by
  have read : ofMarks (place.marks inside) = ofMarks (place'.marks inside') := by
    simp only [ofMarks, same]
  rw [ofMarks_marks, ofMarks_marks] at read
  obtain ⟨rfl, container⟩ := Prod.mk.inj read
  refine ⟨rfl, ?_⟩
  rintro rfl
  simpa using container

end Place

namespace Upto

variable {options : ReaderOptions} {place place' : Place} {c : Container}
  {opened opened' : List Container} {text : Bytes} {byte : UInt8}

/-! ### Reading up to a place -/

/-- **A text that leads to a place leads a machine there.** After a value it has to be delimited, as
the last scalar may go on otherwise. -/
theorem reads (h : Upto options.dialect place opened text) :
    ∃ m tokens, At options place opened m ∧ ∀ rest, (place = .after → Delimited rest) →
      ({ options } : Machine).tokens? (text ++ rest) = (m.tokens? rest).map (tokens ++ ·) := by
  induction h with
  | start =>
    refine ⟨_, [], .root, fun rest _ => ?_⟩
    show _ = (({ options } : Machine).tokens? rest).map id
    rw [Option.map_id, id_eq, List.nil_append]
  | blank upto isBlank ih =>
    obtain ⟨m, tokens, stands, reads⟩ := ih
    refine ⟨m, tokens, stands, fun rest delimited => ?_⟩
    rw [List.append_assoc, reads _ fun after => delimited_append isBlank (delimited after),
      tokens?_blank stands.unfinished_eq isBlank]
  | @opening place opened text upto takes c ih =>
    obtain ⟨m, tokens, stands, reads⟩ := ih
    obtain ⟨token, next, step, inside⟩ := stands.step_opening takes c
    refine ⟨next, tokens ++ [token], inside, fun rest _ => ?_⟩
    rw [List.append_assoc, List.singleton_append, reads _ fun after => absurd after takes.ne_after,
      tokens?_emit step, Option.map_map]
    congr 1
    funext tail
    simp
  | @value place opened text bytes v upto takes spelled ih =>
    obtain ⟨m, tokens, stands, reads⟩ := ih
    obtain ⟨frames, rfl, due, around⟩ := stands.exists_frames takes
    have reads_value : Phrase.Reads options bytes (.value v) := spelled.reads
    refine ⟨past options (opened.map Container.frame), tokens ++ v.flatten, .after opened,
      fun rest delimited => ?_⟩
    rw [List.append_assoc, reads _ fun after => absurd after takes.ne_after,
      reads_value frames rest due (delimited rfl), ← past_started, around, Option.map_map]
    congr 1
    funext tail
    simp
  | comma upto ih =>
    obtain ⟨m, tokens, stands, reads⟩ := ih
    obtain ⟨next, step, stands⟩ := stands.step_comma
    refine ⟨next, tokens, stands, fun rest _ => ?_⟩
    rw [List.append_assoc, List.singleton_append, reads _ fun _ => delimited_cons_iff.2 rfl,
      tokens?_advance step]
  | @key place opened text bytes name upto takes named ih =>
    obtain ⟨m, tokens, stands, reads⟩ := ih
    obtain ⟨outer, slot, rfl, slot_eq, rfl⟩ := stands.exists_object takes
    obtain ⟨body, rfl, read⟩ := string_complete
      (m := Machine.between options (.object .key :: outer.map Container.frame)) named
    refine ⟨_, tokens ++ [.key name], .colon outer, fun rest _ => ?_⟩
    rw [List.append_assoc, reads _ fun after => absurd after takes.ne_after, List.cons_append,
      tokens?_quote_object slot_eq, read, Option.map_map]
    congr 1
    funext tail
    simp
    rfl
  | colon upto ih =>
    obtain ⟨m, tokens, stands, reads⟩ := ih
    obtain ⟨next, step, stands⟩ := stands.step_colon
    refine ⟨next, tokens, stands, fun rest _ => ?_⟩
    rw [List.append_assoc, List.singleton_append, reads _ nofun, tokens?_advance step]

/-- **Every place can be completed** to a document. -/
theorem exists_accepted (h : Upto options.dialect place opened text) :
    ∃ rest tokens, ({ options } : Machine).tokens? (text ++ rest) = some tokens := by
  obtain ⟨m, told, stands, reads⟩ := h.reads
  obtain ⟨rest, tokens, delimited, accepted⟩ : m.Completable := by
    cases stands with
    | after => exact completable_past options _
    | _ => exact completable_between options _
  refine ⟨rest, told ++ tokens, ?_⟩
  rw [reads rest fun _ => delimited, accepted]
  rfl

/-! ### There is only one place -/

/-- The first element stands in an array, and the first key in an object. -/
theorem exists_outer (h : Upto options.dialect place opened text) :
    (place = .firstElement → ∃ outer, opened = .array :: outer) ∧
      (place = .firstKey → ∃ outer, opened = .object :: outer) := by
  obtain ⟨m, told, stands, -⟩ := h.reads
  cases stands <;> simp

/-- A mark that a place allows leads on to another place. -/
theorem exists_longer (h : Upto options.dialect place opened text)
    (mark : byte ∈ place.marks opened.head?) :
    ∃ more next containers, Upto options.dialect next containers (text ++ byte :: more) := by
  have quotes := stringText_empty options.dialect
  have value (takes : place.TakesValue)
      (starts : byte ∈ [Byte.openBracket, Byte.openBrace, Byte.quote]) :
      ∃ more next containers, Upto options.dialect next containers (text ++ byte :: more) := by
    simp only [List.mem_cons, List.not_mem_nil, or_false] at starts
    rcases starts with rfl | rfl | rfl
    · exact ⟨[], _, _, h.opening takes .array⟩
    · exact ⟨[], _, _, h.opening takes .object⟩
    · exact ⟨[Byte.quote], _, _, h.value takes (.string quotes)⟩
  cases place with
  | value => exact value (.inl rfl) mark
  | firstElement =>
    obtain ⟨outer, rfl⟩ := h.exists_outer.1 rfl
    rcases List.mem_append.1 (show byte ∈ [Byte.openBracket, Byte.openBrace, Byte.quote] ++
      [Byte.closeBracket] from mark) with starts | closes
    · exact value (.inr rfl) starts
    · obtain rfl := List.mem_singleton.1 closes
      exact ⟨[], _, _, h.closing (.inl rfl)⟩
  | firstKey =>
    obtain ⟨outer, rfl⟩ := h.exists_outer.2 rfl
    rcases List.mem_pair.1 mark with rfl | rfl
    · exact ⟨[Byte.quote], _, _, h.key (.inr rfl) quotes⟩
    · exact ⟨[], _, _, h.closing (.inl rfl)⟩
  | key =>
    obtain rfl := List.mem_singleton.1 mark
    exact ⟨[Byte.quote], _, _, h.key (.inl rfl) quotes⟩
  | colon =>
    obtain rfl := List.mem_singleton.1 mark
    exact ⟨[], _, _, h.colon⟩
  | after =>
    cases opened with
    | nil => exact absurd mark List.not_mem_nil
    | cons c outer =>
      rcases List.mem_pair.1 mark with rfl | rfl
      · exact ⟨[], _, _, h.comma⟩
      · exact ⟨[], _, _, h.closing (.inr rfl)⟩

/-- Two places after one text allow the same marks. -/
theorem marks_subset (h : Upto options.dialect place opened text)
    (h' : Upto options.dialect place' opened' text) (mark : byte ∈ place.marks opened.head?) :
    byte ∈ place'.marks opened'.head? := by
  obtain ⟨ends, space⟩ := Place.delimits_of_mem_marks mark
  obtain ⟨more, _, _, longer⟩ := h.exists_longer mark
  obtain ⟨rest, tokens, accepted⟩ := longer.exists_accepted
  obtain ⟨m, told, stands, reads⟩ := h'.reads
  rw [List.append_assoc, List.cons_append, reads _ fun _ => delimited_cons_iff.2 ends] at accepted
  rw [Place.mem_marks_iff ends]
  by_contra refused
  rw [tokens?_fail (stands.step_refused (not_blank_iff.2 space) refused)] at accepted
  contradiction

theorem place_unique (h : Upto options.dialect place opened text)
    (h' : Upto options.dialect place' opened' text) :
    place = place' ∧ (place = .after → opened.head? = opened'.head?) :=
  Place.eq_of_marks fun _ => ⟨h.marks_subset h', h'.marks_subset h⟩

/-- After a value, the open containers are those that can be closed. -/
theorem after_unique (h : Upto options.dialect .after opened text)
    (h' : Upto options.dialect .after opened' text) : opened = opened' := by
  induction opened generalizing opened' text with
  | nil => simpa [eq_comm] using (h.place_unique h').2 rfl
  | cons c outer ih =>
    have head := (h.place_unique h').2 rfl
    cases opened' with
    | nil => contradiction
    | cons c' outer' =>
      obtain rfl : c = c' := by simpa using head
      rw [ih (h.closing (.inr rfl)) (h'.closing (.inr rfl))]

/-- From every place on, some bytes lead to the end of a value inside the same containers. -/
theorem exists_after (d : Dialect) (place : Place) :
    ∃ more, ∀ opened text, Upto d place opened text → Upto d .after opened (text ++ more) := by
  have quotes := stringText_empty d
  have colon (opened : List Container) (text : Bytes) (h : Upto d .colon opened text) :
      Upto d .after opened (text ++ [Byte.colon, Byte.quote, Byte.quote]) := by
    simpa using h.colon.value (.inl rfl) (.string quotes)
  have key {place : Place} (takes : place.TakesKey) (opened : List Container) (text : Bytes)
      (h : Upto d place opened text) :
      Upto d .after opened
        (text ++ ([Byte.quote, Byte.quote] ++ [Byte.colon, Byte.quote, Byte.quote])) := by
    rw [← List.append_assoc]
    exact colon _ _ (h.key takes quotes)
  cases place with
  | value => exact ⟨_, fun _ _ h => h.value (.inl rfl) (.string quotes)⟩
  | firstElement => exact ⟨_, fun _ _ h => h.value (.inr rfl) (.string quotes)⟩
  | firstKey => exact ⟨_, key (.inr rfl)⟩
  | key => exact ⟨_, key (.inl rfl)⟩
  | colon => exact ⟨_, colon⟩
  | after => exact ⟨[], fun _ _ h => by rwa [List.append_nil]⟩

/-- **A text leads to one place only**, inside the same containers. -/
theorem unique (h : Upto options.dialect place opened text)
    (h' : Upto options.dialect place' opened' text) : place' = place ∧ opened' = opened := by
  obtain ⟨rfl, -⟩ := h.place_unique h'
  obtain ⟨more, after⟩ := exists_after options.dialect place
  exact ⟨rfl, (after_unique (after _ _ h) (after _ _ h')).symm⟩

end Upto

end JsonStream
