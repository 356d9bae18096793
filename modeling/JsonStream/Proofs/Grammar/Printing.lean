import JsonStream.Proofs.Acceptance
import JsonStream.Proofs.Writer.Layout

/-!
# Printed values are spelled by the grammar

What a writer prints for the tokens of a value is a text of the value. Numbers may be spelled as
other numbers than they have been reported as, so the value that is spelled has its numbers
replaced.

* `Value.spells_print`: the text of a value.
* `Value.prints_document`: the text of a document.
-/

namespace JsonStream

/-! ### Replacing numbers -/

/-- The token with its number replaced, if it is one. -/
def Token.map (f : Numeral → Numeral) : Token → Token
  | .integer value => (f (.integer value)).token
  | .number value => (f (.other value)).token
  | token => token

theorem Token.map_token (f : Numeral → Numeral) (n : Numeral) : n.token.map f = (f n).token := by
  cases n <;> rfl

namespace Value

mutual

/-- The value with its numbers replaced. -/
def map (f : Numeral → Numeral) : Value → Value
  | .null => .null
  | .bool value => .bool value
  | .number value => .number (f value)
  | .string text => .string text
  | .array elements => .array (mapElements f elements)
  | .object members => .object (mapMembers f members)

/-- The values with their numbers replaced. -/
def mapElements (f : Numeral → Numeral) : List Value → List Value
  | [] => []
  | v :: elements => v.map f :: mapElements f elements

/-- The members with the numbers of their values replaced. -/
def mapMembers (f : Numeral → Numeral) : List (String × Value) → List (String × Value)
  | [] => []
  | (key, v) :: members => (key, v.map f) :: mapMembers f members

end

mutual

/-- Replacing numbers replaces their tokens. -/
theorem flatten_map (f : Numeral → Numeral) :
    ∀ v : Value, (v.map f).flatten = v.flatten.map (Token.map f)
  | .null | .bool _ | .string _ => rfl
  | .number n => congrArg (fun token => [token]) (Token.map_token f n).symm
  | .array vs => by
    rw [map, flatten, flatten, flattenElements_map f vs, List.map_cons, List.map_append]
    rfl
  | .object vs => by
    rw [map, flatten, flatten, flattenMembers_map f vs, List.map_cons, List.map_append]
    rfl

theorem flattenElements_map (f : Numeral → Numeral) :
    ∀ vs : List Value, flattenElements (mapElements f vs) = (flattenElements vs).map (Token.map f)
  | [] => rfl
  | v :: vs => by
    rw [mapElements, flattenElements, flattenElements, flatten_map f v, flattenElements_map f vs,
      List.map_append]

theorem flattenMembers_map (f : Numeral → Numeral) :
    ∀ vs : List (String × Value),
      flattenMembers (mapMembers f vs) = (flattenMembers vs).map (Token.map f)
  | [] => rfl
  | (key, v) :: vs => by
    rw [mapMembers, flattenMembers, flattenMembers, flatten_map f v, flattenMembers_map f vs,
      List.map_cons, List.map_append]
    rfl

end

end Value

/-! ### White space -/

/-- An indent of white space, if there is one. -/
def WriterOptions.BlankIndent (o : WriterOptions) : Prop :=
  ∀ indent ∈ o.indent, Blank (Utf8.bytes indent)

namespace WriterOptions

variable {o : WriterOptions}

theorem BlankIndent.newLine (indent : o.BlankIndent) (depth : Nat) : Blank (o.newLine depth) := by
  rw [WriterOptions.newLine]
  cases given : o.indent with
  | none => exact blank_nil
  | some text =>
    refine blank_cons_iff.2 ⟨rfl, ?_⟩
    intro byte mem
    obtain ⟨line, copy, inner⟩ := List.mem_flatten.1 mem
    rw [List.eq_of_mem_replicate copy] at inner
    exact indent text given byte inner

theorem exists_colon (o : WriterOptions) : ∃ blank, o.colon = Byte.colon :: blank ∧ Blank blank := by
  rw [colon]
  by_cases indents : o.indent.isSome
  · rw [if_pos indents]
    exact ⟨[Byte.space], rfl, blank_cons_iff.2 ⟨rfl, blank_nil⟩⟩
  · rw [if_neg indents]
    exact ⟨[], rfl, blank_nil⟩

end WriterOptions

/-! ### Values -/

/-- Texts that a writer with the options `o` puts around numbers are texts of the dialect. -/
structure Dialect.Admits (d : Dialect) (o : WriterOptions) : Prop where
  indent : o.BlankIndent
  string : ∀ text, StringText d text (quoted o.asciiOnly text)

/-- A number has a text, which spells the number that replaces it. -/
def Numeral.Prints (d : Dialect) (o : WriterOptions) (f : Numeral → Numeral) (n : Numeral) : Prop :=
  ∃ bytes, n.scalar.text o.asciiOnly = .ok bytes ∧ d.numeral (f n) bytes

namespace Value

section
variable {d : Dialect} {o : WriterOptions} {f : Numeral → Numeral} (admits : d.Admits o)
include admits

/-- A key on a line of its own and the colon after it. -/
theorem keyText_quoted (depth : Nat) (key : String) :
    KeyText d key (o.newLine depth ++ (quoted o.asciiOnly key ++ [Byte.colon])) :=
  ⟨o.newLine depth, quoted o.asciiOnly key, [], rfl, admits.indent.newLine depth,
    admits.string key, blank_nil⟩

mutual

/-- **A printed value is spelled by the grammar.** -/
theorem spells_print : ∀ (v : Value) (depth : Nat),
    (∀ n : Numeral, n.token ∈ v.flatten → n.Prints d o f) →
      Spells d (.value (v.map f)) (v.print o depth)
  | .null, _, _ => .null
  | .bool .true, _, _ => .true
  | .bool .false, _, _ => .false
  | .string text, _, _ => .string (admits.string text)
  | .number n, _, numbers => by
    obtain ⟨bytes, text, literal⟩ := numbers n (List.mem_singleton.2 rfl)
    obtain ⟨-, rfl⟩ := Numeral.text_eq_ok_iff.1 text
    exact .number literal
  | .array [], _, _ => .emptyArray blank_nil
  | .array (v :: vs), depth, numbers => by
    have inside := spells_printElements (v :: vs) (depth + 1) (List.cons_ne_nil v vs)
      (fun n mem => numbers n (List.mem_cons_of_mem _ (List.mem_append_left _ mem)))
      (o.newLine depth) (admits.indent.newLine depth)
    have array := Spells.array inside
    rw [List.append_assoc] at array
    rw [print, printElements, WriterOptions.enclosed]
    exact array
  | .object [], _, _ => .emptyObject blank_nil
  | .object ((key, v) :: ms), depth, numbers => by
    have inside := spells_printMembers ((key, v) :: ms) (depth + 1) (List.cons_ne_nil _ ms)
      (fun n mem => numbers n (List.mem_cons_of_mem _ (List.mem_append_left _ mem)))
      (o.newLine depth) (admits.indent.newLine depth)
    have object := Spells.object inside
    rw [List.append_assoc] at object
    rw [print, printMembers, WriterOptions.enclosed]
    exact object

/-- Printed elements are spelled by the grammar, with white space after them or none. -/
theorem spells_printElements : ∀ (vs : List Value) (depth : Nat), vs ≠ [] →
    (∀ n : Numeral, n.token ∈ flattenElements vs → n.Prints d o f) → ∀ after, Blank after →
      Spells d (.elements (mapElements f vs)) (o.lines depth (printElements o depth vs) ++ after)
  | [], _, nonempty, _, _, _ => absurd rfl nonempty
  | [v], depth, _, numbers, after, blank => by
    have spelled := spells_print v depth fun n mem => numbers n (List.mem_append_left _ mem)
    have last := Spells.lastElement (admits.indent.newLine depth) spelled blank
    rw [printElements, printElements, WriterOptions.lines_singleton, List.append_assoc]
    exact last
  | v :: w :: vs, depth, _, numbers, after, blank => by
    have spelled := spells_print v depth fun n mem => numbers n (List.mem_append_left _ mem)
    have more := spells_printElements (w :: vs) depth (List.cons_ne_nil w vs)
      (fun n mem => numbers n (List.mem_append_right _ mem)) after blank
    have element := Spells.element (admits.indent.newLine depth) spelled blank_nil more
    rw [printElements, printElements, WriterOptions.lines_cons_cons, ← printElements]
    simp only [List.append_assoc, List.cons_append, List.nil_append] at element ⊢
    exact element

/-- Printed members are spelled by the grammar, with white space after them or none. -/
theorem spells_printMembers : ∀ (ms : List (String × Value)) (depth : Nat), ms ≠ [] →
    (∀ n : Numeral, n.token ∈ flattenMembers ms → n.Prints d o f) → ∀ after, Blank after →
      Spells d (.members (mapMembers f ms)) (o.lines depth (printMembers o depth ms) ++ after)
  | [], _, nonempty, _, _, _ => absurd rfl nonempty
  | [(key, v)], depth, _, numbers, after, blank => by
    obtain ⟨space, colon, isBlank⟩ := o.exists_colon
    have spelled := spells_print v depth fun n mem =>
      numbers n (List.mem_cons_of_mem _ (List.mem_append_left _ mem))
    have last := Spells.lastMember (keyText_quoted admits depth key) isBlank spelled blank
    rw [printMembers, printMembers, WriterOptions.lines_singleton, colon]
    simp only [List.append_assoc, List.cons_append, List.nil_append] at last ⊢
    exact last
  | (key, v) :: m :: ms, depth, _, numbers, after, blank => by
    obtain ⟨space, colon, isBlank⟩ := o.exists_colon
    have spelled := spells_print v depth fun n mem =>
      numbers n (List.mem_cons_of_mem _ (List.mem_append_left _ mem))
    have more := spells_printMembers (m :: ms) depth (List.cons_ne_nil m ms)
      (fun n mem => numbers n (List.mem_cons_of_mem _ (List.mem_append_right _ mem))) after blank
    have member := Spells.member (keyText_quoted admits depth key) isBlank spelled blank_nil more
    rw [printMembers, printMembers, WriterOptions.lines_cons_cons, ← printMembers, colon]
    simp only [List.append_assoc, List.cons_append, List.nil_append] at member ⊢
    exact member

end

/-- **A printed document is one of the grammar.** -/
theorem prints_document (v : Value) (numbers : ∀ n : Numeral, n.token ∈ v.flatten → n.Prints d o f) :
    ∃ bytes, ({ options := o } : Writer).Prints
          ((v.flatten ++ [Token.done]).flatMap Token.items) bytes
        { options := o } ∧ Document d (v.map f) bytes := by
  have printable : ∀ n : Numeral, n.token ∈ v.flatten → n.Printable := by
    intro n mem
    obtain ⟨bytes, text, -⟩ := numbers n mem
    exact (Numeral.text_eq_ok_iff.1 text).1
  have printed := prints_items (o := o) v [] printable
  refine ⟨v.print o 0, ?_, [], v.print o 0, [], (List.append_nil _).symm, blank_nil,
    spells_print admits v 0 numbers, blank_nil⟩
  rw [List.flatMap_append, ← items_eq]
  show Writer.Prints _ (_ ++ []) _ _
  rw [List.append_nil]
  exact printed

end

end Value

end JsonStream
