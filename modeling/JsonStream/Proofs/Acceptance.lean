import JsonStream.Proofs.Machine.Chunks
import JsonStream.Proofs.Grammar.Completeness
import JsonStream.Proofs.Grammar.Soundness

/-!
# Readers accept the documents of the grammar

A reader reads a document to its end exactly if the grammar derives it, and then it reports the
tokens of the one value that the document denotes.

* `Value.flatten_append_inj`: a value and what follows it can be told from the tokens.
* `Reader.collect_eq_ok_iff_document`: for the dialect of any options.
* `Reader.collect_json`: for JSON.
-/

namespace JsonStream

/-! ### What tokens tell -/

/-- The value that a token makes up alone. -/
def Token.scalar? : Token → Option Value
  | .null => some .null
  | .bool value => some (.bool value)
  | .number value => some (.number (.other value))
  | .integer value => some (.number (.integer value))
  | .string text => some (.string text)
  | _ => none

namespace Value

theorem scalar?_token (n : Numeral) : n.token.scalar? = some (.number n) := by
  cases n <;> rfl

/-- A token that makes up a value alone starts no other one. -/
theorem eq_of_scalar? {v w : Value} {token : Token} {more rest : List Token}
    (alone : token.scalar? = some v) (h : token :: more = w.flatten ++ rest) :
    v = w ∧ more = rest := by
  have first : token.scalar? = some w → v = w := fun other => Option.some.inj (alone ▸ other)
  cases w with
  | array | object =>
    obtain ⟨rfl, -⟩ := List.cons.inj h
    contradiction
  | number n =>
    obtain ⟨rfl, same⟩ := List.cons.inj h
    exact ⟨first (scalar?_token n), same⟩
  | _ =>
    obtain ⟨rfl, same⟩ := List.cons.inj h
    exact ⟨first rfl, same⟩

/-- Only an array starts with its opening. -/
theorem exists_array {w : Value} {more rest : List Token}
    (h : .beginArray :: more = w.flatten ++ rest) :
    ∃ ws, w = .array ws ∧ more = flattenElements ws ++ .endArray :: rest := by
  cases w with
  | array ws =>
    rw [flatten, List.cons_append, List.append_assoc] at h
    exact ⟨ws, rfl, (List.cons.inj h).2⟩
  | number n =>
    have alone := scalar?_token n
    rw [← (List.cons.inj h).1] at alone
    contradiction
  | _ =>
    obtain ⟨_, -⟩ := List.cons.inj h
    contradiction

/-- Only an object starts with its opening. -/
theorem exists_object {w : Value} {more rest : List Token}
    (h : .beginObject :: more = w.flatten ++ rest) :
    ∃ ws, w = .object ws ∧ more = flattenMembers ws ++ .endObject :: rest := by
  cases w with
  | object ws =>
    rw [flatten, List.cons_append, List.append_assoc] at h
    exact ⟨ws, rfl, (List.cons.inj h).2⟩
  | number n =>
    have alone := scalar?_token n
    rw [← (List.cons.inj h).1] at alone
    contradiction
  | _ =>
    obtain ⟨_, -⟩ := List.cons.inj h
    contradiction

/-- A value does not start with the end of an array. -/
theorem flatten_append_ne_endArray {v : Value} {more rest : List Token} :
    v.flatten ++ more ≠ .endArray :: rest := by
  cases v with
  | number n => cases n <;> exact nofun
  | _ => exact nofun

mutual

/-- **A value and what follows it can be told from the tokens.** -/
theorem flatten_append_inj : ∀ (v w : Value) {more rest : List Token},
    v.flatten ++ more = w.flatten ++ rest → v = w ∧ more = rest
  | .null, _, _, _, h => eq_of_scalar? rfl h
  | .bool _, _, _, _, h => eq_of_scalar? rfl h
  | .number n, _, _, _, h => eq_of_scalar? (scalar?_token n) h
  | .string _, _, _, _, h => eq_of_scalar? rfl h
  | .array vs, _, more, rest, h => by
    rw [flatten, List.cons_append, List.append_assoc] at h
    obtain ⟨ws, rfl, same⟩ := exists_array h
    obtain ⟨rfl, rest⟩ := flattenElements_append_inj vs ws same
    exact ⟨rfl, rest⟩
  | .object vs, _, more, rest, h => by
    rw [flatten, List.cons_append, List.append_assoc] at h
    obtain ⟨ws, rfl, same⟩ := exists_object h
    obtain ⟨rfl, rest⟩ := flattenMembers_append_inj vs ws same
    exact ⟨rfl, rest⟩

/-- Elements up to the end of their array can be told from the tokens. -/
theorem flattenElements_append_inj : ∀ (vs ws : List Value) {more rest : List Token},
    flattenElements vs ++ .endArray :: more = flattenElements ws ++ .endArray :: rest →
      vs = ws ∧ more = rest
  | [], [], _, _, h => ⟨rfl, (List.cons.inj h).2⟩
  | [], w :: ws, _, _, h => by
    rw [flattenElements, flattenElements, List.append_assoc] at h
    exact absurd h.symm flatten_append_ne_endArray
  | v :: vs, [], _, _, h => by
    rw [flattenElements, flattenElements, List.append_assoc] at h
    exact absurd h flatten_append_ne_endArray
  | v :: vs, w :: ws, more, rest, h => by
    rw [flattenElements, flattenElements, List.append_assoc, List.append_assoc] at h
    obtain ⟨rfl, further⟩ := flatten_append_inj v w h
    obtain ⟨rfl, rest⟩ := flattenElements_append_inj vs ws further
    exact ⟨rfl, rest⟩

/-- Members up to the end of their object can be told from the tokens. -/
theorem flattenMembers_append_inj : ∀ (vs ws : List (String × Value)) {more rest : List Token},
    flattenMembers vs ++ .endObject :: more = flattenMembers ws ++ .endObject :: rest →
      vs = ws ∧ more = rest
  | [], [], _, _, h => ⟨rfl, (List.cons.inj h).2⟩
  | [], (_, _) :: _, _, _, h => by
    rw [flattenMembers, flattenMembers] at h
    obtain ⟨_, -⟩ := List.cons.inj h
    contradiction
  | (_, _) :: _, [], _, _, h => by
    rw [flattenMembers, flattenMembers] at h
    obtain ⟨_, -⟩ := List.cons.inj h
    contradiction
  | (key, v) :: vs, (name, w) :: ws, more, rest, h => by
    rw [flattenMembers, flattenMembers, List.cons_append, List.cons_append, List.append_assoc,
      List.append_assoc] at h
    obtain ⟨keys, same⟩ := List.cons.inj h
    cases keys
    obtain ⟨rfl, further⟩ := flatten_append_inj v w same
    obtain ⟨rfl, rest⟩ := flattenMembers_append_inj vs ws further
    exact ⟨rfl, rest⟩

end

theorem flatten_injective {v w : Value} (h : v.flatten = w.flatten) : v = w :=
  (flatten_append_inj v w (congrArg (· ++ []) h)).1

mutual

/-- No token of a value asks for more input or ends the document. -/
theorem isOngoing_of_mem_flatten : ∀ (v : Value) {token : Token},
    token ∈ v.flatten → token.isOngoing = true
  | .null, _, mem | .bool _, _, mem | .string _, _, mem => by
    cases List.mem_singleton.1 mem
    rfl
  | .number n, _, mem => by
    cases List.mem_singleton.1 mem
    cases n <;> rfl
  | .array vs, token, mem => by
    rw [flatten, List.mem_cons, List.mem_append, List.mem_singleton] at mem
    rcases mem with rfl | mem | rfl
    · rfl
    · exact isOngoing_of_mem_flattenElements vs mem
    · rfl
  | .object vs, token, mem => by
    rw [flatten, List.mem_cons, List.mem_append, List.mem_singleton] at mem
    rcases mem with rfl | mem | rfl
    · rfl
    · exact isOngoing_of_mem_flattenMembers vs mem
    · rfl

theorem isOngoing_of_mem_flattenElements : ∀ (vs : List Value) {token : Token},
    token ∈ flattenElements vs → token.isOngoing = true
  | [], _, mem => absurd mem List.not_mem_nil
  | v :: vs, token, mem => by
    rw [flattenElements, List.mem_append] at mem
    rcases mem with mem | mem
    · exact isOngoing_of_mem_flatten v mem
    · exact isOngoing_of_mem_flattenElements vs mem

theorem isOngoing_of_mem_flattenMembers : ∀ (vs : List (String × Value)) {token : Token},
    token ∈ flattenMembers vs → token.isOngoing = true
  | [], _, mem => absurd mem List.not_mem_nil
  | (key, v) :: vs, token, mem => by
    rw [flattenMembers, List.mem_cons, List.mem_append] at mem
    rcases mem with rfl | mem | mem
    · rfl
    · exact isOngoing_of_mem_flatten v mem
    · exact isOngoing_of_mem_flattenMembers vs mem

end

/-- The end of the document is none of its tokens. -/
theorem done_not_mem_flatten (v : Value) : .done ∉ v.flatten := by
  intro mem
  have ongoing := v.isOngoing_of_mem_flatten mem
  contradiction

end Value

/-! ### Acceptance -/

/-- A document denotes one value. -/
theorem Document.unique {options : ReaderOptions} {v w : Value} {bytes : Bytes}
    (first : Document options.dialect v bytes) (second : Document options.dialect w bytes) :
    v = w := by
  have same : v.flatten ++ [Token.done] = w.flatten ++ [.done] :=
    Option.some.inj (first.tokens?_eq.symm.trans second.tokens?_eq)
  exact Value.flatten_injective (List.append_cancel_right same)

/-- **Readers accept the documents of their dialect.** -/
theorem Reader.collect_eq_ok_iff_document {options : ReaderOptions} {chunks : List Bytes}
    {tokens : List Token} :
    ({ options } : Reader).collect chunks = .ok tokens ↔
      ∃ v, Document options.dialect v chunks.flatten ∧ tokens = v.flatten ++ [.done] := by
  rw [collect_eq_ok_iff]
  constructor
  · exact Machine.exists_document
  · intro ⟨v, document, same⟩
    rw [same]
    exact document.tokens?_eq

/-- Options under which numbers are reported as they stand. -/
def ReaderOptions.plain : ReaderOptions :=
  { integers := false, numbers := .text, encoding := .utf8 }

/-- The dialect of these options is JSON. -/
theorem ReaderOptions.dialect_plain : plain.dialect = Dialect.json := by
  have numeral : plain.NumeralText = Dialect.json.numeral := by
    funext n bytes
    have literal : ∀ text, Token.ofLiteral plain false text = .ok n.token ↔
        n = .other (.text text) := by
      intro text
      constructor
      · intro h
        exact Numeral.token_injective (Except.ok.inj h).symm
      · intro h
        rw [h]
        rfl
    show (NumberText bytes ∧ _) = (NumberText bytes ∧ _)
    simp only [literal]
  exact congrArg (Dialect.mk · _) numeral

/-- **Readers accept JSON and report what it denotes.** Chunks are read to the end exactly if they
make up a document, which then denotes one value; what is reported are the tokens of the value and,
after all of them, the end. -/
theorem Reader.collect_json (chunks : List Bytes) :
    ((∃ tokens, ({ options := .plain } : Reader).collect chunks = .ok (tokens ++ [.done])) ↔
        ∃ v, Document .json v chunks.flatten) ∧
      ∀ tokens, ({ options := .plain } : Reader).collect chunks = .ok tokens ↔
        ∃ v, Document .json v chunks.flatten ∧
          (∀ w, Document .json w chunks.flatten → w = v) ∧
            tokens = v.flatten ++ [.done] ∧ .done ∉ v.flatten := by
  rw [← ReaderOptions.dialect_plain]
  constructor
  · constructor
    · intro ⟨tokens, h⟩
      obtain ⟨v, document, -⟩ := collect_eq_ok_iff_document.1 h
      exact ⟨v, document⟩
    · intro ⟨v, document⟩
      exact ⟨v.flatten, collect_eq_ok_iff_document.2 ⟨v, document, rfl⟩⟩
  · intro tokens
    rw [collect_eq_ok_iff_document]
    constructor
    · intro ⟨v, document, same⟩
      exact ⟨v, document, fun w other => other.unique document, same, v.done_not_mem_flatten⟩
    · intro ⟨v, document, _, same, _⟩
      exact ⟨v, document, same⟩

end JsonStream
