import JsonStream.Proofs.Grammar.Numerals
import JsonStream.Proofs.Grammar.Quoted

/-!
# Documents survive transcoding

What a transcoder writes for an accepted document is a document of UTF-8, read with the same number
options. Unless numbers are rounded or change into integers, it has the same tokens.

* `Document.prints`: the text of a document that has been read.
* `Transcoder.collect_transcode`: its tokens.
-/

namespace JsonStream

/-! ### Numbers of a document -/

/-- The tokens of a phrase. -/
def Phrase.tokens : Phrase → List Token
  | .value v => v.flatten
  | .elements vs => Value.flattenElements vs
  | .members ms => Value.flattenMembers ms

theorem Numeral.token_ne {n : Numeral} {token : Token} (h : token.scalar? = none) :
    n.token ≠ token := by
  intro same
  have alone := Value.scalar?_token n
  rw [same, h] at alone
  contradiction

theorem Numeral.mem_of_brackets {n : Numeral} {opening closing : Token} {inner : List Token}
    (first : opening.scalar? = none) (last : closing.scalar? = none)
    (mem : n.token ∈ opening :: (inner ++ [closing])) : n.token ∈ inner := by
  rcases List.mem_cons.1 mem with same | mem
  · exact absurd same (token_ne first)
  · rcases List.mem_append.1 mem with mem | mem
    · exact mem
    · exact absurd (List.mem_singleton.1 mem) (token_ne last)

/-- Every number of a phrase is spelled by a literal of it. -/
theorem Spells.exists_literal {d : Dialect} {p : Phrase} {bytes : Bytes} (h : Spells d p bytes)
    {n : Numeral} (mem : n.token ∈ p.tokens) : ∃ text, d.numeral n text := by
  induction h with
  | null | true | false | string => cases n <;> cases List.mem_singleton.1 mem
  | @number m bytes literal =>
    cases Numeral.token_injective (List.mem_singleton.1 mem)
    exact ⟨bytes, literal⟩
  | emptyArray | emptyObject =>
    have inner := Numeral.mem_of_brackets rfl rfl mem
    contradiction
  | array _ ih | object _ ih => exact ih (Numeral.mem_of_brackets rfl rfl mem)
  | lastElement _ _ _ ih =>
    rcases List.mem_append.1 mem with mem | mem
    · exact ih mem
    · contradiction
  | element _ _ _ _ ih more =>
    rcases List.mem_append.1 mem with mem | mem
    · exact ih mem
    · exact more mem
  | lastMember _ _ _ _ ih =>
    rcases List.mem_cons.1 mem with same | mem
    · exact absurd same (Numeral.token_ne rfl)
    · rcases List.mem_append.1 mem with mem | mem
      · exact ih mem
      · contradiction
  | member _ _ _ _ _ ih more =>
    rcases List.mem_cons.1 mem with same | mem
    · exact absurd same (Numeral.token_ne rfl)
    · rcases List.mem_append.1 mem with mem | mem
      · exact ih mem
      · exact more mem

/-! ### What is written for a document -/

/-- The options for reading what a writer has written: number options are kept. -/
def ReaderOptions.utf8 (options : ReaderOptions) : ReaderOptions :=
  { options with encoding := .utf8 }

theorem ReaderOptions.admits_utf8 (options : ReaderOptions) {o : WriterOptions}
    (indent : o.BlankIndent) : options.utf8.dialect.Admits o :=
  ⟨indent, stringText_quoted fun _ _ => rfl⟩

section
variable {options : ReaderOptions} {o : WriterOptions} {v : Value} {bytes : Bytes}

theorem Document.exists_literal (document : Document options.dialect v bytes) {n : Numeral}
    (mem : n.token ∈ v.flatten) : ∃ text, options.NumeralText n text := by
  obtain ⟨_, _, _, -, -, spelled, -⟩ := document
  exact spelled.exists_literal mem

/-- **What is written for a document is a document**, with the numbers as they are read again. -/
theorem Document.prints (document : Document options.dialect v bytes)
    (exact : options.numbers ≠ .float) (indent : o.BlankIndent) :
    ∃ text, ({ options := o } : Writer).Prints
        ((v.flatten ++ [Token.done]).flatMap Token.items) text { options := o } ∧
      Document options.utf8.dialect (v.map options.reread) text := by
  refine v.prints_document (options.admits_utf8 indent) ?_
  intro n mem
  obtain ⟨text, literal⟩ := document.exists_literal mem
  exact literal.prints exact o

end

/-! ### Tokens -/

theorem Token.map_eq_self {f : Numeral → Numeral} {token : Token}
    (h : ∀ n : Numeral, n.token = token → f n = n) : token.map f = token := by
  cases token with
  | integer value => exact congrArg Numeral.token (h (.integer value) rfl)
  | number value => exact congrArg Numeral.token (h (.other value) rfl)
  | _ => rfl

/-- Number options under which no number changes when it is written and read again. -/
def ReaderOptions.Stable (options : ReaderOptions) : Prop :=
  options.numbers = .text ∨ options.numbers = .components ∧ options.integers = false

theorem ReaderOptions.Stable.exact {options : ReaderOptions} (h : options.Stable) :
    options.numbers ≠ .float := by
  rcases h with text | ⟨components, -⟩
  · rw [text]
    nofun
  · rw [components]
    nofun

theorem ReaderOptions.Stable.reread_eq {options : ReaderOptions} (h : options.Stable)
    {n : Numeral} {bytes : Bytes} (literal : options.NumeralText n bytes) :
    options.reread n = n := by
  rcases literal.cases h.exact with ⟨i, rfl, -⟩ | ⟨c, rfl, components, -⟩ | ⟨text, rfl, -⟩
  · rfl
  · rcases h with text | ⟨-, integers⟩
    · rw [components] at text
      contradiction
    · rcases options.rereadComponents_cases c with ⟨integers', -⟩ | ⟨-, same⟩
      · rw [integers] at integers'
        contradiction
      · exact same
  · rfl

namespace Transcoder

variable {options : ReaderOptions} {o : WriterOptions} {capacity : Nat} {chunks : List Bytes}
  {tokens : List Token}

/-- **A document survives transcoding.** An accepted document is transcoded to the end, and however
the output is cut, its tokens are those of the document. -/
theorem collect_transcode (stable : options.Stable) (indent : o.BlankIndent) (room : 0 < capacity)
    (nonempty : ∀ chunk ∈ chunks, chunk ≠ [])
    (accepted : ({ options } : Reader).collect chunks = .ok tokens) :
    ∃ t, transcode options o capacity chunks = (.finished, t) ∧
      ∀ again : List Bytes, again.flatten = t.output →
        ({ options := options.utf8 } : Reader).collect again = .ok tokens := by
  obtain ⟨v, document, rfl⟩ := Reader.collect_eq_ok_iff_document.1 accepted
  obtain ⟨text, printed, written⟩ := document.prints stable.exact indent
  obtain ⟨t, finished, output, -⟩ := transcode_prints room nonempty accepted printed
  refine ⟨t, finished, ?_⟩
  intro again cut
  have same : (v.map options.reread).flatten = v.flatten := by
    rw [Value.flatten_map]
    refine (List.map_congr_left (g := id) ?_).trans (List.map_id _)
    intro token mem
    refine Token.map_eq_self ?_
    rintro n rfl
    obtain ⟨text, literal⟩ := document.exists_literal mem
    exact stable.reread_eq literal
  refine Reader.collect_eq_ok_iff_document.2 ⟨v.map options.reread, ?_, ?_⟩
  · rw [cut, output]
    exact written
  · rw [same]

/-- A document of ISO-8859-1, cut inside a number and inside a string, is written in ASCII with
indents, one byte at a time. -/
theorem collect_transcode_latin1 :
    ∃ t, transcode { numbers := .components, encoding := .latin1 }
        { indent := some " ", asciiOnly := true } 1
        [[0x5b, 0x2d, 0x31, 0x2e], [0x35, 0x30, 0x2c, 0x22], [0xe9, 0x22, 0x5d]] = (.finished, t) ∧
      ∀ again : List Bytes, again.flatten = t.output →
        ({ options := { numbers := .components } } : Reader).collect again =
          .ok [.beginArray, .number (.components ⟨true, 1, 5, 1, false, 0⟩), .string "é", .endArray,
            .done] :=
  @collect_transcode { numbers := .components, encoding := .latin1 } _ _ _ _ (.inr ⟨rfl, rfl⟩)
    (by rintro indent ⟨⟩; exact blank_cons_iff.2 ⟨rfl, blank_nil⟩) (by decide)
    (by decide) (by decide +kernel)

end Transcoder

end JsonStream
