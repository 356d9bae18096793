import JsonStream.Proofs.Grammar
import JsonStream.Proofs.Transcoding
import JsonStream.Proofs.Writer.Conservation

/-!
# The layout of what is written

A writer sees one item at a time and decides about separators from the slot of the innermost
container. What it prints for the items of a value is nevertheless what a recursive printer makes of
the value as a whole, which knows nothing of slots: commas stand between siblings, empty containers
are two brackets, and with an indent every member and the closing bracket take a line of their own.

* `Value.print`: the printer.
* `Value.prints_items`: one value, inside any open containers.
* `Writer.serve_walk`: values one after another, whatever the sizes of the buffers.
-/

namespace JsonStream

/-! ### The items of a value -/

/-- The scalar that writes a number. -/
def Numeral.scalar : Numeral → Scalar
  | .integer value => .integer value
  | .other value => Transcoder.numberScalar value

theorem Numeral.items_token (n : Numeral) : n.token.items = [.scalar n.scalar] := by
  cases n <;> rfl

namespace Value

mutual

/-- The items of a value: what is written for it, call after call. -/
def items : Value → List Item
  | .null => [.scalar .null]
  | .bool value => [.scalar (.bool value)]
  | .number value => [.scalar value.scalar]
  | .string text => [.scalar (.string text)]
  | .array elements => .beginArray :: (itemsOfElements elements ++ [.endArray])
  | .object members => .beginObject :: (itemsOfMembers members ++ [.endObject])

/-- The items of values in a row. -/
def itemsOfElements : List Value → List Item
  | [] => []
  | v :: elements => v.items ++ itemsOfElements elements

/-- The items of members in a row, each key written like a string before its value. -/
def itemsOfMembers : List (String × Value) → List Item
  | [] => []
  | (key, v) :: members => .scalar (.string key) :: (v.items ++ itemsOfMembers members)

end

mutual

/-- The items of a value are those of its tokens. -/
theorem items_eq : ∀ v : Value, v.items = v.flatten.flatMap Token.items
  | .null | .bool _ | .string _ => rfl
  | .number n => by
    rw [items, flatten, List.flatMap_cons, List.flatMap_nil, List.append_nil, Numeral.items_token]
  | .array vs => by
    rw [items, flatten, List.flatMap_cons, List.flatMap_append, itemsOfElements_eq vs]
    rfl
  | .object ms => by
    rw [items, flatten, List.flatMap_cons, List.flatMap_append, itemsOfMembers_eq ms]
    rfl

theorem itemsOfElements_eq :
    ∀ vs : List Value, itemsOfElements vs = (flattenElements vs).flatMap Token.items
  | [] => rfl
  | v :: vs => by
    rw [itemsOfElements, flattenElements, List.flatMap_append, items_eq v, itemsOfElements_eq vs]

theorem itemsOfMembers_eq :
    ∀ ms : List (String × Value), itemsOfMembers ms = (flattenMembers ms).flatMap Token.items
  | [] => rfl
  | (key, v) :: ms => by
    rw [itemsOfMembers, flattenMembers, List.flatMap_cons, List.flatMap_append, items_eq v,
      itemsOfMembers_eq ms]
    rfl

end

end Value

/-! ### The printer -/

namespace Numeral

/-- The text of a number. What is not finite has no literal. -/
def print : Numeral → Bytes
  | .integer value => Scalar.integerText value
  | .other (.float value) => if value.isFinite then value.text else Keyword.null.spelling
  | .other (.components value) => value.text
  | .other (.text literal) => Utf8.bytes literal

/-- A number that a writer takes: components fit their places, and a text is a literal. -/
def Printable : Numeral → Prop
  | .integer _ | .other (.float _) => True
  | .other (.components value) => value.fractionFits = true
  | .other (.text literal) => NumberText (Utf8.bytes literal)

end Numeral

theorem Number.isLiteral_iff {bytes : Bytes} : isLiteral bytes = true ↔ NumberText bytes := by
  rw [isLiteral, Option.isSome_iff_exists]
  exact exists_congr fun _ => Literal.ofBytes?_eq_some_iff

/-- **The numbers that have a text.** -/
theorem Numeral.text_eq_ok_iff {n : Numeral} {asciiOnly : Bool} {bytes : Bytes} :
    n.scalar.text asciiOnly = .ok bytes ↔ n.Printable ∧ n.print = bytes := by
  have checked : ∀ {P : Prop} [Decidable P] {text : Bytes},
      (if P then Except.ok text else .error WriterError.invalidNumber) = .ok bytes ↔
        P ∧ text = bytes := by
    intro P _ text
    split <;> simp_all
  cases n with
  | integer i => simp [scalar, Scalar.text, Printable, print]
  | other value =>
    cases value with
    | float x => simp [scalar, Transcoder.numberScalar, Scalar.text, Printable, print]
    | components c => exact checked
    | text literal => exact checked.trans (and_congr_left' Number.isLiteral_iff)

namespace WriterOptions

/-- A new line with `depth` indents, if there is an indent. -/
def newLine (o : WriterOptions) (depth : Nat) : Bytes :=
  match o.indent with
  | none => []
  | some indent => Byte.lineFeed :: (List.replicate depth (Utf8.bytes indent)).flatten

/-- What stands between a key and its value. -/
def colon (o : WriterOptions) : Bytes :=
  if o.indent.isSome then [Byte.colon, Byte.space] else [Byte.colon]

/-- Texts with commas between them, each of them on a line of its own. -/
def lines (o : WriterOptions) (depth : Nat) (texts : List Bytes) : Bytes :=
  [Byte.comma].intercalate (texts.map (o.newLine depth ++ ·))

/-- A container at a depth, given the texts of its members. The closing bracket stands on a line of
its own too, but there is nothing at all between the brackets if there are no members. -/
def enclosed (o : WriterOptions) (depth : Nat) (opening closing : UInt8) : List Bytes → Bytes
  | [] => [opening, closing]
  | text :: texts =>
    opening :: (o.lines (depth + 1) (text :: texts) ++ (o.newLine depth ++ [closing]))

theorem lines_singleton (o : WriterOptions) (depth : Nat) (text : Bytes) :
    o.lines depth [text] = o.newLine depth ++ text :=
  List.intercalate_singleton

theorem lines_cons_cons (o : WriterOptions) (depth : Nat) (first second : Bytes)
    (texts : List Bytes) :
    o.lines depth (first :: second :: texts) =
      o.newLine depth ++ (first ++ (Byte.comma :: o.lines depth (second :: texts))) := by
  simp [lines, List.intercalate_cons_cons]

/-- The texts after the first one. -/
def further (o : WriterOptions) (depth : Nat) (texts : List Bytes) : Bytes :=
  texts.flatMap fun text => Byte.comma :: (o.newLine depth ++ text)

theorem further_cons (o : WriterOptions) (depth : Nat) (text : Bytes) (texts : List Bytes) :
    o.further depth (text :: texts) =
      Byte.comma :: (o.newLine depth ++ text) ++ o.further depth texts := rfl

theorem lines_cons (o : WriterOptions) (depth : Nat) (text : Bytes) (texts : List Bytes) :
    o.lines depth (text :: texts) = o.newLine depth ++ text ++ o.further depth texts := by
  induction texts generalizing text with
  | nil => rw [lines_singleton, further, List.flatMap_nil, List.append_nil]
  | cons next texts ih =>
    rw [lines_cons_cons, ih, further_cons]
    simp only [List.append_assoc, List.cons_append]

end WriterOptions

namespace Value

mutual

/-- **The printer.** The text of a value at a depth. -/
def print (o : WriterOptions) (depth : Nat) : Value → Bytes
  | .null => Keyword.null.spelling
  | .bool value => (Keyword.ofBool value).spelling
  | .number n => n.print
  | .string text => quoted o.asciiOnly text
  | .array elements =>
    o.enclosed depth Byte.openBracket Byte.closeBracket (printElements o (depth + 1) elements)
  | .object members =>
    o.enclosed depth Byte.openBrace Byte.closeBrace (printMembers o (depth + 1) members)

/-- The texts of elements. -/
def printElements (o : WriterOptions) (depth : Nat) : List Value → List Bytes
  | [] => []
  | v :: elements => v.print o depth :: printElements o depth elements

/-- The texts of members, each a key with its value. -/
def printMembers (o : WriterOptions) (depth : Nat) : List (String × Value) → List Bytes
  | [] => []
  | (key, v) :: members =>
    (quoted o.asciiOnly key ++ (o.colon ++ v.print o depth)) :: printMembers o depth members

end

end Value

example : (Value.array [.null, .object [("a", .array [])], .object []]).print
      { indent := some " " } 0 =
    Utf8.bytes "[\n null,\n \x7b\n  \"a\": []\n \x7d,\n \x7b\x7d\n]" := by decide

/-! ### Separators and brackets -/

namespace Writer

/-- A writer inside containers, with nothing pending. -/
abbrev inside (o : WriterOptions) (slots : List Slot) : Writer :=
  { options := o, slots }

variable {o : WriterOptions} {slots outer : List Slot} {slot : Slot} {items : List Item}
  {bytes : Bytes}

theorem lineBreak_inside (o : WriterOptions) (slots : List Slot) (depth : Nat) :
    (inside o slots).lineBreak depth = o.newLine depth := rfl

theorem filledSlots_cons : (inside o (slot :: outer)).filledSlots = slot.filled :: outer := rfl

theorem length_filledSlots (o : WriterOptions) (slots : List Slot) :
    (inside o slots).filledSlots.length = slots.length := by
  cases slots <;> rfl

theorem prints_scalar {s : Scalar} (text : s.text o.asciiOnly = .ok bytes) (slots : List Slot) :
    (inside o slots).Prints [.scalar s] ((inside o slots).separator ++ bytes)
      (inside o (inside o slots).filledSlots) := by
  refine Prints.single ?_
  show Except.map _ (s.text o.asciiOnly) = _
  rw [text]
  rfl

/-- What stands in front of a closing: a line break, unless the container is empty. -/
def closingBreak (o : WriterOptions) (slot : Slot) (outer : List Slot) : Bytes :=
  if slot.isFirst then [] else (inside o (slot :: outer)).lineBreak outer.length

/-- An array, given what stands inside. -/
theorem prints_array (slot : Slot) (array : slot.inArray = true)
    (inner : (inside o (.firstElement :: (inside o slots).filledSlots)).Prints items bytes
      (inside o (slot :: (inside o slots).filledSlots))) :
    (inside o slots).Prints (.beginArray :: (items ++ [.endArray]))
      ((inside o slots).separator ++ (Byte.openBracket ::
        (bytes ++ (closingBreak o slot (inside o slots).filledSlots ++ [Byte.closeBracket]))))
      (inside o (inside o slots).filledSlots) := by
  have opening : (inside o slots).Prints [.beginArray]
      ((inside o slots).separator ++ [Byte.openBracket])
      (inside o (.firstElement :: (inside o slots).filledSlots)) :=
    Prints.single rfl
  have closing : (inside o (slot :: (inside o slots).filledSlots)).Prints [.endArray]
      (closingBreak o slot (inside o slots).filledSlots ++ [Byte.closeBracket])
      (inside o (inside o slots).filledSlots) :=
    Prints.single (if_pos array)
  have all := opening.append (inner.append closing)
  rw [List.append_assoc] at all
  exact all

/-- An object, given what stands inside. -/
theorem prints_object (slot : Slot) (object : slot.inArray = false)
    (inner : (inside o (.firstKey :: (inside o slots).filledSlots)).Prints items bytes
      (inside o (slot :: (inside o slots).filledSlots))) :
    (inside o slots).Prints (.beginObject :: (items ++ [.endObject]))
      ((inside o slots).separator ++ (Byte.openBrace ::
        (bytes ++ (closingBreak o slot (inside o slots).filledSlots ++ [Byte.closeBrace]))))
      (inside o (inside o slots).filledSlots) := by
  have opening : (inside o slots).Prints [.beginObject]
      ((inside o slots).separator ++ [Byte.openBrace])
      (inside o (.firstKey :: (inside o slots).filledSlots)) :=
    Prints.single rfl
  have closing : (inside o (slot :: (inside o slots).filledSlots)).Prints [.endObject]
      (closingBreak o slot (inside o slots).filledSlots ++ [Byte.closeBrace])
      (inside o (inside o slots).filledSlots) :=
    Prints.single (if_pos object)
  have all := opening.append (inner.append closing)
  rw [List.append_assoc] at all
  exact all

/-- The comma in front of an item that is not the first one. -/
def comma (slot : Slot) : Bytes :=
  if slot.isFirst then [] else [Byte.comma]

theorem separator_of_ne_memberValue (value : slot ≠ .memberValue) :
    (inside o (slot :: outer)).separator =
      comma slot ++ (inside o (slot :: outer)).lineBreak (outer.length + 1) := by
  cases slot <;> first | rfl | contradiction

end Writer

/-! ### Values -/

namespace Value

open Writer

variable {o : WriterOptions}

/-- An element, given how its value is printed. -/
theorem prints_element {v : Value} {slot : Slot} {outer : List Slot} {text : Bytes}
    (inArray : slot.inArray = true)
    (printed : (inside o (slot :: outer)).Prints v.items
      ((inside o (slot :: outer)).separator ++ text)
      (inside o (inside o (slot :: outer)).filledSlots)) :
    (inside o (slot :: outer)).Prints v.items
      (comma slot ++ (o.newLine (outer.length + 1) ++ text))
      (inside o (.nextElement :: outer)) := by
  have filled : slot.filled = .nextElement := by
    cases slot <;> first | rfl | contradiction
  rw [separator_of_ne_memberValue (by rintro rfl; contradiction), filledSlots_cons, filled,
    List.append_assoc, lineBreak_inside] at printed
  exact printed

/-- A member, given how its value is printed. -/
theorem prints_member {v : Value} (slot : Slot) {outer : List Slot} {text : Bytes} (key : String)
    (place : slot.filled = .memberValue)
    (printed : (inside o (.memberValue :: outer)).Prints v.items
      ((inside o (.memberValue :: outer)).separator ++ text)
      (inside o (inside o (.memberValue :: outer)).filledSlots)) :
    (inside o (slot :: outer)).Prints (.scalar (.string key) :: v.items)
      (comma slot ++
        (o.newLine (outer.length + 1) ++ (quoted o.asciiOnly key ++ (o.colon ++ text))))
      (inside o (.nextKey :: outer)) := by
  have named := prints_scalar (o := o) (s := .string key) rfl (slot :: outer)
  rw [separator_of_ne_memberValue (by rintro rfl; contradiction), filledSlots_cons, place,
    lineBreak_inside] at named
  have colon : (inside o (.memberValue :: outer)).separator = o.colon := rfl
  rw [colon] at printed
  have all := named.append printed
  simp only [List.append_assoc] at all
  exact all

mutual

/-- **A writer prints what the printer makes of a value**, after the separator of its place. -/
theorem prints_items : ∀ (v : Value) (slots : List Slot),
    (∀ n : Numeral, n.token ∈ v.flatten → n.Printable) →
      (inside o slots).Prints v.items ((inside o slots).separator ++ v.print o slots.length)
        (inside o (inside o slots).filledSlots)
  | .null, slots, _ | .bool _, slots, _ | .string _, slots, _ => prints_scalar rfl slots
  | .number n, slots, numbers =>
    prints_scalar (Numeral.text_eq_ok_iff.2 ⟨numbers n (List.mem_singleton.2 rfl), rfl⟩) slots
  | .array [], slots, _ => prints_array .firstElement rfl (.nil _)
  | .array (v :: vs), slots, numbers => by
    have first := prints_element rfl (prints_items v (.firstElement :: (inside o slots).filledSlots)
      fun n mem => numbers n (List.mem_cons_of_mem _ (List.mem_append_left _
        (List.mem_append_left _ mem))))
    have rest := prints_furtherElements vs (inside o slots).filledSlots
      fun n mem => numbers n (List.mem_cons_of_mem _ (List.mem_append_left _
        (List.mem_append_right _ mem)))
    have all := prints_array .nextElement rfl (first.append rest)
    rw [print, printElements, WriterOptions.enclosed, WriterOptions.lines_cons,
      ← length_filledSlots o slots]
    exact all
  | .object [], slots, _ => prints_object .firstKey rfl (.nil _)
  | .object ((key, v) :: ms), slots, numbers => by
    have first := prints_member .firstKey key rfl
      (prints_items v (.memberValue :: (inside o slots).filledSlots)
        fun n mem => numbers n (List.mem_cons_of_mem _ (List.mem_append_left _
          (List.mem_cons_of_mem _ (List.mem_append_left _ mem)))))
    have rest := prints_furtherMembers ms (inside o slots).filledSlots
      fun n mem => numbers n (List.mem_cons_of_mem _ (List.mem_append_left _
        (List.mem_cons_of_mem _ (List.mem_append_right _ mem))))
    have all := prints_object .nextKey rfl (first.append rest)
    rw [print, printMembers, WriterOptions.enclosed, WriterOptions.lines_cons,
      ← length_filledSlots o slots]
    exact all

theorem prints_furtherElements : ∀ (vs : List Value) (outer : List Slot),
    (∀ n : Numeral, n.token ∈ flattenElements vs → n.Printable) →
      (inside o (.nextElement :: outer)).Prints (itemsOfElements vs)
        (o.further (outer.length + 1) (printElements o (outer.length + 1) vs))
        (inside o (.nextElement :: outer))
  | [], outer, _ => .nil _
  | v :: vs, outer, numbers => by
    have first := prints_element rfl (prints_items v (.nextElement :: outer)
      fun n mem => numbers n (List.mem_append_left _ mem))
    have rest := prints_furtherElements vs outer
      fun n mem => numbers n (List.mem_append_right _ mem)
    exact first.append rest

theorem prints_furtherMembers : ∀ (ms : List (String × Value)) (outer : List Slot),
    (∀ n : Numeral, n.token ∈ flattenMembers ms → n.Printable) →
      (inside o (.nextKey :: outer)).Prints (itemsOfMembers ms)
        (o.further (outer.length + 1) (printMembers o (outer.length + 1) ms))
        (inside o (.nextKey :: outer))
  | [], outer, _ => .nil _
  | (key, v) :: ms, outer, numbers => by
    have first := prints_member .nextKey key rfl (prints_items v (.memberValue :: outer)
      fun n mem => numbers n (List.mem_cons_of_mem _ (List.mem_append_left _ mem)))
    have rest := prints_furtherMembers ms outer
      fun n mem => numbers n (List.mem_cons_of_mem _ (List.mem_append_right _ mem))
    exact first.append rest

end

/-- Values one after another, with nothing between them. -/
theorem prints_roots : ∀ roots : List Value,
    (∀ v ∈ roots, ∀ n : Numeral, n.token ∈ v.flatten → n.Printable) →
      (inside o []).Prints (roots.flatMap items) (roots.flatMap (print o 0)) (inside o [])
  | [], _ => .nil _
  | v :: roots, numbers =>
    (prints_items v [] (numbers v List.mem_cons_self)).append
      (prints_roots roots fun v mem => numbers v (List.mem_cons_of_mem _ mem))

end Value

/-! ### Calls -/

/-- The item with its text decoded, if it is one given as bytes in an encoding. -/
def Item.decoded : Item → Item
  | .scalar (.encoded bytes .utf8) =>
    match Utf8.text? bytes with
    | some text => .scalar (.string text)
    | none => .scalar (.encoded bytes .utf8)
  | .scalar (.encoded bytes .latin1) => .scalar (.string (Latin1.text bytes))
  | item => item

namespace Writer

variable {w next last : Writer} {request : Request} {answer : Except WriterError Bytes}
  {items : List Item} {bytes : Bytes}

theorem fragment_decoded (w : Writer) (item : Item) :
    w.fragment item.decoded = w.fragment item := by
  cases item with
  | scalar s =>
    cases s with
    | encoded bytes encoding =>
      cases encoding with
      | latin1 => rfl
      | utf8 =>
        rw [Item.decoded]
        cases text : Utf8.text? bytes with
        | none => rfl
        | some text' => simp [fragment, Scalar.text, text]
    | _ => rfl
  | _ => rfl

theorem Prints.of_decoded (h : w.Prints (items.map Item.decoded) bytes next) :
    w.Prints items bytes next := by
  induction items generalizing w bytes with
  | nil => exact h
  | cons item items ih =>
    cases h with
    | cons fragment more =>
      rw [fragment_decoded] at fragment
      exact .cons fragment (ih more)

/-- A call by a caller who has drained what was pending, or asks for more of it, is answered if its
item is printed. What it does not hand out is pending. -/
theorem Answers.prints_of_turn (h : w.Answers request answer next) (room : 0 < request.capacity)
    (turn : w.pending = [] ∨ request.item? = none)
    (printed : Prints { w with pending := [] } (request.item?.toList ++ items) bytes last) :
    ∃ rest, Prints { next with pending := [] } items rest last ∧
      w.pending ++ bytes = Exchange.slice (request, answer) ++ (next.pending ++ rest) ∧
      Exchange.taken? (request, answer) = request.item? ∧
      (Exchange.isFull (request, answer) = false → next.pending = []) := by
  cases h with
  | refused e cause nothing =>
    cases request with
    | more capacity => exact absurd (nothing capacity rfl) (Nat.pos_iff_ne_zero.1 room)
    | write item capacity =>
      have refused := cause item capacity rfl room (turn.resolve_right nofun)
      cases printed with
      | cons fragment more => exact absurd (fragment.symm.trans refused) nofun
  | @write item capacity own slots room idle fragment =>
    cases printed with
    | @cons _ _ _ _ front rest _ fragment' more =>
      cases fragment.symm.trans fragment'
      refine ⟨rest, more, ?_, rfl, short_of_not_isFull⟩
      show w.pending ++ (own ++ rest) = own.take capacity ++ (own.drop capacity ++ rest)
      rw [idle, List.nil_append, ← List.append_assoc, List.take_append_drop]
  | @more capacity room =>
    refine ⟨bytes, printed, ?_, rfl, short_of_not_isFull⟩
    show w.pending ++ bytes = w.pending.take capacity ++ (w.pending.drop capacity ++ bytes)
    rw [← List.append_assoc, List.take_append_drop]

/-- **What is printed is handed out to a caller who drains every fragment**, and no call is
refused. -/
theorem serve_prints {requests : List Request} (room : ∀ request ∈ requests, 0 < request.capacity)
    (turn : w.pending = [] ∨ (w.serve requests).1.head?.any Exchange.asksMore = true)
    (all : drained (w.serve requests).1 = true)
    (printed : Prints { w with pending := [] } (requests.filterMap Request.item?) bytes last) :
    taken (w.serve requests).1 = requests.filterMap Request.item? ∧
      handedOut (w.serve requests).1 = w.pending ++ bytes ∧ (w.serve requests).2 = last := by
  induction requests generalizing w bytes with
  | nil =>
    have idle : w.pending = [] := turn.resolve_right Bool.false_ne_true
    cases printed
    refine ⟨rfl, ?_, ?_⟩
    · rw [idle]
      rfl
    · show w = { w with pending := [] }
      rw [← idle]
  | cons request requests ih =>
    have turn' : w.pending = [] ∨ request.item? = none :=
      turn.imp_right fun more => Option.isNone_iff_eq_none.1 more
    obtain ⟨here, rest⟩ := (Bool.and_eq_true _ _).mp all
    rw [filterMap_item?_cons] at printed ⊢
    obtain ⟨bytes', printed', same, took, short⟩ := (w.answer_answers request).prints_of_turn
      (room request List.mem_cons_self) turn' printed
    -- The call filled its buffer, and a call for more follows, or nothing is left.
    have next : (w.answer request).2.pending = [] ∨
        ((w.answer request).2.serve requests).1.head?.any Exchange.asksMore = true := by
      rcases (Bool.or_eq_true _ _).mp here with part | more
      · exact .inl (short (by simpa using part))
      · exact .inr more
    obtain ⟨taken_eq, handed, left⟩ := ih
      (fun request mem => room request (List.mem_cons_of_mem _ mem)) next rest printed'
    refine ⟨?_, ?_, left⟩
    · rw [taken_serve_cons, took, taken_eq]
    · rw [same, ← handed]
      rfl

/-- **What is written is laid out by the printer.** A caller asks a new writer for the items of
values one after another, each string as a text or as bytes in an encoding, and drains every
fragment, with buffers of any sizes. No call is refused, the output is what the printer makes of the
values, with nothing between them, and in the end the writer is as new: no container is open and
nothing is pending. So a further value is written like the first one. -/
theorem serve_walk {o : WriterOptions} {roots : List Value} {requests : List Request}
    (numbers : ∀ v ∈ roots, ∀ n : Numeral, n.token ∈ v.flatten → n.Printable)
    (walk : (requests.filterMap Request.item?).map Item.decoded = roots.flatMap Value.items)
    (room : ∀ request ∈ requests, 0 < request.capacity)
    (all : drained (({ options := o } : Writer).serve requests).1 = true) :
    taken (({ options := o } : Writer).serve requests).1 = requests.filterMap Request.item? ∧
      handedOut (({ options := o } : Writer).serve requests).1 = roots.flatMap (Value.print o 0) ∧
      (({ options := o } : Writer).serve requests).2 = { options := o } ∧
      (({ options := o } : Writer).serve requests).2.depth = 0 := by
  have printed := Value.prints_roots (o := o) roots numbers
  rw [← walk] at printed
  obtain ⟨took, handed, left⟩ := serve_prints room (.inl rfl) all printed.of_decoded
  refine ⟨took, handed, left, ?_⟩
  rw [left]
  rfl

/-- An object with an empty array inside and a key in ISO-8859-1, then a number. The buffers are of
changing sizes, and one of them is filled exactly. -/
theorem serve_walk_twoRoots :
    let requests : List Request :=
      [.write .beginObject 1, .more 1, .write (.scalar (.string "k")) 64, .write .beginArray 2,
        .more 2, .write .endArray 3, .write (.scalar (.encoded [0xe9] .latin1)) 4, .more 9,
        .write (.scalar .null) 64, .write .endObject 64, .write (.scalar (.literal "-1e5")) 5]
    let w : Writer := { options := { indent := some "\t" } }
    taken (w.serve requests).1 = requests.filterMap Request.item? ∧
      handedOut (w.serve requests).1 =
        Utf8.bytes "\x7b\n\t\"k\": [],\n\t\"é\": null\n\x7d-1e5" ∧
      (w.serve requests).2 = w ∧ (w.serve requests).2.depth = 0 := by
  intro requests w
  let roots : List Value :=
    [.object [("k", .array []), ("é", .null)], .number (.other (.text "-1e5"))]
  have numbers : ∀ v ∈ roots, ∀ n : Numeral, n.token ∈ v.flatten → n.Printable := by
    intro v root n mem
    simp only [roots, List.mem_cons, List.not_mem_nil, or_false] at root
    rcases root with rfl | rfl
    · simp [Value.flatten, Value.flattenMembers, Value.flattenElements] at mem
      cases n <;> simp [Numeral.token] at mem
    · obtain rfl := Numeral.token_injective (List.mem_singleton.1 mem)
      exact Number.isLiteral_iff.1 (by decide)
  obtain ⟨took, handed, left, depth⟩ := @serve_walk w.options roots requests numbers (by decide)
    (by decide) (by decide)
  exact ⟨took, handed.trans (by decide), left, depth⟩

end Writer

end JsonStream
