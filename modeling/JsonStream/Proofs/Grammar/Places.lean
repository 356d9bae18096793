import JsonStream.Error
import JsonStream.Proofs.Grammar.Scalars

/-!
# Places between tokens

What a document may go on with between two tokens depends on its place in the grammar: on the
innermost container that is open, and on what stands in it so far. This module says what a place is,
which texts lead there and what is refused there. It refers to the grammar only.

* `Upto`: the texts that lead to a place.
* `Place.Refuses`: what is refused at a place, with the error for it.
* `Contents`: what a container holds up to a place, in terms of complete elements and members.
* `Upto.exists_contents`: a text that leads to a place inside a container ends with such contents,
  and so closing the container completes a value (`Upto.closing`).
-/

namespace JsonStream

/-- A kind of container. -/
inductive Container where
  | array
  | object
deriving Repr, DecidableEq

/-- A place between two tokens, directly inside the innermost open container or outside all of
them. -/
inductive Place where
  /-- A value is due: the root, the value of a member, or an element after a comma. -/
  | value
  /-- After an opening bracket, a value is due or the closing bracket. -/
  | firstElement
  /-- After an opening brace, a key is due or the closing brace. -/
  | firstKey
  /-- After a comma between members, a key is due. -/
  | key
  /-- After a key, a colon is due. -/
  | colon
  /-- After a value, a comma is due or what closes the container. -/
  | after
deriving Repr, DecidableEq

namespace Container

/-- The byte that opens a container. -/
def opening : Container → UInt8
  | array => Byte.openBracket
  | object => Byte.openBrace

/-- The byte that closes a container. -/
def closing : Container → UInt8
  | array => Byte.closeBracket
  | object => Byte.closeBrace

/-- The place after the opening byte. -/
def first : Container → Place
  | array => .firstElement
  | object => .firstKey

/-- The place after a comma. -/
def next : Container → Place
  | array => .value
  | object => .key

/-- The error for what is neither a comma nor the closing byte. -/
def separatorError : Container → ErrorCode
  | array => .expectedCommaOrArrayEnd
  | object => .expectedCommaOrObjectEnd

end Container

/-- A value may come next. -/
def Place.TakesValue (place : Place) : Prop :=
  place = .value ∨ place = .firstElement

/-- A key may come next. -/
def Place.TakesKey (place : Place) : Prop :=
  place = .key ∨ place = .firstKey

theorem Place.TakesValue.ne_after {place : Place} (h : place.TakesValue) : place ≠ .after := by
  rcases h with rfl | rfl <;> decide

theorem Place.TakesKey.ne_after {place : Place} (h : place.TakesKey) : place ≠ .after := by
  rcases h with rfl | rfl <;> decide

/-! ### The texts that lead to a place -/

/-- **The texts that lead to a place** inside the given open containers, the innermost one first. A
complete value is passed over as a whole, with all that it has inside. -/
inductive Upto (d : Dialect) : Place → List Container → Bytes → Prop where
  | start : Upto d .value [] []
  | blank {place : Place} {opened : List Container} {text blank : Bytes}
      (upto : Upto d place opened text) (isBlank : Blank blank) :
      Upto d place opened (text ++ blank)
  | opening {place : Place} {opened : List Container} {text : Bytes}
      (upto : Upto d place opened text) (takes : place.TakesValue) (c : Container) :
      Upto d c.first (c :: opened) (text ++ [c.opening])
  | value {place : Place} {opened : List Container} {text bytes : Bytes} {v : Value}
      (upto : Upto d place opened text) (takes : place.TakesValue)
      (spelled : Spells d (.value v) bytes) : Upto d .after opened (text ++ bytes)
  | comma {c : Container} {opened : List Container} {text : Bytes}
      (upto : Upto d .after (c :: opened) text) :
      Upto d c.next (c :: opened) (text ++ [Byte.comma])
  | key {place : Place} {opened : List Container} {text bytes : Bytes} {name : String}
      (upto : Upto d place opened text) (takes : place.TakesKey)
      (named : StringText d name bytes) : Upto d .colon opened (text ++ bytes)
  | colon {opened : List Container} {text : Bytes} (upto : Upto d .colon opened text) :
      Upto d .value opened (text ++ [Byte.colon])

/-- The shortest string. -/
theorem stringText_empty (d : Dialect) : StringText d "" [Byte.quote, Byte.quote] :=
  ⟨[], rfl, .nil⟩

/-! ### What is refused at a place -/

/-- The bytes with which some value starts. -/
def StartsValue (byte : UInt8) : Prop :=
  ∃ v rest, Spells .json (.value v) (byte :: rest)

namespace Place

/-- The bytes that may follow at a place, apart from white space. -/
def Allows : Place → Option Container → UInt8 → Prop
  | value, _, byte => StartsValue byte
  | firstElement, _, byte => StartsValue byte ∨ byte = Byte.closeBracket
  | firstKey, _, byte => byte = Byte.quote ∨ byte = Byte.closeBrace
  | key, _, byte => byte = Byte.quote
  | colon, _, byte => byte = Byte.colon
  | after, some c, byte => byte = Byte.comma ∨ byte = c.closing
  | after, none, _ => False

/-- The error for a byte that may not follow. -/
def code : Place → Option Container → ErrorCode
  | value, _ | firstElement, _ | after, none => .unexpectedCharacter
  | firstKey, _ | key, _ => .expectedString
  | colon, _ => .expectedColon
  | after, some c => c.separatorError

/-- **What is refused at a place** inside the innermost open container, if there is one: a byte that
is no white space and may not follow, and the end of input anywhere but after the root value. -/
def Refuses (place : Place) (inside : Option Container) : Option UInt8 → ErrorCode → Prop
  | some byte, error => ¬Blank [byte] ∧ ¬place.Allows inside byte ∧ error = place.code inside
  | none, error => ¬(place = .after ∧ inside = none) ∧ error = .unexpectedEnd

end Place

/-! ### Rows of elements and members -/

section
variable {d : Dialect} {v : Value} {vs : List Value} {ms : List (String × Value)} {key : String}
  {inside name before bytes after blank : Bytes}

theorem Blank.append {first second : Bytes} (h : Blank first) (h' : Blank second) :
    Blank (first ++ second) := by
  intro byte mem
  rcases List.mem_append.1 mem with mem | mem
  · exact h byte mem
  · exact h' byte mem

/-- White space may follow a row. -/
theorem Spells.row_blank {phrase : Phrase} (h : Spells d phrase inside)
    (row : ∀ v, phrase ≠ .value v) (isBlank : Blank blank) : Spells d phrase (inside ++ blank) := by
  induction h with
  | lastElement blank_before spelled blank_after =>
    simpa using Spells.lastElement blank_before spelled (blank_after.append isBlank)
  | element blank_before spelled blank_after more _ ih =>
    simpa using Spells.element blank_before spelled blank_after (ih nofun)
  | lastMember named blank_before spelled blank_after =>
    simpa using Spells.lastMember named blank_before spelled (blank_after.append isBlank)
  | member named blank_before spelled blank_after more _ ih =>
    simpa using Spells.member named blank_before spelled blank_after (ih nofun)
  | _ => exact absurd rfl (row _)

/-- Rows of elements are joined by a comma. -/
theorem Spells.elements_append {vs' : List Value} {inside' : Bytes}
    (h : Spells d (.elements vs) inside) (h' : Spells d (.elements vs') inside') :
    Spells d (.elements (vs ++ vs')) (inside ++ Byte.comma :: inside') := by
  generalize phrase : Phrase.elements vs = p at h
  induction h generalizing vs with
  | lastElement blank_before spelled blank_after =>
    cases phrase
    simpa using Spells.element blank_before spelled blank_after h'
  | element blank_before spelled blank_after more _ ih =>
    cases phrase
    simpa using Spells.element blank_before spelled blank_after (ih rfl)
  | _ => cases phrase

/-- Rows of members are joined by a comma. -/
theorem Spells.members_append {ms' : List (String × Value)} {inside' : Bytes}
    (h : Spells d (.members ms) inside) (h' : Spells d (.members ms') inside') :
    Spells d (.members (ms ++ ms')) (inside ++ Byte.comma :: inside') := by
  generalize phrase : Phrase.members ms = p at h
  induction h generalizing ms with
  | lastMember named blank_before spelled blank_after =>
    cases phrase
    simpa using Spells.member named blank_before spelled blank_after h'
  | member named blank_before spelled blank_after more _ ih =>
    cases phrase
    simpa using Spells.member named blank_before spelled blank_after (ih rfl)
  | _ => cases phrase

end

/-! ### The contents of an open container -/

/-- What stands in front of a key: nothing, or complete members and a comma. -/
inductive MembersBefore (d : Dialect) : Bytes → Prop where
  | none : MembersBefore d []
  | some {ms : List (String × Value)} {inside : Bytes} (spelled : Spells d (.members ms) inside) :
      MembersBefore d (inside ++ [Byte.comma])

/-- **What a container holds up to a place directly inside it.** -/
inductive Contents (d : Dialect) : Container → Place → Bytes → Prop where
  | noElement {blank : Bytes} (isBlank : Blank blank) : Contents d .array .firstElement blank
  | elements {vs : List Value} {inside : Bytes} (spelled : Spells d (.elements vs) inside) :
      Contents d .array .after inside
  | nextElement {vs : List Value} {inside blank : Bytes} (spelled : Spells d (.elements vs) inside)
      (isBlank : Blank blank) : Contents d .array .value (inside ++ Byte.comma :: blank)
  | noMember {blank : Bytes} (isBlank : Blank blank) : Contents d .object .firstKey blank
  | members {ms : List (String × Value)} {inside : Bytes} (spelled : Spells d (.members ms) inside) :
      Contents d .object .after inside
  | nextMember {ms : List (String × Value)} {inside blank : Bytes}
      (spelled : Spells d (.members ms) inside) (isBlank : Blank blank) :
      Contents d .object .key (inside ++ Byte.comma :: blank)
  | key {front before name after : Bytes} {key : String} (members : MembersBefore d front)
      (blank_before : Blank before) (named : StringText d key name) (blank_after : Blank after) :
      Contents d .object .colon (front ++ (before ++ (name ++ after)))
  | memberValue {front name blank : Bytes} {key : String} (members : MembersBefore d front)
      (named : KeyText d key name) (isBlank : Blank blank) :
      Contents d .object .value (front ++ (name ++ blank))

namespace Contents

variable {d : Dialect} {c : Container} {place : Place} {inside bytes blank : Bytes} {v : Value}

theorem append_blank (h : Contents d c place inside) (isBlank : Blank blank) :
    Contents d c place (inside ++ blank) := by
  cases h with
  | noElement first => exact .noElement (first.append isBlank)
  | elements spelled => exact .elements (spelled.row_blank nofun isBlank)
  | nextElement spelled first =>
    simpa using Contents.nextElement spelled (first.append isBlank)
  | noMember first => exact .noMember (first.append isBlank)
  | members spelled => exact .members (spelled.row_blank nofun isBlank)
  | nextMember spelled first =>
    simpa using Contents.nextMember spelled (first.append isBlank)
  | key members blank_before named first =>
    simpa using Contents.key members blank_before named (first.append isBlank)
  | memberValue members named first =>
    simpa using Contents.memberValue members named (first.append isBlank)

/-- A container holds nothing at first. -/
theorem first (d : Dialect) (c : Container) : Contents d c c.first [] := by
  cases c with
  | array => exact .noElement blank_nil
  | object => exact .noMember blank_nil

/-- A value that is due becomes the last element or completes the last member. -/
theorem append_value (h : Contents d c place inside) (takes : place.TakesValue)
    (spelled : Spells d (.value v) bytes) : Contents d c .after (inside ++ bytes) := by
  have alone : ∀ {blank}, Blank blank → Spells d (.elements [v]) (blank ++ bytes) := by
    intro blank isBlank
    simpa using Spells.lastElement isBlank spelled blank_nil
  cases h with
  | noElement isBlank => exact .elements (alone isBlank)
  | nextElement before isBlank =>
    simpa using Contents.elements (before.elements_append (alone isBlank))
  | @memberValue front name blank key members named isBlank =>
    have member : Spells d (.members [(key, v)]) (name ++ (blank ++ bytes)) := by
      simpa using Spells.lastMember named isBlank spelled blank_nil
    cases members with
    | none => simpa using Contents.members member
    | some before => simpa using Contents.members (before.members_append member)
  | elements | noMember | members | nextMember | key => simp [Place.TakesValue] at takes

theorem append_comma (h : Contents d c .after inside) :
    Contents d c c.next (inside ++ [Byte.comma]) := by
  cases h with
  | elements spelled => exact .nextElement spelled blank_nil
  | members spelled => exact .nextMember spelled blank_nil

theorem append_key {name : String} (h : Contents d c place inside) (takes : place.TakesKey)
    (named : StringText d name bytes) : Contents d c .colon (inside ++ bytes) := by
  cases h with
  | noMember isBlank => simpa using Contents.key .none isBlank named blank_nil
  | nextMember spelled isBlank => simpa using Contents.key (.some spelled) isBlank named blank_nil
  | noElement | elements | nextElement | members | key | memberValue =>
    simp [Place.TakesKey] at takes

theorem append_colon (h : Contents d c .colon inside) :
    Contents d c .value (inside ++ [Byte.colon]) := by
  cases h with
  | @key front before name after key members blank_before named blank_after =>
    have withColon : KeyText d key (before ++ (name ++ (after ++ [Byte.colon]))) :=
      ⟨before, name, after, rfl, blank_before, named, blank_after⟩
    simpa using Contents.memberValue members withColon blank_nil

/-- **A container that may be closed is a value.** -/
theorem exists_value (h : Contents d c place inside) (closes : place = c.first ∨ place = .after) :
    ∃ v, Spells d (.value v) (c.opening :: (inside ++ [c.closing])) := by
  cases h with
  | noElement isBlank => exact ⟨_, .emptyArray isBlank⟩
  | elements spelled => exact ⟨_, .array spelled⟩
  | noMember isBlank => exact ⟨_, .emptyObject isBlank⟩
  | members spelled => exact ⟨_, .object spelled⟩
  | nextElement | nextMember | key | memberValue => simp [Container.first] at closes

end Contents

/-! ### Inside a container -/

namespace Upto

variable {d : Dialect} {place : Place} {c : Container} {opened : List Container} {text : Bytes}

/-- **A text that leads to a place inside a container** is one that leads to a place where a value
is due, the opening byte and then the contents of the container. -/
theorem exists_contents (h : Upto d place (c :: opened) text) :
    ∃ around before inside, Upto d around opened before ∧ around.TakesValue ∧
      text = before ++ c.opening :: inside ∧ Contents d c place inside := by
  generalize stack : c :: opened = containers at h
  induction h generalizing c opened with
  | start => contradiction
  | blank _ isBlank ih =>
    obtain ⟨around, before, inside, upto, takes, rfl, contents⟩ := ih stack
    exact ⟨around, before, _, upto, takes, by simp, contents.append_blank isBlank⟩
  | opening upto takes c' =>
    cases stack
    exact ⟨_, _, [], upto, takes, rfl, .first d c'⟩
  | value _ takesValue spelled ih =>
    obtain ⟨around, before, inside, upto, takes, rfl, contents⟩ := ih stack
    exact ⟨around, before, _, upto, takes, by simp, contents.append_value takesValue spelled⟩
  | comma _ ih =>
    cases stack
    obtain ⟨around, before, inside, upto, takes, rfl, contents⟩ := ih rfl
    exact ⟨around, before, _, upto, takes, by simp, contents.append_comma⟩
  | key _ takesKey named ih =>
    obtain ⟨around, before, inside, upto, takes, rfl, contents⟩ := ih stack
    exact ⟨around, before, _, upto, takes, by simp, contents.append_key takesKey named⟩
  | colon _ ih =>
    obtain ⟨around, before, inside, upto, takes, rfl, contents⟩ := ih stack
    exact ⟨around, before, _, upto, takes, by simp, contents.append_colon⟩

/-- **Closing a container completes a value** where the container was opened, whatever has been
read inside. -/
theorem closing (h : Upto d place (c :: opened) text) (closes : place = c.first ∨ place = .after) :
    Upto d .after opened (text ++ [c.closing]) := by
  obtain ⟨around, before, inside, upto, takes, rfl, contents⟩ := h.exists_contents
  obtain ⟨v, spelled⟩ := contents.exists_value closes
  simpa using upto.value takes spelled

end Upto

end JsonStream
