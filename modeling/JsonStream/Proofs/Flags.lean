import Mathlib.Algebra.Group.Nat.Defs
import Mathlib.Logic.Relation
import JsonStream.Proofs.Grammar.Flaws
import JsonStream.Proofs.Grammar.Places
import JsonStream.Reader.Lexeme
import JsonStream.Reader.Frame

/-!
# Flags of open containers

What a reader knows between two bytes can be kept as flags that do not know of each other: what
each open container accepts next and whether it is still empty, how far the root value is, how far
the scalar in progress is, whether the input has ended. Reading sets one flag after another: that a
value has started, what is accepted next, that a value is complete. Most combinations make no sense,
and none of those is ever reached.

* `Flags.Sets`: what reading does to the flags, whatever the bytes are.
* `Flags.WellFormed`: the combinations that make sense.
* `Flags.WellFormed.sets`, `Flags.WellFormed.leads`: reading keeps to them.
-/

namespace JsonStream

/-- What an open container accepts next. -/
inductive Expecting where
  | key
  | colon
  | value
  | comma
deriving Repr, DecidableEq

/-- An open container with its flags. -/
structure OpenContainer where
  container : Container
  expecting : Expecting
  /-- No member has started yet, so that the container may close at once. -/
  empty : Bool
deriving Repr, DecidableEq

/-- The scalar in progress. A string has the escape that it is in, if any, and the state of its
UTF-8 check, which is kept during an escape. -/
inductive ScalarState where
  | idle
  | keyword
  | number
  | string (escape? : Option EscapeState) (utf8 : Utf8.State)
deriving Repr, DecidableEq

/-- All flags of a reader. -/
structure Flags where
  encoding : Encoding := .utf8
  /-- The open containers, the innermost first. -/
  frames : List OpenContainer := []
  root : Root := .value
  scalar : ScalarState := .idle
  /-- Whether the end of input has been signalled. -/
  closed : Bool := false
  /-- Whether a byte has been refused. -/
  failed : Bool := false
deriving Repr, DecidableEq

namespace OpenContainer

/-- A container right after its opening bracket. -/
def opened : Container → OpenContainer
  | .array => ⟨.array, .value, true⟩
  | .object => ⟨.object, .key, true⟩

/-- Whatever an array expects that is no comma is a value. -/
def due : OpenContainer → Expecting
  | ⟨.array, .comma, _⟩ => .comma
  | ⟨.array, _, _⟩ => .value
  | ⟨.object, expecting, _⟩ => expecting

/-- A member has started. -/
def started (c : OpenContainer) : OpenContainer :=
  { c with empty := false }

/-- A value or a key is complete. -/
def completed : OpenContainer → OpenContainer
  | ⟨.array, _, empty⟩ => ⟨.array, .comma, empty⟩
  | ⟨.object, .key, empty⟩ => ⟨.object, .colon, empty⟩
  | ⟨.object, _, empty⟩ => ⟨.object, .comma, empty⟩

/-- A comma has been read. -/
def separated : OpenContainer → OpenContainer
  | ⟨.array, _, empty⟩ => ⟨.array, .value, empty⟩
  | ⟨.object, _, empty⟩ => ⟨.object, .key, empty⟩

/-- A colon has been read. -/
def paired (c : OpenContainer) : OpenContainer :=
  { c with expecting := .value }

end OpenContainer

/-- Whether the scalar is a string. -/
def ScalarState.isString : ScalarState → Bool
  | .string .. => true
  | .idle | .keyword | .number => false

/-- The scalar may be complete; a string is so only outside escapes and UTF-8 sequences. -/
inductive ScalarState.MayEnd : ScalarState → Prop where
  | keyword : MayEnd .keyword
  | number : MayEnd .number
  | string : MayEnd (.string none .boundary)

theorem ScalarState.MayEnd.ne_idle {scalar : ScalarState} (h : scalar.MayEnd) :
    scalar ≠ .idle := by
  cases h <;> nofun

/-- What a byte that is taken inside an escape, and does not complete it, makes of its state. -/
inductive EscapeState.Goes : EscapeState → EscapeState → Prop where
  | unit : Goes .start (.unit {})
  | digit {digits next : HexDigits} {byte : UInt8} (push : digits.push? byte = some next)
      (more : next.unit? = none) : Goes (.unit digits) (.unit next)
  | high {digits next : HexDigits} {byte : UInt8} {unit : Nat}
      (push : digits.push? byte = some next) (last : next.unit? = some unit)
      (isHigh : Utf16.isHighSurrogate unit = true) : Goes (.unit digits) (.needBackslash unit)
  | backslash {high : Nat} : Goes (.needBackslash high) (.needMark high)
  | mark {high : Nat} : Goes (.needMark high) (.secondUnit high {})
  | secondDigit {high : Nat} {digits next : HexDigits} {byte : UInt8}
      (push : digits.push? byte = some next) (more : next.unit? = none) :
      Goes (.secondUnit high digits) (.secondUnit high next)

/-- Where a byte completes an escape: with one character, by one code unit or by the second one. -/
inductive EscapeState.Ends : EscapeState → Prop where
  | short {byte : UInt8} {c : Char} (short : Escape.short? byte = some c) : Ends .start
  | unit {digits next : HexDigits} {byte : UInt8} {unit : Nat} {c : Char}
      (push : digits.push? byte = some next) (last : next.unit? = some unit)
      (char : Utf16.char? unit = some c) : Ends (.unit digits)
  | pair {high low : Nat} {digits next : HexDigits} {byte : UInt8} {c : Char}
      (push : digits.push? byte = some next) (last : next.unit? = some low)
      (char : Utf16.pairChar? high low = some c) : Ends (.secondUnit high digits)

namespace Flags

/-- What is accepted next, if anything. -/
def due (f : Flags) : Option Expecting :=
  match f.frames with
  | [] => if f.root = .value then some .value else none
  | top :: _ => some top.due

/-- Marks the innermost container as not empty. -/
def valueStarted (f : Flags) : Flags :=
  match f.frames with
  | [] => f
  | top :: outer => { f with frames := top.started :: outer }

/-- Moves what is around a value or a key past it. -/
def valueCompleted (f : Flags) : Flags :=
  match f.frames with
  | [] => { f with root := .afterValue }
  | top :: outer => { f with frames := top.completed :: outer }

/-- Opens a container. -/
def openContainer (f : Flags) (c : Container) : Flags :=
  { f.valueStarted with frames := .opened c :: f.valueStarted.frames }

/-- Starts a scalar. -/
def begin (f : Flags) (scalar : ScalarState) : Flags :=
  { f.valueStarted with scalar }

/-- The scalar is complete. -/
def endScalar (f : Flags) : Flags :=
  { f with scalar := .idle }.valueCompleted

/-- **What reading sets**, one constructor for each path. -/
inductive Sets (f : Flags) : Flags → Prop where
  | openContainer (idle : f.scalar = .idle) (due : f.due = some .value) (c : Container) :
      Sets f (f.openContainer c)
  | closeContainer {top : OpenContainer} {outer : List OpenContainer} (idle : f.scalar = .idle)
      (innermost : f.frames = top :: outer) (ready : top.due = .comma ∨ top.empty = true) :
      Sets f { f with frames := outer }.valueCompleted
  | begin {scalar : ScalarState} (idle : f.scalar = .idle) (due : f.due = some .value)
      (kind : scalar = .keyword ∨ scalar = .number) : Sets f (f.begin scalar)
  | beginString (idle : f.scalar = .idle) (due : f.due = some .value ∨ f.due = some .key) :
      Sets f (f.begin (.string none .boundary))
  | comma {top : OpenContainer} {outer : List OpenContainer} (idle : f.scalar = .idle)
      (innermost : f.frames = top :: outer) (due : top.due = .comma) :
      Sets f { f with frames := top.separated :: outer }
  | colon {top : OpenContainer} {outer : List OpenContainer} (idle : f.scalar = .idle)
      (innermost : f.frames = top :: outer) (due : top.due = .colon) :
      Sets f { f with frames := top.paired :: outer }
  | sequence {utf8 next : Utf8.State} {byte : UInt8} (string : f.scalar = .string none utf8)
      (lead : utf8 = .boundary → f.encoding = .utf8) (step : utf8.step? byte = some next) :
      Sets f { f with scalar := .string none next }
  | escape {utf8 : Utf8.State} (string : f.scalar = .string none utf8) (whole : utf8 = .boundary) :
      Sets f { f with scalar := .string (some .start) utf8 }
  | inEscape {state next : EscapeState} {utf8 : Utf8.State}
      (string : f.scalar = .string (some state) utf8) (goes : state.Goes next) :
      Sets f { f with scalar := .string (some next) utf8 }
  | pushChar {state : EscapeState} {utf8 : Utf8.State}
      (string : f.scalar = .string (some state) utf8) (ends : state.Ends) :
      Sets f { f with scalar := .string none utf8 }
  | endScalar (ends : f.scalar.MayEnd) : Sets f f.endScalar
  | endDocument (idle : f.scalar = .idle) (empty : f.frames = []) (root : f.root = .afterValue)
      (closed : f.closed = true) : Sets f { f with root := .done }
  | attach (opened : f.closed = false) (ended : Bool) : Sets f { f with closed := ended }

/-- What happens to the flags. Any byte may be refused, and then nothing is read any more; the
reader may start over at any time. -/
inductive Goes (f : Flags) : Flags → Prop where
  | sets {g : Flags} (alive : f.failed = false) (sets : f.Sets g) : Goes f g
  | refuse (alive : f.failed = false) : Goes f { f with scalar := .idle, failed := true }
  | reset : Goes f { encoding := f.encoding }

/-- At most one path is taken. -/
abbrev Follows : Flags → Flags → Prop :=
  Relation.ReflGen Sets

/-- Reading leads from some flags to others. -/
abbrev Leads : Flags → Flags → Prop :=
  Relation.ReflTransGen Goes

end Flags

/-! ### Flags that make sense -/

/-- The digits of a code unit that is not complete: three at most, and their value. -/
def HexDigits.Short (digits : HexDigits) : Prop :=
  digits.count ≤ 3 ∧ digits.value < 0x10 ^ digits.count

/-- Less than a code unit is kept of an escape, and of a whole one only a high surrogate. -/
def EscapeState.WellFormed : EscapeState → Prop
  | .start => True
  | .unit digits => digits.Short
  | .needBackslash high | .needMark high => Utf16.isHighSurrogate high = true
  | .secondUnit high digits => Utf16.isHighSurrogate high = true ∧ digits.Short

namespace OpenContainer

/-- Something is being read inside the container. -/
structure Waits (c : OpenContainer) : Prop where
  empty : c.empty = false
  expecting : c.expecting = .value

/-- An array never expects a key or a colon. A container is empty only right after its opening
bracket. -/
structure Valid (c : OpenContainer) : Prop where
  array : c.container = .array → c.expecting = .value ∨ c.expecting = .comma
  empty : c.empty = true → c.container = .array ∧ c.expecting = .value ∨
    c.container = .object ∧ c.expecting = .key

end OpenContainer

namespace Flags

/-- The containers around the innermost one wait for it, and the flags of each make sense. -/
structure Nested (frames : List OpenContainer) : Prop where
  outer : ∀ c ∈ frames.tail, c.Waits
  valid : ∀ c ∈ frames, c.Valid

/-- What is around a scalar in progress accepts it, and is not empty. -/
def Surrounds (scalar : ScalarState) (root : Root) : List OpenContainer → Prop
  | [] => root = .value
  | top :: _ => top.empty = false ∧
    (top.expecting = .value ∨ top.expecting = .key ∧ scalar.isString = true)

/-- **Flags that make sense.** -/
structure WellFormed (f : Flags) : Prop where
  nested : Nested f.frames
  root : f.frames ≠ [] → f.root = .value
  done : f.root = .done → f.closed = true ∧ f.frames = []
  scalar : f.scalar ≠ .idle → Surrounds f.scalar f.root f.frames
  utf8 : ∀ escape? utf8, f.scalar = .string escape? utf8 → utf8 ≠ .boundary →
    escape? = none ∧ f.encoding = .utf8
  escape : ∀ state utf8, f.scalar = .string (some state) utf8 → state.WellFormed

end Flags

/-! ### Escapes -/

theorem HexDigits.short_empty : Short {} :=
  ⟨Nat.zero_le 3, Nat.one_pos⟩

/-- One more digit leaves at most three, unless it is the fourth. -/
theorem HexDigits.Short.push {digits next : HexDigits} {byte : UInt8} (h : digits.Short)
    (push : digits.push? byte = some next) (more : next.unit? = none) : next.Short := by
  obtain ⟨d, digit, rfl⟩ := Option.map_eq_some_iff.1 push
  obtain ⟨few, small⟩ := h
  have other : digits.count + 1 ≠ 4 := by
    intro four
    rw [unit?, if_pos four] at more
    contradiction
  have bound := hexDigit_lt (digit?_eq_some_iff.1 digit)
  refine ⟨show digits.count + 1 ≤ 3 by omega, ?_⟩
  calc
    0x10 * digits.value + d < 0x10 * (digits.value + 1) := by omega
    _ ≤ 0x10 * 0x10 ^ digits.count := Nat.mul_le_mul_left 0x10 small
    _ = 0x10 ^ (digits.count + 1) := (Nat.pow_succ').symm

theorem EscapeState.WellFormed.goes {state next : EscapeState} (h : state.WellFormed)
    (goes : state.Goes next) : next.WellFormed := by
  cases goes with
  | unit => exact HexDigits.short_empty
  | digit push more => exact HexDigits.Short.push h push more
  | high push last isHigh => exact isHigh
  | backslash | mark => first | exact h | exact ⟨h, HexDigits.short_empty⟩
  | secondDigit push more => exact ⟨h.1, h.2.push push more⟩

/-! ### Containers -/

namespace OpenContainer

variable {c : OpenContainer} {expecting : Expecting}

theorem valid_opened (container : Container) : (opened container).Valid := by
  cases container with
  | array => exact ⟨fun _ => .inl rfl, fun _ => .inl ⟨rfl, rfl⟩⟩
  | object => exact ⟨nofun, fun _ => .inr ⟨rfl, rfl⟩⟩

/-- A container that is not empty only has to be no array that expects a key or a colon. -/
theorem valid_of_not_empty (empty : c.empty = false)
    (array : c.container = .array → c.expecting = .value ∨ c.expecting = .comma) : c.Valid :=
  ⟨array, fun isEmpty => absurd (empty.symm.trans isEmpty) Bool.false_ne_true⟩

theorem Waits.valid (h : c.Waits) : c.Valid :=
  valid_of_not_empty h.empty fun _ => .inl h.expecting

theorem Valid.started (h : c.Valid) : c.started.Valid :=
  valid_of_not_empty rfl h.array

theorem Valid.expecting_eq (h : c.Valid) (due : c.due = expecting) : c.expecting = expecting := by
  obtain ⟨_ | _, expects, _⟩ := c
  · rcases h.array rfl with same | same <;> cases same <;> exact due
  · exact due

/-- What expects a comma or a colon is not empty. -/
theorem Valid.not_empty (h : c.Valid) (other : c.due = .comma ∨ c.due = .colon) :
    c.empty = false := by
  rw [Bool.eq_false_iff]
  intro empty
  rcases h.empty empty with ⟨-, expects⟩ | ⟨-, expects⟩ <;>
    rcases other with due | due <;>
    cases expects.symm.trans (h.expecting_eq due)

theorem valid_completed (empty : c.empty = false) : c.completed.Valid := by
  obtain ⟨container, expects, _⟩ := c
  cases container with
  | array => exact valid_of_not_empty empty fun _ => .inr rfl
  | object => cases expects <;> exact valid_of_not_empty empty nofun

theorem valid_separated (empty : c.empty = false) : c.separated.Valid := by
  obtain ⟨container, expects, _⟩ := c
  cases container with
  | array => exact valid_of_not_empty empty fun _ => .inl rfl
  | object => exact valid_of_not_empty empty nofun

theorem valid_paired (empty : c.empty = false) : c.paired.Valid :=
  valid_of_not_empty empty fun _ => .inl rfl

end OpenContainer

namespace Flags

variable {f g : Flags} {top : OpenContainer} {outer : List OpenContainer}

theorem nested_nil : Nested [] :=
  ⟨nofun, nofun⟩

theorem nested_cons_iff : Nested (top :: outer) ↔ top.Valid ∧ ∀ c ∈ outer, c.Waits := by
  constructor
  · intro h
    exact ⟨h.valid top List.mem_cons_self, h.outer⟩
  · rintro ⟨valid, waits⟩
    exact ⟨waits, List.forall_mem_cons.2 ⟨valid, fun c mem => (waits c mem).valid⟩⟩

/-- A container that is closed leaves the one around it, which waits for it. -/
theorem Nested.outer_nested (h : Nested (top :: outer)) : Nested outer :=
  ⟨fun c mem => h.outer c (List.mem_of_mem_tail mem),
    fun c mem => (h.outer c mem).valid⟩

/-- What is accepted next tells what the innermost container expects. -/
theorem Nested.expecting_eq {expecting : Expecting} (h : Nested (top :: outer))
    (due : top.due = expecting) : top.expecting = expecting :=
  (nested_cons_iff.1 h).1.expecting_eq due

/-! ### Reading keeps to flags that make sense -/

/-- Flags between scalars. -/
theorem wellFormed_idle (idle : f.scalar = .idle) (nested : Nested f.frames)
    (root : f.frames ≠ [] → f.root = .value)
    (done : f.root = .done → f.closed = true ∧ f.frames = []) : f.WellFormed := by
  refine ⟨nested, root, done, fun busy => absurd idle busy, ?_, ?_⟩
  · intro escape? utf8 string
    cases idle.symm.trans string
  · intro state utf8 string
    cases idle.symm.trans string

theorem wellFormed_start (encoding : Encoding) : WellFormed { encoding } :=
  wellFormed_idle rfl nested_nil (fun some => absurd rfl some) nofun

/-- Between scalars, before the root value is complete. -/
theorem wellFormed_between (idle : f.scalar = .idle) (nested : Nested f.frames)
    (root : f.root = .value) : f.WellFormed :=
  wellFormed_idle idle nested (fun _ => root) fun done => by cases root.symm.trans done

/-- Where something is accepted, the root value is not complete. -/
theorem WellFormed.root_of_due {expecting : Expecting} (h : f.WellFormed)
    (due : f.due = some expecting) : f.root = .value := by
  cases frames : f.frames with
  | nil =>
    rw [Flags.due, frames] at due
    refine Decidable.byContradiction fun other => ?_
    cases (if_neg other).symm.trans due
  | cons top outer => exact h.root (frames ▸ List.cons_ne_nil _ _)

/-- A value or a key is complete: the container around it is not empty. -/
theorem wellFormed_valueCompleted (idle : f.scalar = .idle) (nested : Nested f.frames)
    (root : f.root = .value) (busy : ∀ c ∈ f.frames.head?, c.empty = false) :
    f.valueCompleted.WellFormed := by
  obtain ⟨encoding, _ | ⟨top, outer⟩, _, scalar, closed, failed⟩ := f
  · exact wellFormed_idle idle nested_nil (fun some => absurd rfl some) nofun
  · have valid := OpenContainer.valid_completed (busy top rfl)
    exact wellFormed_between idle (nested_cons_iff.2 ⟨valid, nested.outer⟩) root

/-- A container is opened inside one that expects a value. -/
theorem WellFormed.openContainer (h : f.WellFormed) (idle : f.scalar = .idle)
    (due : f.due = some .value) (c : Container) : (f.openContainer c).WellFormed := by
  have root := h.root_of_due due
  obtain ⟨encoding, _ | ⟨top, outer⟩, _, scalar, closed, failed⟩ := f
  · exact wellFormed_between idle (nested_cons_iff.2 ⟨OpenContainer.valid_opened c, nofun⟩) root
  · have waits : top.started.Waits := ⟨rfl, h.nested.expecting_eq (Option.some.inj due)⟩
    have around := List.forall_mem_cons.2 ⟨waits, h.nested.outer⟩
    exact wellFormed_between idle (nested_cons_iff.2 ⟨OpenContainer.valid_opened c, around⟩) root

/-- The container around the one that is closed waits for it. -/
theorem WellFormed.closeContainer (h : f.WellFormed) (idle : f.scalar = .idle)
    (innermost : f.frames = top :: outer) :
    WellFormed { f with frames := outer }.valueCompleted := by
  have nested := h.nested
  rw [innermost] at nested
  refine wellFormed_valueCompleted idle nested.outer_nested ?_ fun c mem => ?_
  · exact h.root (innermost ▸ List.cons_ne_nil _ _)
  · exact (nested.outer c (List.mem_of_mem_head? mem)).empty

/-- A scalar starts where it is accepted. -/
theorem WellFormed.begin {scalar : ScalarState} {expecting : Expecting} (h : f.WellFormed)
    (due : f.due = some expecting)
    (accepts : expecting = .value ∨ expecting = .key ∧ scalar.isString = true)
    (fresh : ∀ escape? utf8, scalar = .string escape? utf8 → escape? = none ∧ utf8 = .boundary) :
    (f.begin scalar).WellFormed := by
  have root := h.root_of_due due
  have ongoing : f.root ≠ .done := fun done => by cases root.symm.trans done
  have utf8 : ∀ escape? utf8, scalar = .string escape? utf8 → utf8 ≠ .boundary →
      escape? = none ∧ f.encoding = .utf8 :=
    fun escape? utf8 string other => absurd (fresh escape? utf8 string).2 other
  have escape : ∀ state utf8, scalar = .string (some state) utf8 → state.WellFormed :=
    fun state utf8 string => by cases (fresh (some state) utf8 string).1
  obtain ⟨encoding, _ | ⟨top, outer⟩, _, _, closed, failed⟩ := f
  · exact ⟨nested_nil, fun _ => root, fun done => absurd done ongoing, fun _ => root, utf8, escape⟩
  · obtain ⟨valid, waits⟩ := nested_cons_iff.1 h.nested
    have same : top.expecting = expecting := valid.expecting_eq (Option.some.inj due)
    rw [← same] at accepts
    have nested := nested_cons_iff.2 ⟨valid.started, waits⟩
    exact ⟨nested, fun _ => root, fun done => absurd done ongoing, fun _ => ⟨rfl, accepts⟩, utf8,
      escape⟩

/-- The innermost container goes on between its members. -/
theorem WellFormed.goOn {next : OpenContainer} (h : f.WellFormed) (idle : f.scalar = .idle)
    (innermost : f.frames = top :: outer) (valid : next.Valid) :
    WellFormed { f with frames := next :: outer } := by
  have nested := h.nested
  rw [innermost] at nested
  refine wellFormed_between idle (nested_cons_iff.2 ⟨valid, nested.outer⟩) ?_
  exact h.root (innermost ▸ List.cons_ne_nil _ _)

/-- The innermost container is not empty where a comma or a colon is due. -/
theorem WellFormed.not_empty (h : f.WellFormed) (innermost : f.frames = top :: outer)
    (other : top.due = .comma ∨ top.due = .colon) : top.empty = false :=
  (h.nested.valid top (innermost ▸ List.mem_cons_self)).not_empty other

/-- A string goes on where it stands. -/
theorem WellFormed.inString {escape? next? : Option EscapeState} {utf8 next : Utf8.State}
    (h : f.WellFormed) (string : f.scalar = .string escape? utf8)
    (pending : next ≠ .boundary → next? = none ∧ f.encoding = .utf8)
    (escape : ∀ state, next? = some state → state.WellFormed) :
    WellFormed { f with scalar := .string next? next } where
  nested := h.nested
  root := h.root
  done := h.done
  scalar _ := by
    have around := h.scalar (by rw [string]; nofun)
    rw [string] at around
    exact around
  utf8 := by
    rintro _ _ ⟨⟩
    exact pending
  escape := by
    rintro state _ ⟨⟩
    exact escape state rfl

/-- The container around a scalar in progress is not empty. -/
theorem WellFormed.marked (h : f.WellFormed) (busy : f.scalar ≠ .idle) :
    ∀ c ∈ f.frames.head?, c.empty = false := by
  intro c mem
  have around := h.scalar busy
  obtain ⟨outer, innermost⟩ := List.head?_eq_some_iff.1 mem
  rw [innermost] at around
  exact around.1

/-- A scalar is complete. -/
theorem WellFormed.endScalar (h : f.WellFormed) (busy : f.scalar ≠ .idle) :
    f.endScalar.WellFormed := by
  refine wellFormed_valueCompleted rfl h.nested ?_ (h.marked busy)
  have around := h.scalar busy
  cases frames : f.frames with
  | nil =>
    rw [frames] at around
    exact around
  | cons top outer => exact h.root (frames ▸ List.cons_ne_nil _ _)

/-- **Reading keeps to flags that make sense**, on every path. -/
theorem WellFormed.sets (h : f.WellFormed) (sets : f.Sets g) : g.WellFormed := by
  cases sets with
  | openContainer idle due c => exact h.openContainer idle due c
  | closeContainer idle innermost ready => exact h.closeContainer idle innermost
  | begin idle due kind =>
    refine h.begin due (.inl rfl) fun _ _ string => ?_
    rcases kind with rfl | rfl <;> cases string
  | beginString idle due =>
    rcases due with value | key
    · exact h.begin value (.inl rfl) (by rintro _ _ ⟨⟩; exact ⟨rfl, rfl⟩)
    · exact h.begin key (.inr ⟨rfl, rfl⟩) (by rintro _ _ ⟨⟩; exact ⟨rfl, rfl⟩)
  | comma idle innermost due =>
    exact h.goOn idle innermost (OpenContainer.valid_separated (h.not_empty innermost (.inl due)))
  | colon idle innermost due =>
    exact h.goOn idle innermost (OpenContainer.valid_paired (h.not_empty innermost (.inr due)))
  | @sequence utf8 next byte string lead step =>
    refine h.inString string (fun _ => ⟨rfl, ?_⟩) nofun
    by_cases whole : utf8 = .boundary
    · exact lead whole
    · exact (h.utf8 _ _ string whole).2
  | escape string whole =>
    refine h.inString string (fun pending => absurd whole pending) ?_
    rintro _ ⟨⟩
    trivial
  | inEscape string goes =>
    refine h.inString string (fun pending => ?_) ?_
    · cases (h.utf8 _ _ string pending).1
    · rintro _ ⟨⟩
      exact (h.escape _ _ string).goes goes
  | pushChar string ends =>
    exact h.inString string (fun pending => ⟨rfl, (h.utf8 _ _ string pending).2⟩) nofun
  | endScalar ends => exact h.endScalar ends.ne_idle
  | endDocument idle empty root closed =>
    exact wellFormed_idle idle h.nested (fun some => absurd empty some) fun _ => ⟨closed, empty⟩
  | attach opened ended =>
    refine ⟨h.nested, h.root, fun done => ?_, h.scalar, h.utf8, h.escape⟩
    cases opened.symm.trans (h.done done).1

theorem WellFormed.goes (h : f.WellFormed) (goes : f.Goes g) : g.WellFormed := by
  cases goes with
  | sets alive sets => exact h.sets sets
  | refuse alive => exact wellFormed_idle rfl h.nested h.root h.done
  | reset => exact wellFormed_start f.encoding

/-- **Wherever reading leads, the flags make sense.** -/
theorem WellFormed.leads (h : f.WellFormed) (leads : f.Leads g) : g.WellFormed := by
  induction leads with
  | refl => exact h
  | tail _ goes ih => exact ih.goes goes

/-! ### Failures -/

theorem failed_valueStarted (f : Flags) : f.valueStarted.failed = f.failed := by
  rw [valueStarted]
  split <;> rfl

theorem failed_valueCompleted (f : Flags) : f.valueCompleted.failed = f.failed := by
  rw [valueCompleted]
  split <;> rfl

/-- No path sets the flag of a failure. -/
theorem Sets.failed_eq (sets : f.Sets g) : g.failed = f.failed := by
  cases sets with
  | openContainer | begin | beginString => exact failed_valueStarted f
  | closeContainer | endScalar => exact failed_valueCompleted _
  | _ => rfl

/-- As long as nothing has failed, any path may be taken. -/
theorem Follows.leads (h : f.Follows g) (alive : f.failed = false) :
    f.Leads g ∧ g.failed = false := by
  cases h with
  | refl => exact ⟨.refl, alive⟩
  | single sets => exact ⟨.single (.sets alive sets), sets.failed_eq.trans alive⟩

end Flags

end JsonStream
