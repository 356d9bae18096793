import JsonStream.Proofs.Flags
import JsonStream.Proofs.Transcript

/-!
# The flags of a reader

A frame is one slot, which stands for what its container accepts next and whether it is empty. The
slots change together what the flags change one by one. They agree because a container in which a
scalar or another container ends has been marked before: only where the flags make sense does a step
of the reader do what setting its flags does.

* `Reader.step_flags`: one byte.
* `Feed.next_flags`: one call.
* `Session.flags_represent`: after any moves the flags of the reader are those that reading leads
  to, and they make sense.
-/

namespace JsonStream

/-! ### Slots and flags -/

/-- The flags that a frame stands for. -/
def Frame.flags : Frame → OpenContainer
  | .array .first => ⟨.array, .value, true⟩
  | .array .value => ⟨.array, .value, false⟩
  | .array .separator => ⟨.array, .comma, false⟩
  | .object .first => ⟨.object, .key, true⟩
  | .object .key => ⟨.object, .key, false⟩
  | .object .colon => ⟨.object, .colon, false⟩
  | .object .value => ⟨.object, .value, false⟩
  | .object .separator => ⟨.object, .comma, false⟩

/-- The state of the scalar in progress. An escape is never inside a UTF-8 sequence. -/
def Lexeme.flags : Lexeme → ScalarState
  | .none => .idle
  | .keyword .. => .keyword
  | .number .. => .number
  | .text utf8 _ => .string Option.none utf8
  | .escape state => .string (some state) .boundary

/-- The flags of a reader. -/
def Reader.flags (r : Reader) : Flags where
  encoding := r.options.encoding
  frames := r.frames.map Frame.flags
  root := r.root
  scalar := r.lexeme.flags
  closed := r.closed
  failed := r.failure.isSome

theorem Frame.flags_started (frame : Frame) : frame.started.flags = frame.flags.started := by
  rcases frame with slot | slot <;> cases slot <;> rfl

/-- A slot is moved on as the flags are, if its container is not empty. -/
theorem Frame.flags_completed {frame : Frame} (busy : frame.flags.empty = false) :
    frame.completed.flags = frame.flags.completed := by
  rcases frame with slot | slot <;> cases slot <;> first | rfl | cases busy

namespace Reader

variable {r next : Reader} {frame : Frame} {outer : List Frame} {lexeme : Lexeme}

theorem flags_valueStarted (r : Reader) : r.valueStarted.flags = r.flags.valueStarted := by
  obtain ⟨_, _ | ⟨frame, outer⟩, _, _, _, _, _, _, _⟩ := r
  · rfl
  · rw [valueStarted, flags, List.map_cons, Frame.flags_started]
    rfl

theorem flags_valueCompleted (busy : ∀ frame ∈ r.frames.head?, frame.flags.empty = false) :
    r.valueCompleted.flags = r.flags.valueCompleted := by
  obtain ⟨_, _ | ⟨frame, outer⟩, _, _, _, _, _, _, _⟩ := r
  · rfl
  · rw [valueCompleted, flags, List.map_cons, Frame.flags_completed (busy frame rfl)]
    rfl

theorem flags_openContainer {c : Container} (fresh : frame.flags = .opened c) :
    (r.openContainer frame).flags = r.flags.openContainer c := by
  rw [Flags.openContainer, ← flags_valueStarted, ← fresh]
  rfl

theorem flags_begin (r : Reader) (carry : Bytes) (lexeme : Lexeme) :
    { r.valueStarted with carry, lexeme }.flags = r.flags.begin lexeme.flags := by
  rw [Flags.begin, ← flags_valueStarted]
  rfl

theorem flags_idle (idle : r.lexeme = .none) : r.flags.scalar = .idle :=
  congrArg Lexeme.flags idle

theorem flags_frames (innermost : r.frames = frame :: outer) :
    r.flags.frames = frame.flags :: outer.map Frame.flags :=
  congrArg (List.map Frame.flags) innermost

/-- What the innermost frame accepts next is what the flags say. -/
theorem flags_due (innermost : r.frames = frame :: outer) :
    r.flags.due = some frame.flags.due := by
  rw [Flags.due, flags_frames innermost]

/-- A scalar goes on, and no flag changes. -/
theorem sets_goOn (same : lexeme.flags = r.lexeme.flags) :
    r.flags.Follows { r with lexeme }.flags := by
  have flags : { r with lexeme }.flags = r.flags :=
    congrArg (fun scalar => { r.flags with scalar }) same
  rw [flags]

/-! ### Containers -/

/-- The container around the one that is closed is not empty, so that its slot moves on rightly. -/
theorem close_flags (h : r.flags.WellFormed) (idle : r.lexeme = .none)
    (innermost : r.frames = frame :: outer)
    (ready : frame.flags.due = .comma ∨ frame.flags.empty = true) :
    r.close.All fun next => r.flags.Follows next.flags := by
  have busy : ∀ top ∈ outer.head?, top.flags.empty = false := by
    intro top mem
    refine (h.nested.outer top.flags ?_).empty
    rw [flags_frames innermost]
    exact List.mem_map_of_mem (List.mem_of_mem_head? mem)
  rw [close_of_frames innermost]
  show r.flags.Follows { r with frames := outer }.valueCompleted.flags
  rw [flags_valueCompleted busy]
  exact .single (.closeContainer (flags_idle idle) (flags_frames innermost) ready)

theorem stepValue_flags (idle : r.lexeme = .none) (due : r.flags.due = some .value) (byte : UInt8)
    (rest : Bytes) : (r.stepValue byte rest).All fun next => r.flags.Follows next.flags := by
  have idle := flags_idle idle
  rw [stepValue]
  split_ifs
  · show r.flags.Follows (r.openContainer _).flags
    rw [flags_openContainer (c := .array) rfl]
    exact .single (.openContainer idle due .array)
  · show r.flags.Follows (r.openContainer _).flags
    rw [flags_openContainer (c := .object) rfl]
    exact .single (.openContainer idle due .object)
  · show r.flags.Follows (r.beginString rest).flags
    rw [beginString, flags_begin]
    exact .single (.beginString idle (.inl due))
  · cases Number.Phase.start? byte with
    | some phase =>
      show r.flags.Follows (r.beginNumber phase byte rest).flags
      rw [beginNumber, flags_begin]
      exact .single (.begin idle due (.inr rfl))
    | none =>
      cases Keyword.ofHead? byte with
      | some word =>
        show r.flags.Follows (r.beginKeyword word).flags
        rw [beginKeyword, flags_begin]
        exact .single (.begin idle due (.inl rfl))
      | none => trivial

/-- The innermost container goes on after a comma. -/
theorem sets_comma {next : Frame} (idle : r.lexeme = .none) (innermost : r.frames = frame :: outer)
    (due : frame.flags.due = .comma) (separated : next.flags = frame.flags.separated) :
    r.flags.Follows { r with frames := next :: outer }.flags := by
  have flags : { r with frames := next :: outer }.flags =
      { r.flags with frames := frame.flags.separated :: outer.map Frame.flags } := by
    rw [← separated]
    rfl
  rw [flags]
  exact .single (.comma (flags_idle idle) (flags_frames innermost) due)

theorem stepArray_flags {slot : ArraySlot} (h : r.flags.WellFormed) (idle : r.lexeme = .none)
    (innermost : r.frames = .array slot :: outer) (byte : UInt8) (rest : Bytes) :
    (r.stepArray slot outer byte rest).All fun next => r.flags.Follows next.flags := by
  cases slot with
  | first =>
    rw [stepArray]
    split_ifs
    · exact close_flags h idle innermost (.inr rfl)
    · exact stepValue_flags idle (flags_due innermost) byte rest
  | value => exact stepValue_flags idle (flags_due innermost) byte rest
  | separator =>
    rw [stepArray]
    split_ifs
    · exact sets_comma idle innermost rfl rfl
    · exact close_flags h idle innermost (.inl rfl)
    · trivial

theorem stepObject_flags {slot : ObjectSlot} (h : r.flags.WellFormed) (idle : r.lexeme = .none)
    (innermost : r.frames = .object slot :: outer) (byte : UInt8) (rest : Bytes) :
    (r.stepObject slot outer byte rest).All fun next => r.flags.Follows next.flags := by
  have key : (Frame.object slot).flags.due = .key →
      r.flags.Follows (r.beginString rest).flags := by
    intro due
    rw [beginString, flags_begin]
    exact .single (.beginString (flags_idle idle) (.inr ((flags_due innermost).trans (due ▸ rfl))))
  cases slot with
  | first =>
    rw [stepObject]
    split_ifs
    · exact key rfl
    · exact close_flags h idle innermost (.inr rfl)
    · trivial
  | key =>
    rw [stepObject]
    split_ifs
    · exact key rfl
    · trivial
  | colon =>
    rw [stepObject]
    split_ifs
    · exact .single (.colon (flags_idle idle) (flags_frames innermost) rfl)
    · trivial
  | value => exact stepValue_flags idle (flags_due innermost) byte rest
  | separator =>
    rw [stepObject]
    split_ifs
    · exact sets_comma idle innermost rfl rfl
    · exact close_flags h idle innermost (.inl rfl)
    · trivial

theorem stepStructure_flags (h : r.flags.WellFormed) (idle : r.lexeme = .none) (byte : UInt8)
    (rest : Bytes) : (r.stepStructure byte rest).All fun next => r.flags.Follows next.flags := by
  rw [stepStructure]
  split_ifs
  · exact .refl
  · cases frames : r.frames with
    | nil =>
      dsimp only
      cases root : r.root with
      | value =>
        refine stepValue_flags idle ?_ byte rest
        have none : r.flags.frames = [] := congrArg (List.map Frame.flags) frames
        rw [Flags.due, none]
        exact if_pos root
      | afterValue | done => trivial
    | cons frame outer =>
      cases frame with
      | array slot => exact stepArray_flags h idle frames byte rest
      | object slot => exact stepObject_flags h idle frames byte rest

/-! ### Scalars -/

/-- What is around a scalar has been marked when it started, so that its slot moves on rightly. -/
theorem sets_endScalar (h : r.flags.WellFormed) (ends : r.lexeme.flags.MayEnd) :
    r.flags.Follows r.endScalar.flags := by
  have marked : ∀ frame ∈ r.frames.head?, frame.flags.empty = false := by
    intro frame mem
    obtain ⟨outer, innermost⟩ := List.head?_eq_some_iff.1 mem
    refine h.marked ends.ne_idle frame.flags ?_
    rw [flags_frames innermost]
    rfl
  have flags : r.endScalar.flags = r.flags.endScalar :=
    flags_valueCompleted (r := { r with lexeme := .none }) marked
  rw [flags]
  exact .single (.endScalar ends)

theorem stepKeyword_flags {word : Keyword} {missing : Bytes} (h : r.flags.WellFormed)
    (inside : r.lexeme = .keyword word missing) (byte : UInt8) :
    (r.stepKeyword word missing byte).All fun next => r.flags.Follows next.flags := by
  cases missing with
  | cons expected missing =>
    rw [stepKeyword]
    split_ifs
    · exact sets_goOn (by rw [inside]; rfl)
    · trivial
  | nil =>
    rw [stepKeyword]
    split_ifs
    · exact sets_endScalar h (by rw [inside]; constructor)
    · trivial

theorem stepNumber_flags {phase : Number.Phase} {fractional : Bool} {segment : Segment}
    (h : r.flags.WellFormed) (inside : r.lexeme = .number phase fractional segment)
    (byte : UInt8) : (r.stepNumber phase fractional segment byte).All fun next =>
      r.flags.Follows next.flags := by
  rw [stepNumber]
  cases phase.next? byte with
  | some next => exact sets_goOn (by rw [inside]; rfl)
  | none =>
    dsimp only
    split_ifs
    · trivial
    · cases ended : r.endNumber fractional segment with
      | ok done =>
        show r.flags.Follows done.2.flags
        rw [(endNumber_eq_ok ended).1]
        exact sets_endScalar h (by rw [inside]; constructor)
      | error code => trivial
    · trivial

section
variable {utf8 : Utf8.State} {segment : Segment} {state : EscapeState}

theorem stepUtf8_flags (inside : r.flags.scalar = .string none utf8)
    (lead : utf8 = .boundary → r.options.encoding = .utf8) (byte : UInt8) :
    (r.stepUtf8 utf8 segment byte).All fun next => r.flags.Follows next.flags := by
  rw [stepUtf8]
  cases step : utf8.step? byte with
  | some next => exact .single (.sequence inside lead step)
  | none => trivial

theorem stepText_flags (h : r.flags.WellFormed) (inside : r.lexeme = .text utf8 segment)
    (byte : UInt8) (rest : Bytes) :
    (r.stepText utf8 segment byte rest).All fun next => r.flags.Follows next.flags := by
  have string : r.flags.scalar = .string none utf8 := congrArg Lexeme.flags inside
  rw [stepText]
  by_cases whole : utf8 = .boundary
  · subst whole
    rw [if_neg (not_not_intro rfl)]
    split_ifs
    · cases ended : r.endString segment with
      | ok done =>
        show r.flags.Follows done.2.flags
        rw [(endString_eq_ok ended).1]
        exact sets_endScalar h (by rw [inside]; constructor)
      | error code => trivial
    · exact .single (.escape string rfl)
    · trivial
    · exact sets_goOn (by rw [inside]; rfl)
    · cases encoding : r.options.encoding with
      | utf8 => exact stepUtf8_flags string (fun _ => encoding) byte
      | latin1 => exact sets_goOn (by rw [inside]; rfl)
  · rw [if_pos whole]
    exact stepUtf8_flags string (fun boundary => absurd boundary whole) byte

/-- A character is added behind an escape. -/
theorem pushEscaped_flags {c? : Option Char} (inside : r.lexeme = .escape state)
    (ends : ∀ c, c? = some c → state.Ends) (rest : Bytes) :
    (r.pushEscaped c? rest).All fun next => r.flags.Follows next.flags := by
  cases c? with
  | some c => exact .single (.pushChar (congrArg Lexeme.flags inside) (ends c rfl))
  | none => trivial

theorem stepEscape_flags (inside : r.lexeme = .escape state) (byte : UInt8) (rest : Bytes) :
    (r.stepEscape state byte rest).All fun next => r.flags.Follows next.flags := by
  have string : r.flags.scalar = .string (some state) .boundary := congrArg Lexeme.flags inside
  have goOn : ∀ next, state.Goes next → r.flags.Follows (r.inEscape next).flags :=
    fun next goes => .single (.inEscape string goes)
  cases state with
  | start =>
    rw [stepEscape]
    split_ifs
    · exact goOn _ .unit
    · cases short : Escape.short? byte with
      | some c => exact .single (.pushChar string (.short short))
      | none => trivial
  | unit digits =>
    rw [stepEscape]
    cases push : digits.push? byte with
    | none => trivial
    | some next =>
      dsimp only
      cases last : next.unit? with
      | none => exact goOn _ (.digit push last)
      | some unit =>
        dsimp only
        split_ifs with isHigh
        · exact goOn _ (.high push last isHigh)
        · exact pushEscaped_flags inside (fun c char => .unit push last char) rest
  | needBackslash high =>
    rw [stepEscape]
    split_ifs
    · exact goOn _ .backslash
    · trivial
  | needMark high =>
    rw [stepEscape]
    split_ifs
    · exact goOn _ .mark
    · trivial
  | secondUnit high digits =>
    rw [stepEscape]
    cases push : digits.push? byte with
    | none => trivial
    | some next =>
      dsimp only
      cases last : next.unit? with
      | none => exact goOn _ (.secondDigit push last)
      | some low => exact pushEscaped_flags inside (fun c char => .pair push last char) rest

end

/-- **Each byte sets the flags** as its path says. -/
theorem step_flags (h : r.flags.WellFormed) (byte : UInt8) (rest : Bytes) :
    (r.step byte rest).All fun next => r.flags.Follows next.flags := by
  rw [step]
  cases lexeme : r.lexeme with
  | none => exact stepStructure_flags h lexeme byte rest
  | keyword word missing => exact stepKeyword_flags h lexeme byte
  | number phase fractional segment => exact stepNumber_flags h lexeme byte
  | text utf8 segment => exact stepText_flags h lexeme byte rest
  | escape state => exact stepEscape_flags lexeme byte rest

/-! ### The ends of chunks and of the input -/

theorem flags_suspend (r : Reader) : r.suspend.flags = r.flags := by
  have same (lexeme : Lexeme) (carry : Bytes) (flags : lexeme.flags = r.lexeme.flags) :
      { r with carry, lexeme }.flags = r.flags :=
    congrArg (fun scalar => { r.flags with scalar }) flags
  rw [suspend]
  cases lexeme : r.lexeme with
  | number phase fractional segment => exact same _ _ (by rw [lexeme]; rfl)
  | text utf8 segment => exact same _ _ (by rw [lexeme]; rfl)
  | _ => rfl

theorem flags_attach (r : Reader) (chunk : Bytes) :
    (r.attach chunk).flags = { r.flags with closed := chunk.isEmpty } := by
  have same : (r.lexeme.attach chunk).flags = r.lexeme.flags := by
    cases r.lexeme <;> rfl
  exact congrArg (fun scalar => { r.flags with scalar, closed := chunk.isEmpty }) same

/-- The end of input completes no string. -/
theorem mayEnd_of_atEnd {token : Token} (ended : r.atEnd = .ok (token, next))
    (busy : r.lexeme ≠ .none) : r.lexeme.flags.MayEnd := by
  rw [atEnd] at ended
  cases lexeme : r.lexeme with
  | none => exact absurd lexeme busy
  | keyword => exact .keyword
  | number => exact .number
  | text | escape =>
    rw [lexeme] at ended
    cases ended

/-- It completes the document or another scalar. -/
theorem sets_atEnd {token : Token} (h : r.flags.WellFormed) (closed : r.closed = true)
    (ended : r.atEnd = .ok (token, next)) : r.flags.Follows next.flags := by
  rcases atEnd_eq_ok ended with ⟨-, idle, frames, root, rfl⟩ | ⟨inside, -, rfl⟩
  · have none : r.flags.frames = [] := congrArg (List.map Frame.flags) frames
    exact .single (.endDocument (flags_idle idle) none root closed)
  · refine sets_endScalar h (mayEnd_of_atEnd ended fun idle => inside ?_)
    rw [unfinished_of_lexeme_eq idle]
    rfl

end Reader

namespace Feed

variable {f q : Feed} {call : Call}

theorem Takes.flags (takes : f.Takes q) (h : f.reader.flags.WellFormed)
    (alive : f.reader.flags.failed = false) :
    f.reader.flags.Leads q.reader.flags ∧ q.reader.flags.failed = false := by
  cases takes with
  | @intro r next byte rest step =>
    have follows := Reader.step_flags h byte rest
    rw [step] at follows
    exact Flags.Follows.leads follows alive

theorem Visits.flags (visits : f.Visits q) (h : f.reader.flags.WellFormed)
    (alive : f.reader.flags.failed = false) :
    f.reader.flags.Leads q.reader.flags ∧ q.reader.flags.failed = false := by
  induction visits with
  | refl => exact ⟨.refl, alive⟩
  | tail _ takes ih =>
    obtain ⟨leads, alive⟩ := ih
    obtain ⟨next, alive⟩ := takes.flags (h.leads leads) alive
    exact ⟨leads.trans next, alive⟩

theorem Ends.flags (ends : q.Ends call) (h : q.reader.flags.WellFormed)
    (alive : q.reader.flags.failed = false) :
    q.reader.flags.Leads call.2.reader.flags := by
  cases ends with
  | @emit r next byte rest token step | @emitBefore r next byte rest token step =>
    have follows := Reader.step_flags h byte rest
    rw [step] at follows
    exact (Flags.Follows.leads follows alive).1
  | refused | incomplete => exact .single (.refuse alive)
  | @suspended r opened =>
    show r.flags.Leads r.suspend.flags
    rw [Reader.flags_suspend]
  | finished closed ended =>
    exact (Flags.Follows.leads (Reader.sets_atEnd h closed ended) alive).1

/-- **Each call sets the flags** of one byte after another. -/
theorem next_flags (h : f.reader.flags.WellFormed) :
    f.reader.flags.Leads f.next.2.reader.flags := by
  cases failure : f.reader.failure with
  | some e => rw [next_of_failure failure]
  | none =>
    by_cases root : f.reader.root = .done
    · rw [next_of_done failure root]
    · have alive : f.reader.flags.failed = false := congrArg Option.isSome failure
      obtain ⟨q, visits, ends⟩ := exists_ends failure root
      obtain ⟨leads, alive⟩ := visits.flags h alive
      exact leads.trans (ends.flags (h.leads leads) alive)

end Feed

namespace Session

variable {s : Session}

theorem next_flags (h : s.reader.flags.WellFormed) :
    s.reader.flags.Leads (s.play .next).reader.flags := by
  cases attached : s.chunk? with
  | none =>
    have still : s.play .next = s := by rw [play, attached]
    rw [still]
  | some rest =>
    rw [(feed_next attached).1]
    exact Feed.next_flags (f := ⟨s.reader, rest⟩) h

theorem ask_flags (h : s.reader.flags.WellFormed) (n : ℕ) :
    s.reader.flags.Leads (s.ask n).reader.flags := by
  induction n generalizing s with
  | zero => exact .refl
  | succ n ih =>
    have first := next_flags h
    exact first.trans (ih (h.leads first))

theorem feed_flags (s : Session) (chunk : Bytes) :
    s.reader.flags.Leads (s.play (.feed chunk)).reader.flags := by
  rw [play]
  cases s.chunk? with
  | some rest => exact .refl
  | none =>
    dsimp only
    cases fed : s.reader.feed chunk with
    | ok f =>
      obtain ⟨failure, -, opened, rfl⟩ := Reader.feed_eq_ok fed
      have alive : s.reader.flags.failed = false := congrArg Option.isSome failure
      show s.reader.flags.Leads (s.reader.attach chunk).flags
      rw [Reader.flags_attach]
      exact .single (.sets alive (.attach opened chunk.isEmpty))
    | error refusal => cases refusal <;> exact .refl

/-- **Each move sets the flags** of the calls that it makes. -/
theorem play_flags (h : s.reader.flags.WellFormed) (move : Move) :
    s.reader.flags.Leads (s.play move).reader.flags := by
  cases move with
  | feed chunk => exact s.feed_flags chunk
  | next => exact next_flags h
  | drive v state =>
    obtain ⟨n, asked⟩ := s.play_drive v state
    rw [asked]
    exact ask_flags h n
  | release =>
    rw [play]
    cases s.chunk? with
    | none => exact .refl
    | some rest => exact .refl
  | reset => exact .single .reset

/-- **The flags of a reader make sense**, whatever the input is and whatever moves are made. They
are those that reading leads to from the start, each set by itself on the path of each byte, and: a
container around another one is not empty and expects a value; an array expects a value or a comma;
a container is empty only right after its opening bracket; while one is open the root value is not
complete; the end of the document is reported after the end of input, with no container open; what
is around a scalar in progress is not empty and expects a value, or a key if it is a string; a UTF-8
sequence is open only in a string outside escapes, of an input in UTF-8; and of an escape there are
kept at most three digits, and of a whole one only a high surrogate. -/
theorem flags_represent (options : ReaderOptions) (moves : List Move) :
    let flags := (playAll options moves).reader.flags
    Flags.Leads { encoding := options.encoding } flags ∧ flags.WellFormed := by
  have all (s : Session) (h : s.reader.flags.WellFormed) :
      s.reader.flags.Leads (moves.foldl play s).reader.flags := by
    induction moves generalizing s with
    | nil => exact .refl
    | cons move moves ih =>
      have first := play_flags h move
      exact first.trans (ih _ (h.leads first))
  have start := Flags.wellFormed_start options.encoding
  have leads := all { reader := { options } } start
  exact ⟨leads, start.leads leads⟩

/-- After an opening quote a key has started, so that its object is not empty any more. -/
example :
    (playAll {} [.feed [0x5B, 0x7B, 0x22], .next, .next, .next]).reader.flags =
      { frames := [⟨.object, .key, false⟩, ⟨.array, .value, false⟩],
        scalar := .string none .boundary } := by
  cbv

end Session

end JsonStream
