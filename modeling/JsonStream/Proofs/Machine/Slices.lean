import Mathlib.Tactic.SplitIfs
import JsonStream.Proofs.Machine.Visits

/-!
# Segments are slices of the chunk

A segment is a view of the attached chunk: it starts somewhere in it and goes up to the next unread
byte. Every step keeps it there, so that the slices which a reader takes are in range. A scalar of
which nothing is carried has begun in this chunk, a string right after its opening quote.

* `Segment.Lies`: where a segment lies.
* `Reader.step_lies`: one byte.
* `Feed.Lies.visits`, `Feed.Lies.next`: any state within a call, and the state after it.
* `Segment.Lies.exists_slice`: the slice in terms of indices.
-/

namespace JsonStream

/-- A slice of a chunk, if it is in range. -/
def slice? (chunk : Bytes) (start stop : Nat) : Option Bytes :=
  if start ≤ stop ∧ stop ≤ chunk.length then some ((chunk.take stop).drop start) else none

namespace Segment

/-- **The raw bytes of the segment are the bytes of the chunk right before the unread ones**, and
there are as many of them as the segment says. -/
structure Lies (segment : Segment) (chunk rest : Bytes) : Prop where
  within : ∃ before, chunk = before ++ (segment.raw ++ rest)
  start : segment.start = segment.raw ++ rest
  length : segment.length = segment.raw.length

variable {segment : Segment} {chunk rest : Bytes} {byte : UInt8}

theorem Lies.drop_start (h : segment.Lies chunk rest) :
    segment.start.drop segment.length = rest := by
  rw [h.start, h.length, List.drop_left]

theorem Lies.extend (h : segment.Lies chunk (byte :: rest)) : segment.extend.Lies chunk rest := by
  obtain ⟨before, within⟩ := h.within
  have raw := raw_extend h.drop_start
  refine ⟨⟨before, ?_⟩, ?_, ?_⟩
  · rw [raw, within, List.append_assoc, List.singleton_append]
  · rw [raw, List.append_assoc, List.singleton_append]
    exact h.start
  · rw [raw, List.length_append]
    exact congrArg (· + 1) h.length

/-- A segment that goes on at the next byte is empty. -/
theorem lies_resume (part : Bytes) (within : chunk = part ++ rest) :
    (resume rest).Lies chunk rest :=
  ⟨⟨part, within⟩, rfl, rfl⟩

/-- **The slice is in range**, from the start of the segment up to the next unread byte. -/
theorem Lies.exists_slice (h : segment.Lies chunk rest) :
    ∃ start, segment.start = chunk.drop start ∧
      slice? chunk start (chunk.length - rest.length) = some segment.raw := by
  obtain ⟨before, within⟩ := h.within
  have length : chunk.length = before.length + segment.raw.length + rest.length := by
    rw [within, List.length_append, List.length_append, Nat.add_assoc]
  have stop : chunk.length - rest.length = before.length + segment.raw.length := by omega
  refine ⟨before.length, ?_, ?_⟩
  · rw [within, List.drop_left]
    exact h.start
  · have front : chunk.take (before.length + segment.raw.length) = before ++ segment.raw := by
      rw [within, ← List.append_assoc, ← List.length_append, List.take_left]
    rw [stop, slice?, if_pos (by omega), front, List.drop_left]

end Segment

/-- The segment of the scalar in progress lies in the chunk. If nothing is carried, the scalar has
begun in this chunk: a string right after its quote, a number with its first byte. -/
def Lexeme.Lies (chunk carry rest : Bytes) : Lexeme → Prop
  | .number _ _ segment =>
    segment.Lies chunk rest ∧ (segment.carried = false → carry = [] ∧ segment.raw ≠ [])
  | .text _ segment =>
    segment.Lies chunk rest ∧ (segment.carried = false → carry = [] ∧
      ∃ before, chunk = before ++ Byte.quote :: (segment.raw ++ rest))
  | .none | .keyword .. | .escape _ => True

/-- What is in progress lies in the chunk, of which the unread bytes are the last ones. -/
structure Feed.Lies (chunk : Bytes) (f : Feed) : Prop where
  lexeme : f.reader.lexeme.Lies chunk f.reader.carry f.rest
  within : ∃ part, chunk = part ++ f.rest

namespace Reader

variable {r next : Reader} {chunk part rest : Bytes} {byte : UInt8}

/-- The scalar in progress of a reader lies in the chunk. -/
abbrev Lies (chunk rest : Bytes) (r : Reader) : Prop :=
  r.lexeme.Lies chunk r.carry rest

theorem lies_of_lexeme_eq_none (h : r.lexeme = .none) : r.Lies chunk rest := by
  rw [Lies, h]
  trivial

theorem lies_openContainer (h : r.lexeme = .none) (frame : Frame) :
    (r.openContainer frame).Lies chunk rest :=
  lies_of_lexeme_eq_none (r.lexeme_valueStarted.trans h)

theorem lies_endScalar (r : Reader) : r.endScalar.Lies chunk rest :=
  lies_of_lexeme_eq_none (lexeme_valueCompleted _)

theorem close_lies (h : r.lexeme = .none) : r.close.All (Lies chunk rest) := by
  rw [close]
  cases r.frames with
  | nil => trivial
  | cons frame outer =>
    have idle := lexeme_valueCompleted { r with frames := outer }
    exact lies_of_lexeme_eq_none (idle.trans h)

/-- A string begins after its quote. -/
theorem lies_beginString (r : Reader) (within : chunk = part ++ Byte.quote :: rest) :
    (r.beginString rest).Lies chunk rest := by
  refine ⟨⟨⟨part ++ [Byte.quote], ?_⟩, rfl, rfl⟩, fun _ => ⟨rfl, part, within⟩⟩
  rw [within, List.append_assoc]
  rfl

/-- A number begins with its first byte. -/
theorem lies_beginNumber (r : Reader) (phase : Number.Phase)
    (within : chunk = part ++ byte :: rest) : (r.beginNumber phase byte rest).Lies chunk rest :=
  ⟨⟨⟨part, within⟩, rfl, rfl⟩, fun _ => ⟨rfl, nofun⟩⟩

theorem stepValue_lies (h : r.lexeme = .none) (within : chunk = part ++ byte :: rest) :
    (r.stepValue byte rest).All (Lies chunk rest) := by
  rw [stepValue]
  split_ifs with array object quote
  · exact lies_openContainer h _
  · exact lies_openContainer h _
  · subst quote
    exact r.lies_beginString within
  · cases Number.Phase.start? byte with
    | some phase => exact r.lies_beginNumber phase within
    | none =>
      cases Keyword.ofHead? byte with
      | some keyword => trivial
      | none => trivial

theorem stepStructure_lies (h : r.lexeme = .none) (within : chunk = part ++ byte :: rest) :
    (r.stepStructure byte rest).All (Lies chunk rest) := by
  have stay : ∀ frames, { r with frames }.Lies chunk rest := fun _ => lies_of_lexeme_eq_none h
  have string : byte = Byte.quote → (r.beginString rest).Lies chunk rest := by
    rintro rfl
    exact r.lies_beginString within
  simp only [stepStructure, stepArray, stepObject]
  repeat' split
  all_goals first
    | exact stepValue_lies h within
    | exact close_lies h
    | exact string ‹_›
    | exact stay _
    | trivial

theorem lies_pushChar (r : Reader) (c : Char) (within : chunk = part ++ rest) :
    (r.pushChar c rest).Lies chunk rest :=
  ⟨Segment.lies_resume part within, nofun⟩

theorem endNumber_lies {fractional : Bool} {segment : Segment} {token : Token}
    (h : r.endNumber fractional segment = .ok (token, next)) : next.Lies chunk rest :=
  (endNumber_eq_ok h).1 ▸ r.lies_endScalar

theorem endString_lies {segment : Segment} {token : Token}
    (h : r.endString segment = .ok (token, next)) : next.Lies chunk rest :=
  (endString_eq_ok h).1 ▸ r.lies_endScalar

/-- A byte that belongs to the scalar is taken into its segment. -/
theorem lies_extend_number {phase : Number.Phase} {fractional : Bool} {segment : Segment}
    {carry : Bytes} (h : (Lexeme.number phase fractional segment).Lies chunk carry (byte :: rest))
    (phase' : Number.Phase) (fractional' : Bool) :
    (Lexeme.number phase' fractional' segment.extend).Lies chunk carry rest := by
  obtain ⟨lies, begun⟩ := h
  refine ⟨lies.extend, fun kept => ⟨(begun kept).1, ?_⟩⟩
  rw [Segment.raw_extend lies.drop_start]
  exact List.append_ne_nil_of_right_ne_nil _ nofun

theorem lies_extend_text {utf8 : Utf8.State} {segment : Segment} {carry : Bytes}
    (h : (Lexeme.text utf8 segment).Lies chunk carry (byte :: rest)) (utf8' : Utf8.State) :
    (Lexeme.text utf8' segment.extend).Lies chunk carry rest := by
  obtain ⟨lies, begun⟩ := h
  refine ⟨lies.extend, fun kept => ?_⟩
  obtain ⟨none, before, within⟩ := begun kept
  refine ⟨none, before, ?_⟩
  rw [Segment.raw_extend lies.drop_start, within, List.append_assoc]
  rfl

theorem stepText_lies {utf8 : Utf8.State} {segment : Segment}
    (h : (Lexeme.text utf8 segment).Lies chunk r.carry (byte :: rest))
    (within : chunk = part ++ byte :: rest) :
    (r.stepText utf8 segment byte rest).All (Lies chunk rest) := by
  have sequence : (r.stepUtf8 utf8 segment byte).All (Lies chunk rest) := by
    rw [stepUtf8]
    cases utf8.step? byte with
    | some next => exact lies_extend_text h next
    | none => trivial
  have after : chunk = (part ++ [byte]) ++ rest := by
    rw [within, List.append_assoc]
    rfl
  rw [stepText]
  split_ifs
  · exact sequence
  · cases done : r.endString segment with
    | error code => trivial
    | ok done => exact endString_lies ‹_›
  · trivial
  · trivial
  · exact lies_extend_text h utf8
  · cases r.options.encoding with
    | utf8 => exact sequence
    | latin1 => exact (r.spill segment).lies_pushChar _ after

/-- **Every step keeps the segment in the chunk.** -/
theorem step_lies (h : r.Lies chunk (byte :: rest)) (within : chunk = part ++ byte :: rest) :
    (r.step byte rest).All (Lies chunk rest) := by
  have after : chunk = (part ++ [byte]) ++ rest := by
    rw [within, List.append_assoc]
    rfl
  rw [Lies] at h
  rw [step]
  cases lexeme : r.lexeme with
  | none => exact stepStructure_lies lexeme within
  | keyword keyword missing =>
    simp only [stepKeyword]
    repeat' split
    all_goals first
      | exact r.lies_endScalar
      | trivial
  | number phase fractional segment =>
    rw [lexeme] at h
    dsimp only
    rw [stepNumber]
    cases phase.next? byte with
    | some next => exact lies_extend_number h next (fractional || next.isMark)
    | none =>
      dsimp only
      repeat' split
      all_goals first
        | exact endNumber_lies ‹_›
        | trivial
  | text utf8 segment =>
    rw [lexeme] at h
    exact stepText_lies h within
  | escape state =>
    simp only [stepEscape, pushEscaped]
    repeat' split
    all_goals first
      | exact r.lies_pushChar _ after
      | trivial

/-- A scalar of which all bytes are carried goes on at the next byte, wherever that is. -/
theorem Resumed.lies_attach (h : r.Resumed) (part : Bytes) (within : chunk = part ++ rest) :
    (r.lexeme.attach rest).Lies chunk r.carry rest := by
  rw [Resumed] at h
  cases lexeme : r.lexeme with
  | number phase fractional segment =>
    rw [lexeme] at h
    subst h
    exact ⟨Segment.lies_resume part within, fun kept => by contradiction⟩
  | text utf8 segment =>
    rw [lexeme] at h
    subst h
    exact ⟨Segment.lies_resume part within, fun kept => by contradiction⟩
  | none | keyword | escape => trivial

/-- At the end of a chunk nothing of it is left to a segment. -/
theorem suspend_lies (r : Reader) (chunk : Bytes) : r.suspend.Lies chunk [] := by
  have ended : r.suspend.lexeme.attach [] = r.suspend.lexeme := by
    cases lexeme : r.lexeme <;> simp only [suspend, lexeme] <;> rfl
  have lies := r.resumed_suspend.lies_attach chunk (List.append_nil chunk).symm
  rw [ended] at lies
  exact lies

theorem lexeme_of_inFlight (h : r.inFlight = 0) : r.lexeme = .none := by
  rw [inFlight] at h
  split_ifs at h with idle
  exact idle

end Reader

/-! ### Calls -/

namespace Feed

variable {chunk : Bytes} {f g q : Feed} {call : Call}

theorem Lies.takes (h : f.Lies chunk) (takes : f.Takes q) : q.Lies chunk := by
  cases takes with
  | @intro r next byte rest step =>
    obtain ⟨part, within⟩ := h.within
    have lies := Reader.step_lies h.lexeme within
    rw [step] at lies
    refine ⟨lies, part ++ [byte], ?_⟩
    rw [within, List.append_assoc]
    rfl

/-- What is in progress lies in the chunk in any state within a call. -/
theorem Lies.visits (h : f.Lies chunk) (visits : f.Visits q) : q.Lies chunk := by
  induction visits with
  | refl => exact h
  | tail _ takes ih => exact ih.takes takes

theorem Lies.ends (h : q.Lies chunk) (ends : q.Ends call) : call.2.Lies chunk := by
  obtain ⟨part, within⟩ := h.within
  cases ends with
  | @emit r next byte rest token step =>
    have lies := Reader.step_lies h.lexeme within
    rw [step] at lies
    refine ⟨lies, part ++ [byte], ?_⟩
    rw [within, List.append_assoc]
    rfl
  | @emitBefore r next byte rest token step =>
    have idle := (Reader.step_emitBefore_inFlight step).2
    exact ⟨Reader.lies_of_lexeme_eq_none (Reader.lexeme_of_inFlight idle), part, within⟩
  | refused step => exact ⟨trivial, part, within⟩
  | @suspended r opened => exact ⟨Reader.suspend_lies r chunk, part, within⟩
  | @finished r next token closed ended =>
    refine ⟨Reader.lies_of_lexeme_eq_none ?_, part, within⟩
    rcases Reader.atEnd_eq_ok ended with ⟨-, idle, -, -, rfl⟩ | ⟨-, -, rfl⟩
    · exact idle
    · exact Reader.lexeme_valueCompleted _
  | incomplete closed ended => exact ⟨trivial, part, within⟩

/-- **One call keeps what is in progress in the chunk.** -/
theorem Lies.next (h : f.Lies chunk) : f.next.2.Lies chunk := by
  cases failure : f.reader.failure with
  | some e =>
    rw [next_of_failure failure]
    exact h
  | none =>
    by_cases root : f.reader.root = .done
    · rw [next_of_done failure root]
      exact h
    · obtain ⟨q, visits, ends⟩ := exists_ends failure root
      exact (h.visits visits).ends ends

/-- At the start of a chunk all bytes of the scalar in progress are carried. -/
theorem lies_attach {r : Reader} (h : r.Resting) (chunk : Bytes) :
    Lies chunk ⟨r.attach chunk, chunk⟩ :=
  ⟨h.resumed.lies_attach [] rfl, [], rfl⟩

end Feed

end JsonStream
