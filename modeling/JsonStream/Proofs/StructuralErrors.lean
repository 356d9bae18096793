import JsonStream.Proofs.Grammar.OnePlace
import JsonStream.Proofs.Positions

/-!
# Errors between tokens

A reader that fails while no scalar is in progress fails because of its place in the grammar. The
bytes that it has taken lead to one place, and the error is what the grammar refuses there: which
code it is depends on the place, on the innermost open container and on the next byte, and on nothing
else. Where the grammar refuses nothing, the reader does not fail.

* `Machine.Stands.visits`, `Machine.Stands.ends`, `Machine.Stands.after`: what has been read leads to
  where the reader stands, within calls and after them.
* `Transcript.Located`, `Transcript.Located.reads`: the same after any moves.
* `Feed.refuses_iff`: what is refused between tokens.
* `Transcript.structural_errors`: all of it.
-/

namespace JsonStream

/-! ### The end of input -/

/-- The end of input completes a scalar as white space does. -/
theorem Reader.step_of_atEnd {r next : Reader} {token : Token} (aligned : r.Aligned [])
    (inside : r.lexeme ≠ .none) (h : r.atEnd = .ok (token, next)) :
    r.machine.step Byte.space = .emitBefore token next.machine := by
  rw [atEnd] at h
  rw [Aligned] at aligned
  cases lexeme : r.lexeme with
  | none => exact absurd lexeme inside
  | text utf8 segment | escape state =>
    rw [lexeme] at h
    contradiction
  | keyword word missing =>
    rw [lexeme] at h
    cases missing with
    | cons => contradiction
    | nil =>
      cases h
      have unfinished : r.machine.unfinished = .keyword word [] := unfinished_of_lexeme_eq lexeme
      rw [Machine.step, unfinished, machine_endScalar]
      rfl
  | number phase fractional segment =>
    rw [lexeme] at h aligned
    have unfinished : r.machine.unfinished = .number phase fractional (r.carried ++ segment.raw) :=
      unfinished_of_lexeme_eq lexeme
    have stops : phase.next? Byte.space = none := Number.Phase.next?_of_endsScalar rfl
    dsimp only at h
    split_ifs at h with complete
    have ended := machine_endNumber aligned fractional
    rw [h] at ended
    rw [Machine.step, unfinished]
    dsimp only
    rw [Machine.stepNumber, stops, complete, ← ended]
    rfl

namespace Feed

/-- After the end of the document nothing changes. -/
theorem after_of_done {f : Feed} (failure : f.reader.failure = none) (root : f.reader.root = .done)
    (n : Nat) : f.after n = f := by
  induction n with
  | zero => rfl
  | succ n ih => rw [after_succ, next_of_done failure root, ih]

/-- If some calls have not ended the document, it had not ended before. -/
theorem root_of_after {f : Feed} {n : Nat} (failure : f.reader.failure = none)
    (h : (f.after n).reader.root ≠ .done) : f.reader.root ≠ .done := by
  intro done
  rw [after_of_done failure done] at h
  exact h done

end Feed

namespace Machine

variable {options : ReaderOptions} {place : Place} {opened : List Container} {m : Machine}
  {text : Bytes} {f g q : Feed} {token : Token}

/-- The document is complete after the root value. -/
theorem At.complete_iff (h : At options place opened m) :
    m.frames = [] ∧ m.root = .afterValue ↔ place = .after ∧ opened.head? = none := by
  cases h with
  | after => rcases opened with _ | ⟨_ | _, outer⟩ <;> simp [past, between]
  | _ => simp [between]

/-! ### Within calls and after them -/

namespace Stands

theorem takes (h : Stands options text f.reader.machine) (underway : f.Underway)
    (takes : f.Takes q) :
    ∃ byte, f.rest = byte :: q.rest ∧ Stands options (text ++ [byte]) q.reader.machine := by
  cases takes with
  | @intro r next byte rest step =>
    have leads := h.step_leads byte
    rw [← Reader.machine_step underway.live.aligned, step] at leads
    exact ⟨byte, rfl, leads⟩

/-- What has been read leads to every state within a call. -/
theorem visits (h : Stands options text f.reader.machine) (underway : f.Underway)
    (visits : f.Visits q) :
    ∃ taken, f.rest = taken ++ q.rest ∧ Stands options (text ++ taken) q.reader.machine := by
  induction visits with
  | refl => exact ⟨[], rfl, by simpa using h⟩
  | tail before takes ih =>
    obtain ⟨taken, rest, stands⟩ := ih
    obtain ⟨byte, next, stands⟩ := stands.takes (Feed.Visits.passes before underway).2 takes
    exact ⟨taken ++ [byte], by simp [rest, next], by simpa using stands⟩

/-- What has been read leads to where a call ends, unless it fails or ends the document. -/
theorem ends (h : Stands options text q.reader.machine) (underway : q.Underway)
    (ends : q.Ends (.ok token, g)) (root : g.reader.root ≠ .done) :
    ∃ taken, q.rest = taken ++ g.rest ∧ Stands options (text ++ taken) g.reader.machine := by
  generalize answer : (Except.ok token, g) = call at ends
  cases ends with
  | @emit r next byte rest told step =>
    cases answer
    have leads := h.step_leads byte
    rw [← Reader.machine_step underway.live.aligned, step] at leads
    exact ⟨[byte], rfl, leads⟩
  | @emitBefore r next byte rest told step =>
    cases answer
    have leads := h.step_leads byte
    rw [← Reader.machine_step underway.live.aligned, step] at leads
    refine ⟨[], rfl, ?_⟩
    rw [List.append_nil]
    exact leads
  | refused | incomplete => cases answer
  | @suspended r opened =>
    cases answer
    refine ⟨[], rfl, ?_⟩
    show Stands options (text ++ []) r.suspend.machine
    rw [List.append_nil, r.machine_suspend]
    exact h
  | @finished r next told closed ended =>
    cases answer
    rcases Reader.atEnd_eq_ok ended with ⟨-, -, -, -, rfl⟩ | ⟨inside, -, -⟩
    · exact absurd rfl root
    · have inProgress : r.lexeme ≠ .none := fun none => inside (Reader.unfinished_of_lexeme_eq none)
      have leads := h.step_leads Byte.space
      rw [Reader.step_of_atEnd underway.live.aligned inProgress ended] at leads
      refine ⟨[], rfl, ?_⟩
      rw [List.append_nil]
      exact leads

theorem next (h : Stands options text f.reader.machine) (steady : f.Steady)
    (failure : f.next.2.reader.failure = none) (root : f.next.2.reader.root ≠ .done) :
    ∃ taken, f.rest = taken ++ f.next.2.rest ∧
      Stands options (text ++ taken) f.next.2.reader.machine := by
  have alive : f.reader.failure = none := Feed.alive_of_after (n := 1) failure
  have reading : f.reader.root ≠ .done := Feed.root_of_after (n := 1) alive root
  have leads := steady.leads_next
  obtain ⟨q, visits, ends⟩ := Feed.exists_ends alive reading
  have underway := steady.underway alive reading
  obtain ⟨taken, rest, stands⟩ := h.visits underway visits
  generalize f.next = call at *
  obtain ⟨result, g⟩ := call
  cases result with
  | error e => exact absurd (leads.failure.symm.trans failure) nofun
  | ok token =>
    obtain ⟨more, rest', stands⟩ := stands.ends (visits.passes underway).2 ends root
    exact ⟨taken ++ more, by simp [rest, rest'], by simpa using stands⟩

/-- What has been read leads to where any number of calls ends. -/
theorem after (h : Stands options text f.reader.machine) (steady : f.Steady) (n : Nat)
    (failure : (f.after n).reader.failure = none) (root : (f.after n).reader.root ≠ .done) :
    ∃ taken, f.rest = taken ++ (f.after n).rest ∧
      Stands options (text ++ taken) (f.after n).reader.machine := by
  induction n generalizing f text with
  | zero => exact ⟨[], rfl, by simpa using h⟩
  | succ n ih =>
    rw [Feed.after_succ] at failure root ⊢
    have alive := Feed.alive_of_after failure
    obtain ⟨taken, rest, stands⟩ := h.next steady alive (Feed.root_of_after alive root)
    obtain ⟨more, rest', stands⟩ := ih stands steady.leads_next.steady failure root
    exact ⟨taken ++ more, by simp [rest, rest'], by simpa using stands⟩

end Stands

end Machine

/-! ### What is refused between tokens -/

section
variable {options : ReaderOptions} {place : Place} {opened : List Container} {text : Bytes}

/-- A reader between tokens refuses the bytes that the grammar refuses at its place. -/
theorem Reader.step_eq_fail_iff {r : Reader} {byte : UInt8} {rest : Bytes} {code : ErrorCode}
    (nothing : r.lexeme = .none) (stands : Machine.At options place opened r.machine)
    (upto : Upto options.dialect place opened text) :
    r.step byte rest = .fail code ↔ place.Refuses opened.head? (some byte) code := by
  have machine := machine_step (aligned_of_lexeme_eq_none nothing (byte :: rest))
  rw [← stands.step_eq_fail_iff upto, ← machine]
  cases r.step byte rest <;> simp [Step.map]

/-- It refuses the end of input before the root value is complete. -/
theorem Reader.atEnd_eq_error_iff {r : Reader} {code : ErrorCode} (nothing : r.lexeme = .none)
    (stands : Machine.At options place opened r.machine) :
    r.atEnd = .error code ↔ place.Refuses opened.head? none code := by
  have complete : r.frames = [] ∧ r.root = .afterValue ↔ place = .after ∧ opened.head? = none :=
    stands.complete_iff
  rw [atEnd_of_lexeme_eq_none nothing, Place.Refuses, ← complete]
  by_cases ended : r.frames = [] ∧ r.root = .afterValue
  · rw [if_pos ended]
    exact iff_of_false nofun fun refuses => refuses.1 ended
  · rw [if_neg ended, Except.error.injEq, eq_comm]
    exact (and_iff_right ended).symm

/-- **A failure between tokens** is what the grammar refuses at the place of the reader. -/
theorem Feed.refuses_iff {q : Feed} (nothing : q.reader.lexeme = .none)
    (stands : Machine.At options place opened q.reader.machine)
    (upto : Upto options.dialect place opened text) (e : ParseError) :
    q.Refuses e ↔ (q.rest = [] → q.reader.closed = true) ∧ e.position = q.position ∧
      place.Refuses opened.head? q.rest.head? e.code := by
  obtain ⟨r, input⟩ := q
  cases input with
  | nil =>
    have ended : r.atEnd = .error e.code ↔ place.Refuses opened.head? none e.code :=
      Reader.atEnd_eq_error_iff nothing stands
    constructor
    · rintro ⟨position, closed, refused⟩
      exact ⟨fun _ => closed, position, ended.1 refused⟩
    · rintro ⟨closed, position, refused⟩
      exact ⟨position, closed rfl, ended.2 refused⟩
  | cons byte rest =>
    have step : r.step byte rest = .fail e.code ↔
        place.Refuses opened.head? (some byte) e.code :=
      Reader.step_eq_fail_iff nothing stands upto
    constructor
    · rintro ⟨position, refused⟩
      exact ⟨nofun, position, step.1 refused⟩
    · rintro ⟨-, position, refused⟩
      exact ⟨position, step.2 refused⟩

end

/-! ### After any moves -/

/-- Any number of calls keeps the place of a reader. -/
theorem Feed.Steady.passes_after {f : Feed} (h : f.Steady) (n : Nat) : f.Passes (f.after n) := by
  induction n generalizing f with
  | zero => exact .refl f
  | succ n ih => exact h.leads_next.passes.trans (ih h.leads_next.steady)

namespace Transcript

variable {options : ReaderOptions} {t next : Transcript}

/-- **What was taken leads to where the reader stands**, until it fails or ends the document. -/
def Located (options : ReaderOptions) (t : Transcript) : Prop :=
  t.session.reader.failure = none → t.session.reader.root ≠ .done →
    Machine.Stands options t.taken t.session.reader.machine

theorem Located.moves (h : t.Located options) (kept : t.Kept options) (made : t.Moves next) :
    next.Located options := by
  cases made with
  | idle => exact h
  | @accepted s chunk f detached fed reader attached =>
    obtain ⟨failure, unread, opened, rfl⟩ := Reader.feed_eq_ok fed
    obtain ⟨resting, -⟩ := kept.rests detached failure unread opened
    intro _ _
    show Machine.Stands options t.taken s.reader.machine
    rw [reader, resting.machine_attach]
    exact h failure resting.root
  | @refused s chunk refusal detached fed reader still =>
    show s.reader.failure = none → _ → Machine.Stands options t.taken s.reader.machine
    rw [reader]
    exact h
  | @called s rest taken g reply attached calls leads other bytes reader still =>
    obtain ⟨n, rfl⟩ := calls
    show s.reader.failure = none → s.reader.root ≠ .done →
      Machine.Stands options (t.taken ++ taken) s.reader.machine
    rw [reader]
    intro failure root
    have alive := Feed.alive_of_after failure
    obtain ⟨taken', rest', stands⟩ :=
      (h alive (Feed.root_of_after alive root)).after (kept.steady rest attached) n failure root
    obtain rfl := List.append_cancel_right (rest'.symm.trans bytes)
    exact stands
  | @released s rest attached reader detached =>
    show s.reader.failure = none → s.reader.root ≠ .done →
      Machine.Stands options t.taken s.reader.machine
    rw [reader]
    exact h
  | @reset s reader detached =>
    intro _ _
    show Machine.Stands options [] s.reader.machine
    rw [reader, Reader.reset, kept.options]
    exact Machine.stands_start options

theorem located_playAll (options : ReaderOptions) (moves : List Move) :
    (playAll options moves).Located options :=
  playAll_induction (fun _ _ => Machine.stands_start options)
    (fun _ move kept h => h.moves kept (moves_play kept.steady move)) moves

/-- What was taken and what the calls on the attached chunk go on to take leads to where the reader
stands within them, and moves the position on. -/
theorem Located.reads {rest : Bytes} {n : Nat} {q : Feed} (located : t.Located options)
    (kept : t.Kept options) (measured : t.Measured) (attached : t.session.chunk? = some rest)
    (reads : (Feed.after ⟨t.session.reader, rest⟩ n).Reads q) :
    ∃ taken, rest = taken ++ q.rest ∧ q.position = Position.after {} (t.taken ++ taken) ∧
      Machine.Stands options (t.taken ++ taken) q.reader.machine := by
  have steady := kept.steady rest attached
  have alive := Feed.alive_of_after reads.failure
  have before := located alive (Feed.root_of_after alive reads.root)
  obtain ⟨first, rest', stands⟩ := before.after steady n reads.failure reads.root
  have underway := (steady.after n).underway reads.failure reads.root
  obtain ⟨second, rest'', stands⟩ := stands.visits underway reads.visits
  have bytes : rest = first ++ second ++ q.rest := by
    rw [List.append_assoc, ← rest'']
    exact rest'
  -- The same bytes move the position on.
  have passes := (steady.passes_after n).trans (reads.visits.passes underway).1
  obtain ⟨taken, bytes', position⟩ := passes.taken
  obtain rfl := List.append_cancel_right (bytes'.symm.trans bytes)
  refine ⟨first ++ second, bytes, ?_, List.append_assoc .. ▸ stands⟩
  rw [Position.after_append, ← measured.position]
  exact position

/-- **Errors between tokens are classified by the place in the grammar.** After any moves: in every
state that the calls on the attached chunk come by without a scalar in progress, the bytes that have
been taken lead to one place, and what is refused is what the grammar refuses there, at the place of
the next byte. Whichever move tells a failure, it was raised in a state that such calls come by. -/
theorem structural_errors (options : ReaderOptions) (moves : List Move) :
    let t := playAll options moves
    let s := t.session
    (∀ rest n q, s.chunk? = some rest → (Feed.after ⟨s.reader, rest⟩ n).Reads q →
      q.reader.lexeme = .none →
        ∃ taken place opened, rest = taken ++ q.rest ∧
          (∀ place' opened', Upto options.dialect place' opened' (t.taken ++ taken) ↔
            place' = place ∧ opened' = opened) ∧
          ∀ e, q.Refuses e ↔ (q.rest = [] → q.reader.closed = true) ∧
            e.position = Position.after {} (t.taken ++ taken) ∧
            place.Refuses opened.head? q.rest.head? e.code) ∧
    ∀ move e, s.reader.failure = none → (s.reply move).failure = some e →
      ∃ rest n q, s.chunk? = some rest ∧ (Feed.after ⟨s.reader, rest⟩ n).Reads q ∧ q.Refuses e ∧
        (s.play move).chunk? = some q.rest := by
  intro t s
  have kept := kept_playAll options moves
  have located := located_playAll options moves
  have measured := measured_playAll options moves
  refine ⟨?_, ?_⟩
  · intro rest n q attached reads nothing
    obtain ⟨taken, bytes, position, stands⟩ := located.reads kept measured attached reads
    obtain ⟨place, opened, upto, stands⟩ :=
      stands.exists_place (Reader.unfinished_of_lexeme_eq nothing)
    refine ⟨taken, place, opened, bytes, fun place' opened' => ?_, fun e => ?_⟩
    · constructor
      · exact upto.unique
      · rintro ⟨rfl, rfl⟩
        exact upto
    · rw [← position]
      exact Feed.refuses_iff nothing stands upto e
  · intro move e failure told
    obtain ⟨rest, n, q, attached, reads, refuses, unread, -⟩ :=
      Session.exists_refuses kept.steady failure move told
    exact ⟨rest, n, q, attached, reads, refuses, unread⟩

/-- After `[{}` the digit is neither a comma nor what closes the array, although it was an object
that was closed last. -/
theorem structural_errors_nested :
    let moves : List Move :=
      [.feed [Byte.openBracket, Byte.openBrace, Byte.closeBrace, 0x31], .next, .next, .next]
    let s := (playAll {} moves).session
    let e : ParseError := ⟨.expectedCommaOrArrayEnd, { column := 4 }⟩
    Feed.Refuses ⟨s.reader, [0x31]⟩ e ∧ (s.reply .next).failure = some e ∧
      ∃ rest n q, s.chunk? = some rest ∧ (Feed.after ⟨s.reader, rest⟩ n).Reads q ∧ q.Refuses e ∧
        (s.play .next).chunk? = some q.rest := by
  intro moves s e
  obtain ⟨classified, raised⟩ := structural_errors {} moves
  have attached : s.chunk? = some [0x31] := by decide
  have failure : s.reader.failure = none := by decide
  have reads : (Feed.after ⟨s.reader, [0x31]⟩ 0).Reads ⟨s.reader, [0x31]⟩ :=
    ⟨failure, by decide, .refl⟩
  obtain ⟨taken, place, opened, rest, only, refuses⟩ :=
    classified _ 0 _ attached reads (by decide)
  obtain rfl : taken = [] := List.append_cancel_right (rest.symm.trans (List.nil_append _).symm)
  have upto : Upto ({} : ReaderOptions).dialect .after [.array]
      [Byte.openBracket, Byte.openBrace, Byte.closeBrace] :=
    (Upto.opening .start (.inl rfl) .array).value (.inr rfl) (.emptyObject blank_nil)
  obtain ⟨rfl, rfl⟩ := (only .after [.array]).1 upto
  have told : (s.reply .next).failure = some e := by decide
  refine ⟨(refuses e).2 ⟨nofun, by decide, ?_, ?_, rfl⟩, told, raised .next e failure told⟩
  · rw [not_blank_iff]
    rfl
  · show ¬((0x31 : UInt8) = Byte.comma ∨ (0x31 : UInt8) = Byte.closeBracket)
    decide

end Transcript

end JsonStream
