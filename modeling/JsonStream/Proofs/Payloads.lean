import JsonStream.Proofs.Machine.Slices
import JsonStream.Proofs.Machine.Texts
import JsonStream.Proofs.Positions

/-!
# Payloads

The text of a token is a slice of the chunk, or the carried bytes of a scalar that began in an
earlier one. The slices are in range and the texts are well formed, although no check remains that
could still refuse them.

* `Feed.Safe`: what is taken and handed out in a state within a call.
* `Feed.Steady.ends_after`: calls lead on to the end of the chunk.
* `Transcript.Reaches`: the reader is where reading the chunks leads.
* `Transcript.payloads_safe`: all of it, after any moves.
-/

namespace JsonStream

namespace Lexeme

variable {chunk carry rest : Bytes} {lexeme : Lexeme} {segment : Segment}

/-- The segment of the scalar in progress lies in the chunk. -/
theorem Lies.of_segment? (h : lexeme.Lies chunk carry rest) (raw : lexeme.segment? = some segment) :
    segment.Lies chunk rest := by
  cases lexeme with
  | number phase fractional _ =>
    cases raw
    exact h.1
  | text utf8 _ =>
    cases raw
    exact h.1
  | none | keyword | escape => contradiction

end Lexeme

namespace Utf16

/-- A pair of surrogates: neither of the differences is cut off, and the sum is a code point. -/
theorem pair_of_surrogates {high low : Nat} (first : isHighSurrogate high = true)
    (second : isLowSurrogate low = true) :
    0xd800 ≤ high ∧ 0xdc00 ≤ low ∧ ∃ c, char? (pairPoint high low) = some c := by
  obtain ⟨c, pair⟩ := exists_pairChar? first second
  rw [pairChar?, if_pos second] at pair
  simp only [isHighSurrogate, isLowSurrogate, Bool.and_eq_true,
    decide_eq_true_eq] at first second
  exact ⟨first.1, second.1, c, pair⟩

end Utf16

/-! ### Any state within a call -/

/-- **What a reader takes from its chunk is in range, and what it hands out is text.** -/
structure Feed.Safe (chunk : Bytes) (q : Feed) : Prop where
  /-- The raw bytes of the scalar in progress are a slice of the chunk, up to the next unread
  byte. -/
  slice : ∀ segment, q.reader.lexeme.segment? = some segment → ∃ start,
    segment.start = chunk.drop start ∧
      slice? chunk start (chunk.length - q.rest.length) = some segment.raw
  /-- If nothing is carried, the scalar has begun in this chunk. -/
  lies : q.Lies chunk
  /-- No scalar that may end is refused for its bytes. -/
  decodes : q.reader.Decodes
  /-- What a token hands out are the bytes of the scalar in progress. -/
  told : ∀ token g text, q.Ends (.ok token, g) → token.text? = some text →
    ∃ segment, q.reader.lexeme.complete? = some segment ∧
      Utf8.bytes text = q.reader.scalarBytes segment
  /-- What is refused as malformed is the next byte, by the check of its sequence. -/
  refused : ∀ e, q.Refuses e → e.code = .illegalUnicode →
    ∃ byte more, q.rest = byte :: more ∧ q.reader.Malformed byte
  /-- Only surrogates are paired, and a pair of them is a character. -/
  pair : ∀ high digits, q.reader.lexeme = .escape (.secondUnit high digits) →
    Utf16.isHighSurrogate high = true ∧ ∀ low, Utf16.isLowSurrogate low = true →
      0xd800 ≤ high ∧ 0xdc00 ≤ low ∧ ∃ c, Utf16.char? (Utf16.pairPoint high low) = some c

namespace Feed

variable {chunk : Bytes} {f q : Feed}

theorem Ends.handsOut {token : Token} {g : Feed} (h : q.Ends (.ok token, g)) :
    q.reader.HandsOut token := by
  generalize answer : (Except.ok token, g) = call at h
  cases h with
  | @emit r next byte rest told step =>
    cases answer
    have reports := r.step_reports byte rest
    rw [step] at reports
    exact reports
  | @emitBefore r next byte rest told step =>
    cases answer
    have reports := r.step_reports byte rest
    rw [step] at reports
    exact reports
  | refused | incomplete => cases answer
  | suspended =>
    cases answer
    exact Reader.handsOut_of_text?_eq_none rfl
  | finished closed ended =>
    cases answer
    exact Reader.handsOut_atEnd ended

theorem Refuses.malformed {e : ParseError} (h : q.Refuses e) (decodes : q.reader.Decodes)
    (illegal : e.code = .illegalUnicode) :
    ∃ byte more, q.rest = byte :: more ∧ q.reader.Malformed byte := by
  have cause := h.cause
  rw [illegal] at cause
  cases rest : q.rest with
  | nil =>
    rw [rest] at cause
    exact absurd cause.2 decodes.atEnd_legal
  | cons byte more =>
    rw [rest] at cause
    have malformed := decodes.step_malformed byte more
    rw [show q.reader.step byte more = .fail .illegalUnicode from cause] at malformed
    exact ⟨byte, more, rfl, malformed rfl⟩

/-- **Any state within a call is safe.** -/
theorem safe (lies : q.Lies chunk) (underway : q.Underway) : q.Safe chunk := by
  have decodes : q.reader.Decodes := fun segment complete =>
    Reader.exists_scalarText underway.live.aligned underway.viable complete
  refine ⟨fun segment raw => (lies.lexeme.of_segment? raw).exists_slice, lies, decodes, ?_,
    fun e refuses illegal => refuses.malformed decodes illegal, ?_⟩
  · intro token g text ends handed
    obtain ⟨segment, complete, decoded⟩ := ends.handsOut text handed
    exact ⟨segment, complete, Reader.scalarText_eq_ok_iff.1 decoded⟩
  · intro high digits lexeme
    have viable : (q.reader.lexeme.unfinished q.reader.carried).Viable := underway.viable.unfinished
    rw [lexeme] at viable
    exact ⟨viable.1, fun low second => Utf16.pair_of_surrogates viable.1 second⟩

end Feed

/-! ### Where reading the chunks leads -/

/-- Where a reading ends, whatever tokens it gives. -/
def Reading.ends (x : Reading) : Machine × Position × Option ErrorCode :=
  (x.machine, x.position, x.failure)

namespace Feed

variable {chunk : Bytes} {f : Feed}

theorem Lies.after (h : f.Lies chunk) (n : Nat) : (f.after n).Lies chunk := by
  induction n generalizing f with
  | zero => exact h
  | succ n ih => exact ih h.next

/-- **A call that does not fail leads on to the same end**, if more may follow the chunk. -/
theorem Steady.ends_next (h : f.Steady) (opened : f.reader.closed = false)
    (accepted : f.next.2.reader.failure = none) :
    (f.next.2.reader.machine.read f.next.2.position f.next.2.rest).ends =
      (f.reader.machine.read f.position f.rest).ends := by
  have failure := alive_of_after (n := 1) accepted
  have root : f.reader.root ≠ .done := fun done =>
    Bool.false_ne_true (opened.symm.trans (h.ended done))
  have yields := next_yields ⟨h.aligned, failure, root⟩
  rw [Reader.reading, opened, if_neg Bool.false_ne_true] at yields
  show _ = (f.reader.machine.read f.reader.position f.rest).ends
  generalize f.reader.machine.read f.reader.position f.rest = x at yields
  generalize f.next = call at yields accepted
  cases yields with
  | @token token g ongoing live same =>
    rw [Reader.reading, same, if_neg Bool.false_ne_true]
    rfl
  | needMore => rw [Machine.read_nil]; rfl
  | done failure ended => contradiction
  | failed failure =>
    rw [failure] at accepted
    contradiction

theorem Steady.ends_after (h : f.Steady) (opened : f.reader.closed = false) (n : Nat)
    (accepted : (f.after n).reader.failure = none) :
    ((f.after n).reader.machine.read (f.after n).position (f.after n).rest).ends =
      (f.reader.machine.read f.position f.rest).ends := by
  induction n generalizing f with
  | zero => rfl
  | succ n ih =>
    have leads := h.leads_next
    rw [after_succ, ih leads.steady (leads.passes.closed.trans opened) accepted]
    exact h.ends_next opened (alive_of_after accepted)

end Feed

/-! ### The start of a chunk -/

/-- The bytes of the number or string in progress. -/
def Unfinished.bytes? : Unfinished → Option Bytes
  | .number _ _ bytes | .text _ bytes | .escape _ bytes => some bytes
  | .nothing | .keyword .. => none

namespace Reader

variable {r : Reader} {chunk bytes : Bytes} {segment : Segment}

/-- The scalar in progress goes on at the start of the chunk, and all of it is carried. -/
theorem Resting.segment_attach (h : r.Resting)
    (raw : (r.attach chunk).lexeme.segment? = some segment) : segment = .resume chunk := by
  have resumed := h.resumed
  rw [Resumed] at resumed
  have raw : (r.lexeme.attach chunk).segment? = some segment := raw
  cases lexeme : r.lexeme with
  | number phase fractional _ =>
    rw [lexeme] at resumed raw
    cases raw
    subst resumed
    rfl
  | text utf8 _ =>
    rw [lexeme] at resumed raw
    cases raw
    subst resumed
    rfl
  | none | keyword | escape =>
    rw [lexeme] at raw
    contradiction

theorem Resting.carried_attach (h : r.Resting)
    (inProgress : (r.attach chunk).machine.unfinished.bytes? = some bytes) :
    (r.attach chunk).carried = bytes := by
  have resumed : ∀ segment, (r.attach chunk).lexeme.segment? = some segment →
      segment = .resume chunk := fun _ => h.segment_attach
  have inProgress : ((r.attach chunk).lexeme.unfinished (r.attach chunk).carried).bytes? =
      some bytes := inProgress
  cases lexeme : (r.attach chunk).lexeme with
  | number phase fractional segment =>
    rw [lexeme] at inProgress
    cases inProgress
    rw [resumed segment (by rw [lexeme]; rfl), Segment.raw_resume, List.append_nil]
  | text utf8 segment =>
    rw [lexeme] at inProgress
    cases inProgress
    rw [resumed segment (by rw [lexeme]; rfl), Segment.raw_resume, List.append_nil]
  | escape state =>
    rw [lexeme] at inProgress
    exact Option.some.inj inProgress
  | none | keyword =>
    rw [lexeme] at inProgress
    contradiction

end Reader

/-! ### After any moves -/

namespace Transcript

variable {options : ReaderOptions} {t next : Transcript} {s : Session} {rest chunk taken : Bytes}

/-- What a machine makes of all the chunks, as if they were one. -/
def reading (options : ReaderOptions) (t : Transcript) : Reading :=
  ({ options } : Machine).read {} t.chunks.flatten

/-- **The reader is where reading the chunks leads**: what is in progress lies in the attached
chunk, and what is left of it leads to the end of all chunks. -/
structure Reaches (options : ReaderOptions) (t : Transcript) : Prop where
  attached : ∀ rest, t.session.chunk? = some rest → ∃ earlier chunk,
    t.chunks = earlier ++ [chunk] ∧ Feed.Lies chunk ⟨t.session.reader, rest⟩
  underway : ∀ rest, t.session.chunk? = some rest → t.session.reader.closed = false →
    t.session.reader.failure = none → (t.reading options).ends =
      (t.session.reader.machine.read t.session.reader.position rest).ends
  detached : t.session.chunk? = none → t.session.reader.closed = false →
    t.session.reader.failure = none → t.session.reader.unread = 0 →
      (t.reading options).ends = (t.session.reader.machine, t.session.reader.position, none)

theorem reaches_start (options : ReaderOptions) :
    Reaches options { session := { reader := { options } } } where
  attached := nofun
  underway := nofun
  detached _ _ _ _ := by
    show (Machine.read _ _ []).ends = _
    rw [Machine.read_nil]
    rfl

/-- A reply that takes no chunk leaves the reading as it is. -/
theorem reading_append {reply : Reply} (quiet : reply.accepted = none) :
    reading options ⟨s, t.replies ++ [reply], taken⟩ = t.reading options := by
  rw [reading, chunks_append_of_quiet quiet]
  rfl

/-- The chunk is read from where the chunks before it lead. -/
theorem Reaches.accepted {f : Feed} (h : t.Reaches options) (kept : t.Kept options)
    (detached : t.session.chunk? = none) (fed : t.session.reader.feed chunk = .ok f)
    (reader : s.reader = f.reader) (attached : s.chunk? = some f.rest) :
    Reaches options { t with session := s, replies := t.replies ++ [.fed chunk none] } := by
  obtain ⟨failure, unread, opened, rfl⟩ := Reader.feed_eq_ok fed
  obtain ⟨resting, -⟩ := kept.rests detached failure unread opened
  have reader : s.reader = t.session.reader.attach chunk := reader
  have attached : s.chunk? = some chunk := attached
  have chunks : chunks { t with session := s, replies := t.replies ++ [.fed chunk none] } =
      t.chunks ++ [chunk] := chunks_append t s _ _
  refine ⟨?_, ?_, ?_⟩
  · intro rest attached'
    cases attached.symm.trans attached'
    refine ⟨t.chunks, chunk, chunks, ?_⟩
    rw [reader]
    exact Feed.lies_attach resting chunk
  · intro rest attached' _ _
    cases attached.symm.trans attached'
    have before := h.detached detached opened failure unread
    have same := resting.machine_attach chunk
    rw [reading, chunks, List.flatten_append, List.flatten_singleton, Machine.read_append, reader,
      same]
    rw [reading] at before
    generalize Machine.read _ _ t.chunks.flatten = x at before
    obtain ⟨tokens, machine, position, failure⟩ := x
    cases before
    rfl
  · intro detached'
    cases attached.symm.trans detached'

theorem Reaches.refused {refusal : FeedError} (h : t.Reaches options)
    (detached : t.session.chunk? = none) (reader : s.reader = t.session.reader)
    (still : s.chunk? = none) : Reaches options
      { t with session := s, replies := t.replies ++ [.fed chunk (some refusal)] } := by
  refine ⟨?_, ?_, ?_⟩
  · intro rest attached
    cases still.symm.trans attached
  · intro rest attached
    cases still.symm.trans attached
  · intro _
    rw [reading_append rfl]
    show s.reader.closed = false → _ → _ → _ = (s.reader.machine, s.reader.position, none)
    rw [reader]
    exact h.detached detached

theorem Reaches.called {g : Feed} {reply : Reply} (h : t.Reaches options) (kept : t.Kept options)
    (attached : t.session.chunk? = some rest)
    (calls : ∃ n, g = Feed.after ⟨t.session.reader, rest⟩ n)
    (leads : Feed.Leads ⟨t.session.reader, rest⟩ g reply.failure) (quiet : reply.accepted = none)
    (reader : s.reader = g.reader) (still : s.chunk? = some g.rest) :
    Reaches options ⟨s, t.replies ++ [reply], t.taken ++ taken⟩ := by
  obtain ⟨n, after⟩ := calls
  have steady := kept.steady rest attached
  refine ⟨?_, ?_, ?_⟩
  · intro rest' attached'
    cases still.symm.trans attached'
    obtain ⟨earlier, chunk, chunks, lies⟩ := h.attached rest attached
    refine ⟨earlier, chunk, ?_, ?_⟩
    · rw [chunks_append_of_quiet quiet, chunks]
    · rw [reader]
      exact after ▸ lies.after n
  · intro rest' attached'
    cases still.symm.trans attached'
    rw [reading_append quiet]
    show s.reader.closed = false → s.reader.failure = none →
      _ = (s.reader.machine.read s.reader.position g.rest).ends
    rw [reader]
    intro opened accepted
    have opened : t.session.reader.closed = false := leads.passes.closed.symm.trans opened
    rw [after] at accepted
    rw [h.underway rest attached opened (Feed.alive_of_after accepted), after]
    exact (steady.ends_after opened n accepted).symm
  · intro detached
    cases still.symm.trans detached

theorem Reaches.released (h : t.Reaches options) (attached : t.session.chunk? = some rest)
    (reader : s.reader = Feed.release ⟨t.session.reader, rest⟩) (detached : s.chunk? = none) :
    Reaches options { t with session := s, replies := t.replies ++ [.released rest.length] } := by
  refine ⟨?_, ?_, ?_⟩
  · intro rest' attached'
    cases detached.symm.trans attached'
  · intro rest' attached'
    cases detached.symm.trans attached'
  · intro _
    rw [reading_append rfl]
    show s.reader.closed = false → s.reader.failure = none → s.reader.unread = 0 →
      _ = (s.reader.machine, s.reader.position, none)
    rw [reader]
    intro opened accepted used
    have used : rest = [] := List.length_eq_zero_iff.1 used
    rw [h.underway rest attached opened accepted, used, Machine.read_nil]
    rfl

/-- **Every move keeps the reader where the chunks lead.** -/
theorem Reaches.moves (h : t.Reaches options) (kept : t.Kept options) (made : t.Moves next) :
    next.Reaches options := by
  cases made with
  | idle =>
    refine ⟨?_, ?_, ?_⟩
    · rw [chunks_append_of_quiet rfl]
      exact h.attached
    · rw [reading_append rfl]
      exact h.underway
    · rw [reading_append rfl]
      exact h.detached
  | accepted detached fed reader attached => exact h.accepted kept detached fed reader attached
  | refused detached fed reader still => exact h.refused detached reader still
  | called attached calls leads other bytes reader still =>
    exact h.called kept attached calls leads other.1 reader still
  | released attached reader detached => exact h.released attached reader detached
  | @reset s reader detached =>
    have start := reaches_start options
    have reader : s.reader = { options } := by rw [reader, Reader.reset, kept.options]
    refine ⟨?_, ?_, ?_⟩
    · intro rest attached
      cases detached.symm.trans attached
    · intro rest attached
      cases detached.symm.trans attached
    · show s.chunk? = none → s.reader.closed = false → _ → _ → _ = (s.reader.machine, _, none)
      rw [reader]
      exact fun _ => start.detached rfl

theorem reaches_playAll (options : ReaderOptions) (moves : List Move) :
    (playAll options moves).Reaches options :=
  playAll_induction (reaches_start options)
    (fun _ move kept h => h.moves kept (moves_play kept.steady move)) moves

/-- **Payloads are in range and well formed.** After any moves: in every state that the calls on the
attached chunk come by, the slice of the scalar in progress is in range, it is the whole scalar if
nothing is carried, what a token hands out is the encoding of a text, and surrogates are paired
rightly. When a chunk is taken, the bytes of a string or number in progress are all carried. A move
that tells of malformed text leaves unread the byte that the check of sequences refused. -/
theorem payloads_safe (options : ReaderOptions) (moves : List Move) :
    let t := playAll options moves
    let s := t.session
    (∀ rest, s.chunk? = some rest → ∃ earlier chunk, t.chunks = earlier ++ [chunk] ∧
      ∀ n q, (Feed.after ⟨s.reader, rest⟩ n).Reads q → q.Safe chunk) ∧
    (∀ chunk f, s.chunk? = none → s.reader.feed chunk = .ok f →
      f.reader.machine = (t.reading options).machine ∧
      (∀ segment, f.reader.lexeme.segment? = some segment → segment = .resume chunk) ∧
      ∀ bytes, (t.reading options).machine.unfinished.bytes? = some bytes →
        f.reader.carried = bytes) ∧
    ∀ move e, s.reader.failure = none → (s.reply move).failure = some e →
      e.code = .illegalUnicode → ∃ rest n q byte more, s.chunk? = some rest ∧
        (Feed.after ⟨s.reader, rest⟩ n).Reads q ∧ q.rest = byte :: more ∧
        q.reader.Malformed byte ∧ e.position = q.position ∧
        (s.play move).chunk? = some (byte :: more) := by
  intro t s
  have kept := kept_playAll options moves
  have reaches := reaches_playAll options moves
  have safe (rest : Bytes) (attached : s.chunk? = some rest) : ∃ earlier chunk,
      t.chunks = earlier ++ [chunk] ∧
        ∀ n q, (Feed.after ⟨s.reader, rest⟩ n).Reads q → q.Safe chunk := by
    obtain ⟨earlier, chunk, chunks, lies⟩ := reaches.attached rest attached
    refine ⟨earlier, chunk, chunks, fun n q reads => ?_⟩
    have steady := (kept.steady rest attached).after n
    have underway := steady.underway reads.failure reads.root
    exact Feed.safe ((lies.after n).visits reads.visits) (reads.visits.passes underway).2
  refine ⟨safe, ?_, ?_⟩
  · intro chunk f detached fed
    obtain ⟨failure, unread, opened, rfl⟩ := Reader.feed_eq_ok fed
    obtain ⟨resting, -⟩ := kept.rests detached failure unread opened
    have ends := reaches.detached detached opened failure unread
    have machine : (s.reader.attach chunk).machine = (t.reading options).machine :=
      (resting.machine_attach chunk).trans (congrArg Prod.fst ends).symm
    refine ⟨machine, fun segment raw => resting.segment_attach raw, ?_⟩
    rw [← machine]
    exact fun bytes inProgress => resting.carried_attach inProgress
  · intro move e failure told illegal
    obtain ⟨rest, n, q, attached, reads, refuses, unread, -⟩ :=
      Session.exists_refuses kept.steady failure move told
    obtain ⟨earlier, chunk, -, all⟩ := safe rest attached
    obtain ⟨byte, more, next, malformed⟩ := (all n q reads).refused e refuses illegal
    exact ⟨rest, n, q, byte, more, attached, reads, next, malformed, refuses.position,
      next ▸ unread⟩

/-- A string that is cut inside a sequence: the byte before the cut is carried, and the byte after
it is refused by the check. -/
theorem payloads_safe_cut :
    let cut : List Move := [.feed [Byte.quote, 0xc3], .next, .release]
    let fed : List Move := [.feed [Byte.quote, 0xc3], .next, .release, .feed [0x28]]
    let s := (playAll {} cut).session
    let s' := (playAll {} fed).session
    (∃ f, s.reader.feed [0x28] = .ok f ∧ f.reader.carried = [0xc3]) ∧
      (s'.reply .next).failure = some ⟨.illegalUnicode, ⟨1, 3⟩⟩ ∧
      ∃ rest n q byte more, s'.chunk? = some rest ∧ (Feed.after ⟨s'.reader, rest⟩ n).Reads q ∧
        q.rest = byte :: more ∧ q.reader.Malformed byte ∧ ⟨1, 3⟩ = q.position ∧
        (s'.play .next).chunk? = some (byte :: more) := by
  intro cut fed s s'
  have detached : s.chunk? = none := by decide
  have taken : s.reader.feed [0x28] = .ok ⟨s.reader.attach [0x28], [0x28]⟩ := by decide
  have inProgress : ((playAll {} cut).reading {}).machine.unfinished.bytes? = some [0xc3] := by
    show (Machine.read _ _ [Byte.quote, 0xc3]).machine.unfinished.bytes? = _
    rw [Machine.read_advance rfl, Machine.read_advance rfl, Machine.read_nil]
    rfl
  have failure : s'.reader.failure = none := by decide
  have told : (s'.reply .next).failure = some ⟨.illegalUnicode, ⟨1, 3⟩⟩ := by decide
  obtain ⟨-, -, carried⟩ := (payloads_safe {} cut).2.1 _ _ detached taken
  obtain ⟨-, -, refused⟩ := payloads_safe {} fed
  exact ⟨⟨_, taken, carried [0xc3] inProgress⟩, told, refused .next _ failure told rfl⟩

end Transcript

end JsonStream
