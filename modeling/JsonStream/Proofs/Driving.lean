import JsonStream.Proofs.ChunkIndependence
import JsonStream.Proofs.Session
import JsonStream.Proofs.Transcoding
import JsonStream.Recording

/-!
# Driving is calling with dispatch

`Feed.drive` reads tokens as `Feed.next` does and hands each of them to one callback. The tokens of
a chunk are those of `Feed.calls`: they are handed over in order, until a callback fails or the call
comes that stops the drive.

* `Feed.drive_of_forM_ok`, `Feed.drive_of_forM_error`: no callback fails, or the given one does.
* `Feed.exists_acts_eq`: drives and calls in any order go through the answers of successive calls.
* `Outline.Reads.eq_key_iff`: whether a string is a key follows from the tokens before it.
* `Session.drive_dispatch`: all of it, for every reader that moves lead to.
-/

namespace JsonStream

/-! ### Successive calls -/

namespace Feed

/-- The answers of the next `n` calls. -/
def answers (f : Feed) (n : Nat) : List (Except ParseError Token) :=
  (f.again n).1.map Prod.fst

/-- The feed after the next `n` calls. -/
def after (f : Feed) (n : Nat) : Feed :=
  (f.again n).2

@[simp] theorem answers_zero (f : Feed) : f.answers 0 = [] := rfl

@[simp] theorem after_zero (f : Feed) : f.after 0 = f := rfl

theorem answers_succ (f : Feed) (n : Nat) :
    f.answers (n + 1) = f.next.1 :: f.next.2.answers n := rfl

theorem after_succ (f : Feed) (n : Nat) : f.after (n + 1) = f.next.2.after n := rfl

theorem after_add (f : Feed) (m n : Nat) : f.after (m + n) = (f.after m).after n := by
  induction m generalizing f with
  | zero => rw [Nat.zero_add, after_zero]
  | succ m ih => rw [Nat.succ_add, after_succ, after_succ, ih]

theorem answers_add (f : Feed) (m n : Nat) :
    f.answers (m + n) = f.answers m ++ (f.after m).answers n := by
  induction m generalizing f with
  | zero => simp
  | succ m ih => rw [Nat.succ_add, answers_succ, answers_succ, after_succ, ih, List.cons_append]

/-- The last of some calls leaves the feed where all of them do. -/
theorem after_of_getLast? {f : Feed} {n : Nat} {last : Call}
    (h : (f.again n).1.getLast? = some last) : last.2 = f.after n := by
  induction n generalizing f with
  | zero => contradiction
  | succ n ih =>
    rw [again, List.getLast?_cons] at h
    rw [after_succ]
    cases n with
    | zero =>
      cases h
      rfl
    | succ n =>
      refine ih ?_
      rw [again, List.getLast?_cons, Option.getD_some] at h
      rw [again, List.getLast?_cons]
      exact h

/-- The calls on a chunk are the first of all successive calls. -/
theorem calls_eq_again (f : Feed) : f.calls = (f.again f.calls.length).1 := by
  induction f using calls.induct with
  | case1 f token g answer ongoing ih =>
    rw [calls_of_ongoing answer ongoing, List.length_cons, again, answer, ← ih]
  | case2 f token g answer last => rw [calls_of_last answer last, ← answer]; rfl
  | case3 f e g answer => rw [calls_of_error answer, ← answer]; rfl

end Feed

/-- Whether a call is the last one on a chunk: it asks for more, ends the document or fails. -/
def Call.stops : Call → Bool
  | (.ok token, _) => !token.isOngoing
  | (.error _, _) => true

/-- The calls on a chunk go up to the first one that stops, and include it. -/
theorem Feed.exists_map_stops (f : Feed) :
    ∃ n, f.calls.map Call.stops = List.replicate n false ++ [true] := by
  induction f using calls.induct with
  | case1 f token g answer ongoing ih =>
    obtain ⟨n, stops⟩ := ih
    refine ⟨n + 1, ?_⟩
    rw [calls_of_ongoing answer ongoing, List.map_cons, stops, Call.stops, ongoing]
    rfl
  | case2 f token g answer last =>
    refine ⟨0, ?_⟩
    rw [calls_of_last answer last, List.map_singleton, Call.stops, Bool.eq_false_iff.2 last]
    rfl
  | case3 f e g answer =>
    refine ⟨0, ?_⟩
    rw [calls_of_error answer]
    rfl

/-! ### What is handed over -/

/-- The token that a call returns, unless it asks for more input or fails. -/
def Call.told : Call → List Token
  | (.ok token, _) => token.reported
  | (.error _, _) => []

/-- The tokens that calls return, without requests for more input. -/
def Call.handed (calls : List Call) : List Token :=
  calls.flatMap told

/-- How a drive ends that no callback stops, given the call that stops it. -/
def Call.progress {ε : Type} : Call → Except (DriveError ε) Progress
  | (.error e, _) => .error (.parse e)
  | (.ok .done, _) => .ok .finished
  | (.ok _, _) => .ok .needMore

theorem Token.reported_of_ongoing {token : Token} (h : token.isOngoing = true) :
    token.reported = [token] := by
  cases token <;> first | rfl | contradiction

theorem Call.handed_ongoing {token : Token} {g : Feed} (h : token.isOngoing = true)
    (calls : List Call) : handed ((.ok token, g) :: calls) = token :: handed calls := by
  rw [handed, List.flatMap_cons, told, Token.reported_of_ongoing h]
  rfl

theorem Call.reported_of_handed {calls : List Call} {token : Token} (h : token ∈ handed calls) :
    token.reported = [token] := by
  obtain ⟨⟨other | other, g⟩, -, told⟩ := List.mem_flatMap.1 h
  · contradiction
  · cases other with
    | needMore => contradiction
    | _ => cases List.mem_singleton.1 told; rfl

theorem Call.flatMap_reported {calls : List Call} {tokens : List Token}
    (h : ∀ token ∈ tokens, token ∈ handed calls) : tokens.flatMap Token.reported = tokens := by
  rw [List.flatMap_congr fun token mem => reported_of_handed (h token mem)]
  exact List.flatMap_singleton' tokens

section
variable {ε σ : Type} {v : Visitor ε σ} {s s' : σ}

/-- Noting the callbacks changes nothing else. -/
theorem Visitor.logged_visit (v : Visitor ε σ) (token : Token) (s : σ) (log : List Token) :
    v.logged.visit token (s, log) =
      match v.visit token s with
      | .ok _ next => .ok () (next, log ++ token.reported)
      | .error e next => .error e (next, log ++ token.reported) := by
  cases token with
  | needMore =>
    show EStateM.Result.ok () (s, log) = .ok () (s, log ++ [])
    rw [List.append_nil]
  | _ => rfl

theorem forM_cons_eq {token : Token} {tokens : List Token} {next : σ}
    (visit : v.visit token s = .ok () next) :
    (token :: tokens).forM v.visit s = tokens.forM v.visit next := by
  show EStateM.bind _ _ s = _
  rw [EStateM.bind, visit]

theorem exists_visit_of_forM {token : Token} {tokens : List Token}
    (h : (token :: tokens).forM v.visit s = .ok () s') :
    ∃ next, v.visit token s = .ok () next ∧ tokens.forM v.visit next = .ok () s' := by
  cases visit : v.visit token s with
  | ok _ next =>
    rw [forM_cons_eq visit] at h
    exact ⟨next, rfl, h⟩
  | error e next =>
    have stopped : (token :: tokens).forM v.visit s = .error e next := by
      show EStateM.bind _ _ s = _
      rw [EStateM.bind, visit]
    rw [stopped] at h
    contradiction

/-- Unless all callbacks succeed, there is a first one that fails. -/
theorem Visitor.forM_ok_or_fails (v : Visitor ε σ) (tokens : List Token) (s : σ) :
    (∃ s', tokens.forM v.visit s = .ok () s') ∨
      ∃ k token before e s', tokens[k]? = some token ∧
        (tokens.take k).forM v.visit s = .ok () before ∧ v.visit token before = .error e s' := by
  induction tokens generalizing s with
  | nil => exact .inl ⟨s, rfl⟩
  | cons token tokens ih =>
    cases visit : v.visit token s with
    | error e next => exact .inr ⟨0, token, s, e, next, rfl, rfl, visit⟩
    | ok _ next =>
      rcases ih next with ⟨s', passed⟩ | ⟨k, failing, before, e, s', nth, passed, fails⟩
      · exact .inl ⟨s', (forM_cons_eq visit).trans passed⟩
      · exact .inr ⟨k + 1, failing, before, e, s', nth, (forM_cons_eq visit).trans passed, fails⟩

theorem Visitor.forM_logged {tokens : List Token} (h : tokens.forM v.visit s = .ok () s')
    (log : List Token) :
    tokens.forM v.logged.visit (s, log) = .ok () (s', log ++ tokens.flatMap Token.reported) := by
  induction tokens generalizing s log with
  | nil =>
    cases h
    rw [List.flatMap_nil, List.append_nil]
    rfl
  | cons token tokens ih =>
    obtain ⟨next, visit, rest⟩ := exists_visit_of_forM h
    have noted : v.logged.visit token (s, log) = .ok () (next, log ++ token.reported) := by
      rw [logged_visit, visit]
    rw [forM_cons_eq noted, ih rest, List.flatMap_cons, List.append_assoc]

end

/-! ### Driving -/

namespace Feed

section
variable {ε σ : Type} {v : Visitor ε σ} {s s' : σ} {f g : Feed} {token : Token} {e : ε}

theorem drive_of_error {refusal : ParseError} (answer : f.next = (.error refusal, g)) :
    f.drive v s = ⟨.error (.parse refusal), s, g⟩ := by
  rw [drive]
  split <;> simp_all

theorem drive_of_stop (answer : f.next = (.ok token, g)) (visit : v.visit token s = .error e s') :
    f.drive v s = ⟨.error (.visitor e), s', g⟩ := by
  rw [drive]
  split <;> simp_all

/-- **If no callback fails**, driving hands over all tokens of the chunk, and it ends as the last
call does. -/
theorem drive_of_forM_ok (h : (Call.handed f.calls).forM v.visit s = .ok () s') :
    ∃ last : Call, f.calls.getLast? = some last ∧
      f.drive v s = ⟨last.progress, s', last.2⟩ := by
  induction f using calls.induct generalizing s with
  | case1 f token g answer ongoing ih =>
    rw [calls_of_ongoing answer ongoing] at h ⊢
    rw [Call.handed_ongoing ongoing] at h
    obtain ⟨next, visit, rest⟩ := exists_visit_of_forM h
    obtain ⟨last, at_end, driven⟩ := ih rest
    refine ⟨last, ?_, ?_⟩
    · rw [List.getLast?_cons, at_end, Option.getD_some]
    · rw [drive_of_ongoing answer visit ongoing, driven]
  | case2 f token g answer last =>
    rw [calls_of_last answer last] at h ⊢
    refine ⟨_, rfl, ?_⟩
    cases token with
    | needMore =>
      cases h
      exact drive_of_last answer rfl last
    | done =>
      obtain ⟨next, visit, rest⟩ := exists_visit_of_forM h
      cases rest
      exact drive_of_last answer visit last
    | _ => exact absurd rfl last
  | case3 f e g answer =>
    rw [calls_of_error answer] at h ⊢
    cases h
    exact ⟨_, rfl, drive_of_error answer⟩

/-- **If a callback fails**, driving has handed over the tokens up to that of the callback, and the
feed is where as many calls leave it. -/
theorem drive_of_forM_error {k : Nat} {before : σ} (nth : (Call.handed f.calls)[k]? = some token)
    (passed : ((Call.handed f.calls).take k).forM v.visit s = .ok () before)
    (fails : v.visit token before = .error e s') :
    f.drive v s = ⟨.error (.visitor e), s', f.after (k + 1)⟩ := by
  induction f using calls.induct generalizing s k with
  | case1 f first g answer ongoing ih =>
    have handed : Call.handed f.calls = first :: Call.handed g.calls := by
      rw [calls_of_ongoing answer ongoing, Call.handed_ongoing ongoing]
    rw [handed] at nth passed
    rw [after_succ, answer]
    cases k with
    | zero =>
      cases nth
      cases passed
      exact drive_of_stop answer fails
    | succ k =>
      rw [List.take_succ_cons] at passed
      obtain ⟨next, visit, rest⟩ := exists_visit_of_forM passed
      rw [drive_of_ongoing answer visit ongoing]
      exact ih nth rest
  | case2 f first g answer last =>
    rw [calls_of_last answer last] at nth passed
    cases first with
    | needMore => contradiction
    | done =>
      cases k with
      | zero =>
        cases nth
        cases passed
        rw [after_succ, answer]
        exact drive_of_stop answer fails
      | succ k => contradiction
    | _ => exact absurd rfl last
  | case3 f e g answer =>
    rw [calls_of_error answer] at nth
    contradiction

/-- Noting the callbacks changes neither what a drive does nor where it ends. -/
theorem exists_drive_logged (v : Visitor ε σ) (s : σ) (f : Feed) (log : List Token) :
    ∃ log', f.drive v.logged (s, log) =
      ⟨(f.drive v s).outcome, ((f.drive v s).state, log'), (f.drive v s).feed⟩ := by
  fun_induction drive v s f generalizing log with
  | case1 s f e g answer => exact ⟨log, drive_of_error answer⟩
  | case2 s f token g answer e next visit =>
    refine ⟨log ++ token.reported, drive_of_stop answer ?_⟩
    rw [Visitor.logged_visit, visit]
  | case3 s f token g answer _ next visit ongoing ih =>
    obtain ⟨log', driven⟩ := ih (log ++ token.reported)
    have noted : v.logged.visit token (s, log) = .ok () (next, log ++ token.reported) := by
      rw [Visitor.logged_visit, visit]
    rw [drive_of_ongoing answer noted ongoing]
    exact ⟨log', driven⟩
  | case4 s f token g answer _ next visit last =>
    have noted : v.logged.visit token (s, log) = .ok () (next, log ++ token.reported) := by
      rw [Visitor.logged_visit, visit]
    exact ⟨log ++ token.reported, drive_of_last answer noted last⟩

end

end Feed

/-! ### Calls and drives in any order -/

/-- What a caller does with an attached chunk. -/
inductive Act : Type 1 where
  | next
  | drive {ε σ : Type} (v : Visitor ε σ) (s : σ)

/-- The answer that ended a drive without a callback, if one did. -/
def Driven.unhanded {ε σ : Type} (driven : Driven ε σ) : List (Except ParseError Token) :=
  match driven.outcome with
  | .error (.parse e) => [.error e]
  | .ok .needMore => [.ok .needMore]
  | .error (.visitor _) | .ok .finished => []

namespace Feed

/-- The answers that reach the caller, those of a drive through the callbacks that are made or
through its outcome, and the feed afterwards. -/
def act (f : Feed) : Act → List (Except ParseError Token) × Feed
  | .next => ([f.next.1], f.next.2)
  | .drive v s =>
    let driven := f.drive v.logged (s, [])
    (driven.state.2.map .ok ++ driven.unhanded, driven.feed)

/-- The answers that reach the caller in a row of acts, and the feed afterwards. -/
def acts (f : Feed) : List Act → List (Except ParseError Token) × Feed
  | [] => ([], f)
  | act :: later => ((f.act act).1 ++ ((f.act act).2.acts later).1, ((f.act act).2.acts later).2)

/-- Driving goes through the answers of successive calls, whatever the visitor does. -/
theorem exists_drive_eq {ε σ : Type} (v : Visitor ε σ) (state : σ × List Token) (f : Feed) :
    ∃ n told, f.answers n = told ++ (f.drive v.logged state).unhanded ∧
      (f.drive v.logged state).state.2.map .ok = state.2.map .ok ++ told ∧
      (f.drive v.logged state).feed = f.after n := by
  fun_induction drive v.logged state f with
  | case1 state f e g answer =>
    refine ⟨1, [], ?_, (List.append_nil _).symm, ?_⟩
    · rw [answers_succ, answer]
      rfl
    · rw [after_succ, answer]
      rfl
  | case2 state f token g answer e next visit =>
    refine ⟨1, [.ok token], ?_, ?_, ?_⟩
    · rw [answers_succ, answer]
      rfl
    · have reported : token.reported = [token] := by
        cases token <;> first | rfl | contradiction
      rw [Visitor.noted (.inr ⟨e, visit⟩), reported, List.map_append]
      rfl
    · rw [after_succ, answer]
      rfl
  | case3 state f token g answer _ next visit ongoing ih =>
    obtain ⟨n, told, same, log, feed⟩ := ih
    refine ⟨n + 1, .ok token :: told, ?_, ?_, ?_⟩
    · rw [answers_succ, answer, same, List.cons_append]
    · rw [log, Visitor.noted (.inl visit), Token.reported_of_ongoing ongoing, List.map_append]
      rw [List.append_assoc]
      rfl
    · rw [after_succ, answer, feed]
  | case4 state f token g answer _ next visit last =>
    refine ⟨1, token.reported.map .ok, ?_, ?_, ?_⟩
    · rw [answers_succ, answer]
      cases token <;> first | rfl | exact absurd rfl last
    · rw [Visitor.noted (.inl visit), List.map_append]
    · rw [after_succ, answer]
      rfl

/-- A drive leaves the feed that some calls leave. -/
theorem exists_drive_feed {ε σ : Type} (v : Visitor ε σ) (s : σ) (f : Feed) :
    ∃ n, (f.drive v s).feed = f.after n := by
  obtain ⟨n, -, -, -, feed⟩ := exists_drive_eq v (s, []) f
  obtain ⟨log, noted⟩ := exists_drive_logged v s f []
  rw [noted] at feed
  exact ⟨n, feed⟩

theorem exists_act_eq (f : Feed) (act : Act) : ∃ n, f.act act = (f.answers n, f.after n) := by
  cases act with
  | next => exact ⟨1, rfl⟩
  | drive v s =>
    obtain ⟨n, told, same, log, feed⟩ := exists_drive_eq v (s, []) f
    refine ⟨n, ?_⟩
    rw [List.map_nil, List.nil_append] at log
    rw [Feed.act, log, feed, same]

/-- **Calls and drives in any order go through the answers of successive calls**: none of them is
lost, and none comes twice. -/
theorem exists_acts_eq (f : Feed) (later : List Act) :
    ∃ n, f.acts later = (f.answers n, f.after n) := by
  induction later generalizing f with
  | nil => exact ⟨0, rfl⟩
  | cons act later ih =>
    obtain ⟨m, first⟩ := f.exists_act_eq act
    obtain ⟨n, rest⟩ := ih (f.after m)
    refine ⟨m + n, ?_⟩
    rw [acts, first, answers_add, after_add]
    show (_ ++ ((f.after m).acts later).1, ((f.after m).acts later).2) = _
    rw [rest]

end Feed

/-! ### Keys among strings -/

/-- The token without its role: a key is a string. -/
def Token.plain : Token → Token
  | .key text => .string text
  | token => token

namespace Outline

/-- The outline after a token in which strings and keys look alike. -/
def track (o : Outline) : Token → Outline
  | .needMore | .done => o
  | .beginArray => .inside .firstElement o.filled
  | .beginObject => .inside .firstKey o.filled
  | .endArray | .endObject => around o.slots.tail
  | .null | .bool _ | .number _ | .integer _ | .string _ | .key _ => around o.filled

/-- Whether the name of a member is next. -/
def namesMember : Outline → Bool
  | .inside slot _ => slot.filled = .memberValue
  | .start | .complete => false

/-- Whether a string after these tokens is the name of an object member. -/
def nameIsDue (tokens : List Token) : Bool :=
  (tokens.foldl track .start).namesMember

variable {tokens before later : List Token} {o next : Outline} {token : Token}

theorem Takes.track_eq (h : o.Takes token next) : o.track token.plain = next := by
  cases h with
  | scalar due alone => cases token <;> first | rfl | contradiction
  | @key slot outer text place =>
    show Outline.inside slot.filled outer = _
    rw [place]
  | beginArray | endArray | beginObject | endObject | done => rfl

/-- The tokens alone tell the outline, also without their roles. -/
theorem Reads.foldl_track (h : Reads tokens o) :
    (tokens.map Token.plain).foldl track .start = o := by
  induction h with
  | nil => rfl
  | snoc _ last ih =>
    rw [List.map_append, List.foldl_append, ih]
    exact last.track_eq

theorem Reads.exists_takes (h : Reads tokens o) (split : tokens = before ++ token :: later) :
    ∃ o₁ next, Reads before o₁ ∧ o₁.Takes token next := by
  induction h generalizing later with
  | nil => simp at split
  | @snoc tokens o₁ next last reads takes ih =>
    rcases List.eq_nil_or_concat later with rfl | ⟨front, final, rfl⟩
    · obtain ⟨rfl, same⟩ := List.append_inj' split rfl
      cases same
      exact ⟨o₁, next, reads, takes⟩
    · have regroup : before ++ token :: front.concat final =
          (before ++ token :: front) ++ [final] := by simp
      rw [regroup] at split
      exact ih (List.append_inj' split rfl).1

/-- **A string is reported as a key if and only if it names a member**, which the tokens before it
tell. -/
theorem Reads.eq_key_iff {text : String} (h : Reads (before ++ token :: later) o)
    (string : token.plain = .string text) :
    token = .key text ↔ nameIsDue (before.map Token.plain) = true := by
  obtain ⟨o₁, next, reads, takes⟩ := h.exists_takes rfl
  rw [nameIsDue, reads.foldl_track]
  cases takes with
  | scalar due alone =>
    cases token with
    | string other =>
      refine ⟨nofun, fun name => ?_⟩
      cases o₁ with
      | inside slot outer => exact absurd (of_decide_eq_true name) due
      | start | complete => contradiction
    | _ => contradiction
  | key place =>
    cases string
    exact ⟨fun _ => decide_eq_true place, fun _ => rfl⟩
  | _ => contradiction

end Outline

/-! ### Every reader in use -/

/-- **What driving does**, given the tokens of the calls on the chunk. -/
structure Feed.Dispatches {ε σ : Type} (f : Feed) (v : Visitor ε σ) (s : σ) : Prop where
  /-- Either all callbacks succeed, or there is a first one that fails. -/
  either : (∃ s', (Call.handed f.calls).forM v.visit s = .ok () s') ∨
    ∃ k token before e s', (Call.handed f.calls)[k]? = some token ∧
      ((Call.handed f.calls).take k).forM v.visit s = .ok () before ∧
      v.visit token before = .error e s'
  /-- If no callback fails, each token has one callback, and the last call ends the drive. -/
  all : ∀ s', (Call.handed f.calls).forM v.visit s = .ok () s' →
    ∃ last : Call, f.calls.getLast? = some last ∧ last.2 = f.after f.calls.length ∧
      f.drive v s = ⟨last.progress, s', last.2⟩ ∧
      f.drive v.logged (s, []) = ⟨last.progress, (s', Call.handed f.calls), last.2⟩
  /-- If the callback of a token fails, exactly the tokens up to that one have been handed over and
  consumed, and whatever is done next goes on with the answer after it. -/
  upTo : ∀ k token before e s', (Call.handed f.calls)[k]? = some token →
    ((Call.handed f.calls).take k).forM v.visit s = .ok () before →
    v.visit token before = .error e s' →
      f.drive v s = ⟨.error (.visitor e), s', f.after (k + 1)⟩ ∧
      f.drive v.logged (s, []) =
        ⟨.error (.visitor e), (s', (Call.handed f.calls).take (k + 1)), f.after (k + 1)⟩ ∧
      ∀ later, ∃ n, f.answers (k + 1 + n) = f.answers (k + 1) ++ ((f.after (k + 1)).acts later).1 ∧
        ((f.after (k + 1)).acts later).2 = f.after (k + 1 + n)
  /-- Calls and drives may be mixed at will. -/
  mixed : ∀ acts, ∃ n, f.acts acts = (f.answers n, f.after n)

theorem Feed.dispatches {ε σ : Type} (f : Feed) (v : Visitor ε σ) (s : σ) :
    f.Dispatches v s where
  either := v.forM_ok_or_fails _ s
  all s' passed := by
    obtain ⟨last, at_end, driven⟩ := drive_of_forM_ok passed
    have noted := Visitor.forM_logged passed []
    rw [Call.flatMap_reported fun _ mem => mem, List.nil_append] at noted
    obtain ⟨last', at_end', logged⟩ := drive_of_forM_ok noted
    cases at_end.symm.trans at_end'
    refine ⟨last, at_end, ?_, driven, logged⟩
    rw [calls_eq_again] at at_end
    exact after_of_getLast? at_end
  upTo k token before e s' nth passed fails := by
    have noted := Visitor.forM_logged passed []
    rw [Call.flatMap_reported fun _ mem => List.mem_of_mem_take mem, List.nil_append] at noted
    have reported := Call.reported_of_handed (List.mem_of_getElem? nth)
    have upTo : (Call.handed f.calls).take k ++ token.reported =
        (Call.handed f.calls).take (k + 1) := by
      rw [reported, List.take_add_one, nth, Option.toList_some]
    have fails_logged : v.logged.visit token (before, (Call.handed f.calls).take k) =
        .error e (s', (Call.handed f.calls).take (k + 1)) := by
      rw [Visitor.logged_visit, fails]
      dsimp only
      rw [upTo]
    refine ⟨drive_of_forM_error nth passed fails, drive_of_forM_error nth noted fails_logged, ?_⟩
    intro later
    obtain ⟨n, rest⟩ := (f.after (k + 1)).exists_acts_eq later
    refine ⟨n, ?_, ?_⟩
    · rw [answers_add, rest]
    · rw [after_add f (k + 1) n, rest]
  mixed := f.exists_acts_eq

namespace Session

variable {s : Session} {rest : Bytes}

theorem eq_attached (h : s.chunk? = some rest) :
    s = attached ⟨s.reader, rest⟩ s.tokens s.errors := by
  obtain ⟨reader, chunk?, tokens, errors⟩ := s
  cases h
  rfl

theorem tokens_ask (f : Feed) (tokens : List Token) (errors : List ErrorCode) (n : Nat) :
    ((attached f tokens errors).ask n).tokens = tokens ++ Call.handed (f.again n).1 := by
  induction n generalizing f tokens errors with
  | zero => exact (List.append_nil tokens).symm
  | succ n ih =>
    rw [ask, Feed.again, Call.handed, List.flatMap_cons, ← Call.handed]
    cases answer : f.next with
    | mk result g =>
      cases result with
      | ok token => rw [play_next_ok answer, ih, Call.told, List.append_assoc]
      | error e => rw [play_next_error answer, ih, Call.told, List.nil_append]

/-- The tokens so far and those of the calls on the chunk are the tokens of a document. -/
theorem Sound.reads_handed (h : s.Sound) (at_chunk : s.chunk? = some rest) :
    ∃ o, Outline.Reads (s.tokens ++ Call.handed (Feed.calls ⟨s.reader, rest⟩)) o := by
  have sound := h.ask (Feed.calls ⟨s.reader, rest⟩).length
  obtain ⟨o, reads, -⟩ := sound.outline
  rw [eq_attached at_chunk, tokens_ask] at reads
  rw [Feed.calls_eq_again]
  exact ⟨o, reads⟩

/-- **Driving is calling with dispatch.** Whatever moves have led to a reader with a chunk attached,
driving the chunk hands the tokens of successive calls to the visitor, one callback for each, and
ends where and as these calls do. A string has the callback of keys if and only if it names an object
member. A callback that fails costs its token only: as many tokens are consumed as were handed over,
and any calls and drives after it go on with the next answer. -/
theorem drive_dispatch {ε σ : Type} (options : ReaderOptions) (moves : List Move) (rest : Bytes)
    (at_chunk : (playAll options moves).chunk? = some rest) (v : Visitor ε σ) (state : σ) :
    let s := playAll options moves
    let f : Feed := ⟨s.reader, rest⟩
    f.calls.map Prod.fst = f.answers f.calls.length ∧
      (∃ n, f.calls.map Call.stops = List.replicate n false ++ [true]) ∧ f.Dispatches v state ∧
      ∀ before token later text, s.tokens ++ Call.handed f.calls = before ++ token :: later →
        token.plain = .string text →
          (token = .key text ↔ Outline.nameIsDue (before.map Token.plain) = true) := by
  intro s f
  refine ⟨?_, f.exists_map_stops, f.dispatches v state, ?_⟩
  · rw [Feed.answers, ← Feed.calls_eq_again]
  · intro before token later text split string
    obtain ⟨o, reads⟩ := (sound_playAll options moves).reads_handed at_chunk
    rw [split] at reads
    exact reads.eq_key_iff string

/-- A recorder stops at the first string of `["a","b"]`: the bracket and that string are consumed, and
the other string is next. -/
theorem drive_dispatch_stopped :
    let input : Bytes := [0x5b, 0x22, 0x61, 0x22, 0x2c, 0x22, 0x62, 0x22, 0x5d]
    let f : Feed := ⟨(playAll {} [.feed input]).reader, input⟩
    f.drive (Recording.everything 2) {} = ⟨.error (.visitor 2), ⟨[.beginArray], 2⟩, f.after 2⟩ ∧
      (f.after 2).next.1 = .ok (.string "b") := by
  intro input f
  have dispatched := (drive_dispatch {} [.feed input] input rfl (Recording.everything 2) {}).2.2.1
  have first : (Call.handed f.calls).take 1 = [.beginArray] := by decide +kernel
  have passed : ((Call.handed f.calls).take 1).forM (Recording.everything 2).visit {} =
      .ok () ⟨[.beginArray], 1⟩ := by
    rw [first]
    rfl
  have stopped := dispatched.upTo 1 (.string "a") _ 2 _ (by decide +kernel) passed rfl
  exact ⟨stopped.1, by decide +kernel⟩

end Session

end JsonStream
