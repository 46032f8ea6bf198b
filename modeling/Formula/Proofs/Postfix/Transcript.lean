import Formula.Proofs.Postfix.Acceptance
import Formula.Proofs.Postfix.Token
import Formula.Proofs.Postfix.Turns

/-!
# The log of an evaluation

Reading, conversion and execution take turns, and the log tells in which order. It is told of here
by events that also say when a token is read, which leaves no record.

* `Event`, `Event.record?`: what happens in an evaluation, and the record of it.
* `begun`: the tokens whose execution is begun, up to the first that fails.
* `transcript`: the events of an evaluation; `records_transcript`: the log is that of them.
* `Event.Fits`, `Admits`: what an event requires of those in front of it. `Faithful`: events each
  of which may stand where it stands.
* `CaughtUp`: events behind which the next token may be read. `CaughtUp.faithful_turn` is what one
  token leads to, `faithful_transcript` a whole evaluation.
* `evaluate_transcribes`: what can be told from the log.
-/

namespace Formula

/-- What happens in an evaluation. -/
inductive Event
  /-- The next token is read, or the input is found exhausted. -/
  | reads (t? : Option Token)
  /-- The conversion releases a token. -/
  | releases (t : Token)
  /-- The conversion fails. -/
  | fails (e : EvalError)
  /-- The execution of a token begins. -/
  | executes (t : Token)
deriving DecidableEq

namespace Event

/-- The record of an event. Nothing is recorded of what is read, nor of text that is no token before
it is executed. -/
def record? : Event → Option LogRecord
  | reads _ => none
  | releases t => if t.kind = .illegal then none else some (.released t.kind t.text)
  | fails e => some (.conversionFailed e)
  | executes t => some (.executing t.kind t.text)

def asked? : Event → Option (Option Token)
  | reads t? => some t?
  | _ => none

def released? : Event → Option Token
  | releases t => some t
  | _ => none

/-- A token that is released with a record. -/
def emitted? : Event → Option Token
  | releases t => if t.kind = .illegal then none else some t
  | _ => none

def executed? : Event → Option Token
  | executes t => some t
  | _ => none

/-- What is recorded by the conversion, and not by the execution. -/
def IsOfConversion : Event → Prop
  | releases _ | fails _ => True
  | reads _ | executes _ => False

end Event

/-- What has been asked for, in this order. -/
def asked (events : List Event) : List (Option Token) := events.filterMap Event.asked?

/-- What the conversion has put out. -/
def released (events : List Event) : List Token := events.filterMap Event.released?

/-- What the conversion has put out with a record. -/
def emitted (events : List Event) : List Token := events.filterMap Event.emitted?

/-- What has been executed, with the token that failed if one has. -/
def executed (events : List Event) : List Token := events.filterMap Event.executed?

/-! ## The events of an evaluation -/

/-- The tokens whose execution is begun: up to the first that fails, with this one. -/
def begun (ctx : Context) : OperandStack → List Token → List Token
  | _, [] => []
  | stack, t :: ts =>
    t :: match executeTokens ctx stack [t] with
      | .ok stack => begun ctx stack ts
      | .error _ => []

/-- The events of a conversion that releases tokens, or fails. -/
def Release.events (r : Release) : List Event :=
  r.tokens.map .releases ++ match r.progress with
    | .failed e => [.fails e]
    | _ => []

/-- What reading a token, or the end of the input, leads to. -/
def turn (ctx : Context) (stack : OperandStack) (t? : Option Token) (r : Release) : List Event :=
  .reads t? :: (r.events ++ (begun ctx stack r.tokens).map .executes)

/-- The events of an evaluation, from tokens that wait and a stack of operands on. -/
def transcript (ctx : Context) : List Token → OperandStack → List Token → List Event
  | waiting, stack, [] => turn ctx stack none (convertEnd waiting)
  | waiting, stack, t :: input =>
    let r := convertToken ctx.operators waiting t
    turn ctx stack (some t) r ++
      match (runItems ctx stack r.items).outcome, r.progress with
      | .ok stack, .waiting waiting => transcript ctx waiting stack input
      | _, _ => []

/-! ## The log is that of the events -/

theorem Logged.records_bind {α β : Type} (x : Logged α) (f : α → Logged β) :
    (x >>= f).records = x.records ++ match x.outcome with
      | .ok a => (f a).records
      | .error _ => [] := by
  obtain ⟨records, outcome⟩ := x
  cases outcome with
  | error e => rw [bind_error, List.append_nil]
  | ok a => rw [bind_ok]

section Log

variable {ctx : Context} {stack s : OperandStack} {waiting input ts : List Token} {t : Token}

theorem records_events (r : Release) : r.events.filterMap Event.record? = r.records := by
  have htokens : ∀ ts : List Token, (ts.map .releases).filterMap Event.record?
      = (ts.filter (·.kind ≠ .illegal)).map fun t => .released t.kind t.text := by
    intro ts
    induction ts with
    | nil => rfl
    | cons t ts ih =>
      rw [List.map_cons, List.filterMap_cons, ih, Event.record?]
      by_cases hk : t.kind = .illegal <;> simp [hk]
  obtain ⟨tokens, progress⟩ := r
  rw [Release.events, List.filterMap_append, htokens]
  cases progress <;> rfl

/-- A release behind which the conversion goes on puts out its tokens. -/
theorem items_of_waiting {r : Release} (h : r.progress = .waiting waiting) :
    r.items = r.tokens.map .ok := by
  rw [Release.items, h]
  exact List.append_nil _

theorem begun_of_ok (h : executeTokens ctx stack ts = .ok s) : begun ctx stack ts = ts := by
  induction ts generalizing stack with
  | nil => rfl
  | cons t ts ih =>
    obtain ⟨next, ht, hts⟩ := (executeTokens_cons_eq_ok_iff ctx).1 h
    rw [begun, ht]
    exact congrArg (t :: ·) (ih hts)

theorem records_runItems (ctx : Context) (stack : OperandStack) (r : Release) :
    (runItems ctx stack r.items).records
      = ((begun ctx stack r.tokens).map .executes).filterMap Event.record? := by
  obtain ⟨ts, progress⟩ := r
  induction ts generalizing stack with
  | nil => cases progress <;> rfl
  | cons t ts ih =>
    show (runItems ctx stack (.ok t :: Release.items ⟨ts, progress⟩)).records = _
    rw [runItems, Logged.records_bind, outcome_runItem_ok, begun]
    cases executeTokens ctx stack [t] with
    | error e => rfl
    | ok next => exact congrArg (_ :: ·) (ih next)

theorem records_turn (ctx : Context) (stack : OperandStack) (t? : Option Token) (r : Release) :
    (turn ctx stack t? r).filterMap Event.record?
      = r.records ++ (runItems ctx stack r.items).records := by
  rw [turn, List.filterMap_cons_none rfl, List.filterMap_append, records_events, records_runItems]

theorem records_transcript (ctx : Context) (waiting : List Token) (stack : OperandStack)
    (input : List Token) :
    (runReleases ctx stack (releases ctx.operators waiting input)).records
      = (transcript ctx waiting stack input).filterMap Event.record? := by
  induction input generalizing waiting stack with
  | nil =>
    rw [releases, runReleases, transcript, records_turn, Logged.records_bind]
    show _ ++ (runItems ctx stack _ >>= fun stack => runReleases ctx stack []).records = _
    rw [Logged.records_bind]
    cases (runItems ctx stack (convertEnd waiting).items).outcome <;>
      exact congrArg _ (List.append_nil _)
  | cons t input ih =>
    rw [releases, runReleases, transcript, List.filterMap_append, records_turn,
      Logged.records_bind]
    show _ ++ (runItems ctx stack _ >>= fun stack => runReleases ctx stack _).records = _
    rw [Logged.records_bind, List.append_assoc]
    cases hrun : (runItems ctx stack (convertToken ctx.operators waiting t).items).outcome with
    | error e => rfl
    | ok next =>
      cases hp : (convertToken ctx.operators waiting t).progress with
      | waiting waiting' => rw [← ih]; rfl
      | done | failed e => rfl

end Log

/-! ## What follows what -/

/-- Behind one token the evaluation goes on if nothing has failed, and is at its end otherwise. -/
theorem transcript_cons_cases (ctx : Context) (waiting : List Token) (stack : OperandStack)
    (t : Token) (input : List Token) :
    let r := convertToken ctx.operators waiting t
    (∃ next waiting', executeTokens ctx stack r.tokens = .ok next ∧ r.progress = .waiting waiting' ∧
      transcript ctx waiting stack (t :: input)
        = turn ctx stack (some t) r ++ transcript ctx waiting' next input) ∨
      transcript ctx waiting stack (t :: input) = turn ctx stack (some t) r := by
  intro r
  rw [transcript]
  split
  · next next waiting' hrun hprogress =>
    rw [items_of_waiting hprogress, outcome_runItems_map_ok] at hrun
    exact .inl ⟨next, waiting', hrun, hprogress, rfl⟩
  · exact .inr (List.append_nil _)

/-- What an event requires of those in front of it. A token is read when all that has been released
has been executed, the conversion speaks right behind what it has read, and what is executed has
been released before, in the same order. Behind a failure of the conversion nothing is read. -/
def Event.Fits (front : List Event) : Event → Prop
  | .reads _ => executed front = released front ∧ ∀ e, .fails e ∉ front
  | .releases _ | .fails _ =>
    (∃ earlier t?, ∃ ts : List Token, front = earlier ++ .reads t? :: ts.map .releases) ∧
      ∀ e, .fails e ∉ front
  | .executes t => executed front ++ [t] <+: released front

/-- The event may stand behind those in front of it, none of which has been a failing step. -/
structure Admits (ctx : Context) (front : List Event) (event : Event) : Prop where
  runs : ∃ stack, executeTokens ctx [] (executed front) = .ok stack
  fits : event.Fits front

/-- Each event may stand where it stands. -/
def Faithful (ctx : Context) (events : List Event) : Prop :=
  ∀ front event back, events = front ++ event :: back → Admits ctx front event

/-- Events behind which the next token may be read. -/
structure CaughtUp (ctx : Context) (past : List Event) (stack : OperandStack) : Prop where
  faithful : Faithful ctx past
  balanced : executed past = released past
  running : executeTokens ctx [] (executed past) = .ok stack
  unfailed : ∀ e, .fails e ∉ past

section Projections

variable (front back : List Event) (ts : List Token) (r : Release)

theorem asked_append : asked (front ++ back) = asked front ++ asked back :=
  List.filterMap_append ..

theorem executed_append : executed (front ++ back) = executed front ++ executed back :=
  List.filterMap_append ..

theorem released_append : released (front ++ back) = released front ++ released back :=
  List.filterMap_append ..

theorem executed_reads (t? : Option Token) : executed (.reads t? :: back) = executed back := rfl

theorem released_reads (t? : Option Token) : released (.reads t? :: back) = released back := rfl

theorem asked_map_executes : asked (ts.map .executes) = [] := by
  simp [asked, List.filterMap_map, Function.comp_def, Event.asked?]

theorem asked_map_releases : asked (ts.map .releases) = [] := by
  simp [asked, List.filterMap_map, Function.comp_def, Event.asked?]

theorem executed_map_executes : executed (ts.map .executes) = ts := by
  simp [executed, List.filterMap_map, Function.comp_def, Event.executed?]

theorem released_map_executes : released (ts.map .executes) = [] := by
  simp [released, List.filterMap_map, Function.comp_def, Event.released?]

theorem executed_map_releases : executed (ts.map .releases) = [] := by
  simp [executed, List.filterMap_map, Function.comp_def, Event.executed?]

theorem released_map_releases : released (ts.map .releases) = ts := by
  simp [released, List.filterMap_map, Function.comp_def, Event.released?]

theorem executed_events : executed r.events = [] := by
  rw [Release.events, executed_append, executed_map_releases]
  cases r.progress <;> rfl

theorem released_events : released r.events = r.tokens := by
  rw [Release.events, released_append, released_map_releases]
  cases r.progress <;> exact List.append_nil _

theorem asked_events : asked r.events = [] := by
  rw [Release.events, asked_append, asked_map_releases]
  cases r.progress <;> rfl

theorem asked_turn (ctx : Context) (stack : OperandStack) (t? : Option Token) :
    asked (turn ctx stack t? r) = [t?] := by
  show t? :: asked (r.events ++ _) = _
  rw [asked_append, asked_events, asked_map_executes, List.nil_append]

theorem executed_turn (ctx : Context) (stack : OperandStack) (t? : Option Token) :
    executed (turn ctx stack t? r) = begun ctx stack r.tokens := by
  rw [turn, executed_reads, executed_append, executed_events, executed_map_executes,
    List.nil_append]

theorem released_turn (ctx : Context) (stack : OperandStack) (t? : Option Token) :
    released (turn ctx stack t? r) = r.tokens := by
  rw [turn, released_reads, released_append, released_events, released_map_executes,
    List.append_nil]

end Projections

section Faithful

variable {ctx : Context} {past events front back : List Event} {event : Event}
  {stack s : OperandStack} {t? : Option Token} {ts waiting input : List Token} {r : Release}

theorem faithful_nil (ctx : Context) : Faithful ctx [] := by
  intro front event back h
  simp at h

theorem faithful_concat :
    Faithful ctx (events ++ [event]) ↔ Faithful ctx events ∧ Admits ctx events event :=
  forall_split_concat

theorem Faithful.left (h : Faithful ctx (front ++ back)) : Faithful ctx front := by
  intro earlier event later hfront
  refine h earlier event (later ++ back) ?_
  rw [hfront, List.append_assoc, List.cons_append]

/-- What is executed has been released, in the same order. -/
theorem Faithful.isPrefix_executed (h : Faithful ctx events) :
    executed events <+: released events := by
  induction events using List.reverseRecOn with
  | nil => exact List.prefix_rfl
  | append_singleton events event ih =>
    obtain ⟨hevents, hevent⟩ := faithful_concat.1 h
    rw [executed_append, released_append]
    cases event with
    | executes t =>
      show executed events ++ [t] <+: released events ++ []
      rw [List.append_nil]
      exact hevent.fits
    | releases t =>
      show executed events ++ [] <+: released events ++ [t]
      rw [List.append_nil]
      exact (ih hevents).trans (List.prefix_append _ [t])
    | reads | fails =>
      show executed events ++ [] <+: released events ++ []
      rw [List.append_nil, List.append_nil]
      exact ih hevents

/-- Behind what has been released, tokens are executed as far as none fails. -/
theorem Faithful.append_begun (h : Faithful ctx past)
    (hrun : executeTokens ctx [] (executed past) = .ok stack)
    (hreleased : released past = executed past ++ ts) :
    Faithful ctx (past ++ (begun ctx stack ts).map .executes) := by
  induction ts generalizing past stack with
  | nil =>
    rw [begun, List.map_nil, List.append_nil]
    exact h
  | cons t ts ih =>
    have hone : Faithful ctx (past ++ [.executes t]) := by
      refine faithful_concat.2 ⟨h, ⟨stack, hrun⟩, ?_⟩
      exact ⟨ts, by rw [hreleased, List.append_assoc, List.singleton_append]⟩
    have hexecuted : executed (past ++ [.executes t]) = executed past ++ [t] :=
      executed_append past [.executes t]
    have hreleased' : released (past ++ [.executes t]) = released past :=
      (released_append past [.executes t]).trans (List.append_nil _)
    rw [begun, List.map_cons, ← List.singleton_append, ← List.append_assoc]
    cases hstep : executeTokens ctx stack [t] with
    | error e =>
      rw [List.map_nil, List.append_nil]
      exact hone
    | ok next =>
      refine ih hone ?_ ?_
      · rw [hexecuted]
        exact (executeTokens_append_eq_ok_iff ctx).2 ⟨stack, hrun, hstep⟩
      · rw [hexecuted, hreleased', hreleased, List.append_assoc, List.singleton_append]

/-- The conversion speaks behind what it has read, and fails last. -/
theorem CaughtUp.append_events (h : CaughtUp ctx past stack) (t? : Option Token) (r : Release) :
    Faithful ctx (past ++ .reads t? :: r.events) := by
  have hread : Faithful ctx (past ++ [.reads t?]) :=
    faithful_concat.2 ⟨h.faithful, ⟨stack, h.running⟩, h.balanced, h.unfailed⟩
  have hexecuted : ∀ ts : List Token,
      executed (past ++ .reads t? :: ts.map .releases) = executed past := by
    intro ts
    rw [executed_append, executed_reads, executed_map_releases, List.append_nil]
  have hunfailed : ∀ ts : List Token, ∀ e, .fails e ∉ past ++ .reads t? :: ts.map .releases := by
    intro ts e
    simp [h.unfailed e]
  have hreleases : ∀ ts : List Token, Faithful ctx (past ++ .reads t? :: ts.map .releases) := by
    intro ts
    induction ts using List.reverseRecOn with
    | nil => exact hread
    | append_singleton ts t ih =>
      rw [List.map_append, ← List.cons_append, ← List.append_assoc]
      exact faithful_concat.2 ⟨ih, ⟨stack, by rw [hexecuted, h.running]⟩,
        ⟨past, t?, ts, rfl⟩, hunfailed ts⟩
  obtain ⟨ts, progress⟩ := r
  cases progress with
  | waiting | done =>
    rw [Release.events, List.append_nil]
    exact hreleases ts
  | failed e =>
    rw [Release.events, ← List.cons_append, ← List.append_assoc]
    exact faithful_concat.2 ⟨hreleases ts, ⟨stack, by rw [hexecuted, h.running]⟩,
      ⟨past, t?, ts, rfl⟩, hunfailed ts⟩

/-- What one token, or the end of the input, leads to. -/
theorem CaughtUp.faithful_turn (h : CaughtUp ctx past stack) (t? : Option Token) (r : Release) :
    Faithful ctx (past ++ turn ctx stack t? r) := by
  have hexecuted : executed (past ++ .reads t? :: r.events) = executed past := by
    rw [executed_append, executed_reads, executed_events, List.append_nil]
  have hreleased : released (past ++ .reads t? :: r.events) = released past ++ r.tokens := by
    rw [released_append, released_reads, released_events]
  rw [turn, ← List.cons_append, ← List.append_assoc]
  refine (h.append_events t? r).append_begun ?_ ?_
  · rw [hexecuted, h.running]
  · rw [hreleased, hexecuted, h.balanced]

/-- If nothing fails, the next token may be read. -/
theorem CaughtUp.append_turn (h : CaughtUp ctx past stack)
    (hrun : executeTokens ctx stack r.tokens = .ok s) (hprogress : r.progress = .waiting waiting) :
    CaughtUp ctx (past ++ turn ctx stack t? r) s := by
  have hexecuted : executed (past ++ turn ctx stack t? r) = executed past ++ r.tokens := by
    rw [executed_append, executed_turn, begun_of_ok hrun]
  refine ⟨h.faithful_turn t? r, ?_, ?_, fun e he => ?_⟩
  · rw [hexecuted, released_append, released_turn, h.balanced]
  · rw [hexecuted]
    exact (executeTokens_append_eq_ok_iff ctx).2 ⟨stack, h.running, hrun⟩
  · rw [turn, Release.events, hprogress] at he
    simp [h.unfailed e] at he

/-- A whole evaluation. -/
theorem CaughtUp.faithful_transcript (h : CaughtUp ctx past stack) (waiting input : List Token) :
    Faithful ctx (past ++ transcript ctx waiting stack input) := by
  induction input generalizing past stack waiting with
  | nil => exact h.faithful_turn none (convertEnd waiting)
  | cons t input ih =>
    rcases transcript_cons_cases ctx waiting stack t input with
      ⟨next, waiting', hrun, hprogress, heq⟩ | heq
    · rw [heq, ← List.append_assoc]
      exact ih (h.append_turn hrun hprogress) waiting'
    · rw [heq]
      exact h.faithful_turn (some t) _

theorem faithful_transcript (ctx : Context) (input : List Token) :
    Faithful ctx (transcript ctx [] [] input) :=
  CaughtUp.faithful_transcript ⟨faithful_nil ctx, rfl, rfl, fun _ => List.not_mem_nil⟩ [] input

end Faithful

/-! ## What can be told from the log -/

section Told

variable {ctx : Context} {expression : String} {stack s : OperandStack}
  {waiting input ts : List Token} {front back events : List Event} {t : Token} {e : EvalError}

theorem legal_of_executeTokens (h : executeTokens ctx stack ts = .ok s) : Legal ts := by
  induction ts generalizing stack with
  | nil => exact List.forall_mem_nil _
  | cons t ts ih =>
    obtain ⟨next, ht, hts⟩ := (executeTokens_cons_eq_ok_iff ctx).1 h
    refine List.forall_mem_cons.2 ⟨fun hk => ?_, ih hts⟩
    rw [executeTokens_illegal hk] at ht
    cases ht

theorem emitted_eq (events : List Event) :
    emitted events = (released events).filter (·.kind ≠ .illegal) := by
  rw [emitted, released, List.filter_filterMap]
  congr 1
  funext event
  cases event with
  | releases t =>
    by_cases hk : t.kind = .illegal <;>
      simp [Event.emitted?, Event.released?, Option.filter, hk]
  | reads | fails | executes => rfl

theorem emitted_of_legal (h : Legal (released events)) : emitted events = released events := by
  rw [emitted_eq]
  exact List.filter_eq_self.2 fun t ht => by simpa using h t ht

/-- The input is read in order. -/
theorem asked_transcript (ctx : Context) (waiting : List Token) (stack : OperandStack)
    (input : List Token) :
    asked (transcript ctx waiting stack input) <+: input.map some ++ [none] := by
  induction input generalizing waiting stack with
  | nil =>
    rw [transcript, asked_turn]
    exact List.prefix_rfl
  | cons t input ih =>
    rcases transcript_cons_cases ctx waiting stack t input with
      ⟨next, waiting', -, -, heq⟩ | heq
    · rw [heq, asked_append, asked_turn]
      exact (List.prefix_cons_inj (some t)).2 (ih waiting' next)
    · rw [heq, asked_turn]
      exact (List.prefix_cons_inj (some t)).2 List.nil_prefix

/-- What has been released is a first part of the output of the conversion. -/
theorem released_transcript (ctx : Context) (waiting : List Token) (stack : OperandStack)
    (input : List Token) :
    ∃ rest, itemsFrom ctx.operators waiting input
      = (released (transcript ctx waiting stack input)).map .ok ++ rest := by
  induction input generalizing waiting stack with
  | nil =>
    rw [transcript, released_turn, itemsFrom_nil]
    exact ⟨_, rfl⟩
  | cons t input ih =>
    rcases transcript_cons_cases ctx waiting stack t input with
      ⟨next, waiting', -, hprogress, heq⟩ | heq
    · obtain ⟨rest, hrest⟩ := ih waiting' next
      refine ⟨rest, ?_⟩
      rw [heq, itemsFrom_cons, items_of_waiting hprogress, hprogress, released_append,
        released_turn, List.map_append, List.append_assoc]
      exact congrArg _ hrest
    · rw [heq, itemsFrom_cons, released_turn, Release.items, List.append_assoc]
      exact ⟨_, rfl⟩

theorem of_runItems_eq_ok {r : Release} (h : (runItems ctx stack r.items).outcome = .ok s) :
    r.items = r.tokens.map .ok ∧ executeTokens ctx stack r.tokens = .ok s := by
  obtain ⟨ts, progress⟩ := r
  cases progress with
  | waiting | done =>
    rw [Release.items, List.append_nil, outcome_runItems_map_ok] at h
    exact ⟨List.append_nil _, h⟩
  | failed e =>
    rw [Release.items, outcome_runItems_append] at h
    cases hrun : (runItems ctx stack (ts.map .ok)).outcome <;> rw [hrun] at h <;> cases h

/-- If nothing fails, all that has been released has been executed, and it is all of the output. -/
theorem transcript_of_ok
    (h : (runItems ctx stack (itemsFrom ctx.operators waiting input)).outcome = .ok s) :
    executed (transcript ctx waiting stack input) = released (transcript ctx waiting stack input) ∧
      itemsFrom ctx.operators waiting input
        = (released (transcript ctx waiting stack input)).map .ok := by
  induction input generalizing waiting stack with
  | nil =>
    rw [itemsFrom_nil] at h
    obtain ⟨hitems, hrun⟩ := of_runItems_eq_ok h
    rw [transcript, executed_turn, released_turn, begun_of_ok hrun, itemsFrom_nil]
    exact ⟨rfl, hitems⟩
  | cons t input ih =>
    rw [itemsFrom_cons, outcome_runItems_append] at h
    cases hfirst : (runItems ctx stack (convertToken ctx.operators waiting t).items).outcome with
    | error e =>
      rw [hfirst] at h
      cases h
    | ok next =>
      obtain ⟨hitems, hrun⟩ := of_runItems_eq_ok hfirst
      rw [hfirst] at h
      rw [transcript, executed_append, released_append, executed_turn, released_turn,
        begun_of_ok hrun, itemsFrom_cons, List.map_append, hfirst, hitems]
      cases hp : (convertToken ctx.operators waiting t).progress with
      | waiting waiting' =>
        rw [hp] at h
        obtain ⟨hexecuted, hrest⟩ := ih h
        exact ⟨congrArg _ hexecuted, congrArg _ hrest⟩
      | done | failed => exact ⟨rfl, rfl⟩

/-- Behind a step that fails nothing happens, and its error is that of the evaluation. -/
theorem eval_of_failing_step
    (hevents : transcript ctx [] [] (tokenize expression) = front ++ .executes t :: back)
    (h : executeTokens ctx [] (executed front ++ [t]) = .error e) :
    back = [] ∧ eval ctx expression = .error e := by
  have hfaithful := faithful_transcript ctx (tokenize expression)
  constructor
  · cases back with
    | nil => rfl
    | cons event back =>
      obtain ⟨s, hs⟩ := (hfaithful (front ++ [.executes t]) event back (by simp [hevents])).runs
      rw [executed_append] at hs
      cases h.symm.trans hs
  · obtain ⟨later, hlater⟩ := (hfaithful front _ back hevents).fits
    obtain ⟨rest, hitems⟩ := released_transcript ctx [] [] (tokenize expression)
    rw [hevents, released_append, ← hlater] at hitems
    rw [eval_eq_valueOfItems, convertItems, ← itemsFrom, hitems, List.append_assoc, List.map_append,
      List.append_assoc, valueOfItems_append, outcome_runItems_map_ok, h]
    rfl

theorem level_of_mem_records {r : LogRecord} (h : r ∈ events.filterMap Event.record?) :
    r.level = "TRACE" := by
  obtain ⟨event, -, hr⟩ := List.mem_filterMap.1 h
  cases event with
  | reads => cases hr
  | releases t =>
    rw [Event.record?] at hr
    split at hr <;> cases hr
    rfl
  | fails | executes =>
    cases hr
    rfl

theorem records_evaluate (ctx : Context) (expression : String) :
    (evaluate ctx expression).records = .evaluating expression ::
      ((transcript ctx [] [] (tokenize expression)).filterMap Event.record?
        ++ failureRecords expression (eval ctx expression)) := by
  rw [← records_transcript]
  rfl

/-- A failure of the evaluation is recorded last, and only a failure. -/
theorem getLast?_records_evaluate :
    (evaluate ctx expression).records.getLast? = some (.evaluationFailed expression e) ↔
      eval ctx expression = .error e := by
  rw [records_evaluate]
  cases heval : eval ctx expression with
  | ok v =>
    refine ⟨fun h => ?_, fun h => by cases h⟩
    rw [failureRecords, List.append_nil] at h
    rcases List.mem_cons.1 (List.mem_of_getLast? h) with hfirst | htrace
    · cases hfirst
    · exact absurd (level_of_mem_records htrace) (by simp [LogRecord.level])
  | error e' =>
    rw [failureRecords, ← List.cons_append, List.getLast?_concat]
    constructor <;> rintro ⟨⟩ <;> rfl

/-- What has a value has been put out and executed as a whole. -/
theorem transcript_of_eval_ok {v : Value} (h : eval ctx expression = .ok v) :
    let events := transcript ctx [] [] (tokenize expression)
    executed events = released events ∧ Legal (executed events) ∧
      convertExpression ctx expression = .ok (executed events) := by
  intro events
  rw [eval_eq_valueOfItems, valueOfItems] at h
  cases hrun : (runItems ctx [] (convertItems ctx.operators (tokenize expression))).outcome with
  | error e =>
    rw [hrun] at h
    cases h
  | ok s =>
    obtain ⟨hexecuted, hitems⟩ := transcript_of_ok hrun
    have hlegal : Legal (executed events) := by
      rw [convertItems, ← itemsFrom, hitems, ← hexecuted, outcome_runItems_map_ok] at hrun
      exact legal_of_executeTokens hrun
    refine ⟨hexecuted, hlegal, ?_⟩
    rw [convertExpression, convertTokens, convertItems, ← itemsFrom, hitems, ← hexecuted]
    exact collect_map_ok hlegal

/-- **The log of an evaluation tells what happened, in the order in which it did.** It is that of a
loop which takes the items of the conversion one by one and executes each before the next. Between
the record that the evaluation begins and, if it fails, the record of its error stand the records of
what is released and executed. The input is read in order, and only when all that has been put out
has been executed; what the conversion then records stands right behind the point at which it has
read, with nothing executed in between, and after a failure it records nothing more. What is
executed has been put out before, in the same order, but for text that is no token, with which the
evaluation ends. Behind a step that fails nothing happens. If the evaluation has a value, all that
has been put out has been executed, and it is the expression in postfix order. -/
theorem evaluate_transcribes (ctx : Context) (expression : String) :
    let events := transcript ctx [] [] (tokenize expression)
    let log := (evaluate ctx expression).records
    let result := eval ctx expression
    let loop := (Conversion.start (tokenize expression)).perform ctx []
    (log = .evaluating expression :: (loop.records ++ failureRecords expression loop.outcome) ∧
      result = loop.outcome) ∧
    (log = .evaluating expression ::
        (events.filterMap Event.record? ++ failureRecords expression result) ∧
      (∀ r ∈ events.filterMap Event.record?, r.level = "TRACE") ∧
      ∀ e, log.getLast? = some (.evaluationFailed expression e) ↔ result = .error e) ∧
    (asked events <+: (tokenize expression).map some ++ [none] ∧
      (∀ front t? back, events = front ++ .reads t? :: back → executed front = emitted front) ∧
      (∀ front event back, events = front ++ event :: back → event.IsOfConversion →
        ∃ earlier t?, ∃ ts : List Token, front = earlier ++ .reads t? :: ts.map .releases) ∧
      ∀ front e back, events = front ++ .fails e :: back →
        ∀ event ∈ back, ∃ t, event = .executes t) ∧
    ((∀ front back, events = front ++ back →
        (executed front).filter (·.kind ≠ .illegal) <+: emitted front) ∧
      ∀ front t back, events = front ++ .executes t :: back →
        (t.kind = .illegal → back = []) ∧
        ∀ e, executeTokens ctx [] (executed front ++ [t]) = .error e →
          back = [] ∧ result = .error e) ∧
    ∀ v, result = .ok v → emitted events = executed events ∧
      convertExpression ctx expression = .ok (executed events) := by
  intro events log result loop
  have hfaithful : Faithful ctx events := faithful_transcript ctx (tokenize expression)
  have hloop : loop = runReleases ctx [] (releases ctx.operators [] (tokenize expression)) :=
    Conversion.perform_start ctx (tokenize expression)
  have hlog : log = .evaluating expression ::
      (loop.records ++ failureRecords expression loop.outcome) ∧ result = loop.outcome := by
    rw [hloop]
    exact ⟨rfl, rfl⟩
  refine ⟨hlog, ⟨records_evaluate ctx expression, fun r => level_of_mem_records,
    fun e => getLast?_records_evaluate⟩, ⟨asked_transcript ctx [] [] _, ?_, ?_, ?_⟩,
    ⟨?_, ?_⟩, ?_⟩
  · intro front t? back hevents
    obtain ⟨⟨s, hs⟩, hbalanced, -⟩ := hfaithful front _ back hevents
    -- all that is released in front of a reading has been executed, so it is legal
    rw [emitted_of_legal (hbalanced ▸ legal_of_executeTokens hs), hbalanced]
  · intro front event back hevents hconversion
    have hfits := (hfaithful front event back hevents).fits
    cases event with
    | releases | fails => exact hfits.1
    | reads | executes => cases hconversion
  · intro front e back hevents event hevent
    -- the event stands behind the failure, which only an execution fits
    obtain ⟨earlier, later, rfl⟩ := List.append_of_mem hevent
    have hfits := (hfaithful (front ++ .fails e :: earlier) event later (by simp [hevents])).fits
    have hfailed : .fails e ∈ front ++ .fails e :: earlier := by simp
    cases event with
    | executes t => exact ⟨t, rfl⟩
    | reads | releases | fails => exact absurd hfailed (hfits.2 e)
  · intro front back hevents
    rw [emitted_eq]
    exact (Faithful.left (hevents ▸ hfaithful)).isPrefix_executed.filter _
  · intro front t back hevents
    refine ⟨fun hk => ?_, fun e => eval_of_failing_step hevents⟩
    obtain ⟨s, hs⟩ := (hfaithful front _ back hevents).runs
    have hfail : executeTokens ctx [] (executed front ++ [t]) = .error (illegalToken t) := by
      rw [executeTokens_append, hs]
      exact executeTokens_illegal hk
    exact (eval_of_failing_step hevents hfail).1
  · intro v hv
    obtain ⟨hexecuted, hlegal, hconvert⟩ := transcript_of_eval_ok hv
    exact ⟨(emitted_of_legal (hexecuted ▸ hlegal)).trans hexecuted.symm, hconvert⟩

/-- In `1 + 2)` the bracket puts out the sum and fails, and then the sum is executed. -/
theorem evaluate_transcribes_unpaired :
    let events := transcript .default [] [] (tokenize "1 + 2)")
    let log := (evaluate .default "1 + 2)").records
    let sum : Token := ⟨.operator, "+", 2⟩
    let bracket : Token := ⟨.closeParen, ")", 5⟩
    log.map LogRecord.line =
      ["DEBUG evaluating '1 + 2)'", "TRACE postfix <- Integer '1'", "TRACE execute Integer '1'",
        "TRACE postfix <- Integer '2'", "TRACE execute Integer '2'",
        "TRACE postfix <- Operator '+'",
        "TRACE conversion failed: Unmatched parenthesis at position 5: found ')'",
        "TRACE execute Operator '+'",
        "DEBUG evaluation of '1 + 2)' failed: Unmatched parenthesis at position 5: found ')'"] ∧
    events = events.take 7
      ++ [.reads (some bracket), .releases sum, .fails (unpaired bracket), .executes sum] ∧
    executed (events.take 7) = emitted (events.take 7) ∧
    eval .default "1 + 2)" = .error (unpaired bracket) := by
  intro events log sum bracket
  obtain ⟨-, ⟨-, -, hlast⟩, ⟨-, hread, -⟩, -⟩ := evaluate_transcribes .default "1 + 2)"
  have hevents : events = events.take 7
      ++ [.reads (some bracket), .releases sum, .fails (unpaired bracket), .executes sum] := by
    decide +kernel
  exact ⟨by decide +kernel, hevents, hread _ _ _ hevents, (hlast _).1 (by decide +kernel)⟩

end Told

end Formula
