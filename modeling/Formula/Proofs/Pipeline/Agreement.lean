import Formula.Proofs.Pipeline.Schedule
import Formula.Proofs.Postfix.Failure

/-!
# All schedules come to the same outcome

Each party may be ahead of the next one by what fits into a channel, and may stop early. The outcome
is that of an evaluation without parties all the same.

* `Pipeline.unread`: the tokens that have not been converted, be they in the channel or still to be
  lexed. `Pipeline.pendingItems`: the items that have not been executed.
* `Pipeline.forecast`: what executing all of these comes to. `forecast_of_step?`: no step changes
  it.
* `Pipeline.eval_eq`: the outcome of the run in which the party furthest down goes first.
* `outcome_of_follow?`: the outcome of any schedule.
-/

namespace Formula

namespace Pipeline

/-- The tokens that the converter has not received. -/
def unread (s : Pipeline) : List Token :=
  s.tokens ++ match s.lexer with
    | .working l => l.tokens
    | .stopped _ => []

/-- The items that the executor has not received. -/
def pendingItems (ctx : Context) (s : Pipeline) : List Item :=
  s.items ++ match s.converter with
    | .working c => Conversion.pending ctx.operators ⟨s.unread, c⟩
    | .stopped _ => []

/-- What the executor comes to: what it has come to if it has stopped, and otherwise what executing
all items comes to that it has not received. -/
def forecast (ctx : Context) (s : Pipeline) : Except EvalError Value :=
  match s.executor with
  | .working stack =>
    (runItems ctx stack (s.pendingItems ctx)).outcome >>= OperandStack.result
  | .stopped outcome => outcome

section Forecast

variable {ctx : Context} {s s' : Pipeline}

theorem forecast_start (ctx : Context) (expression : String) :
    (start expression).forecast ctx = Formula.eval ctx expression := by
  rw [eval_eq_valueOfItems, ← Conversion.pending_start]
  rfl

theorem forecast_stopped {outcome : Except EvalError Value} (h : s.executor = .stopped outcome) :
    s.forecast ctx = outcome := by
  simp only [forecast, h]

/-- Only the items that are still to come count. -/
theorem forecast_congr (he : s'.executor = s.executor)
    (hitems : s'.pendingItems ctx = s.pendingItems ctx) : s'.forecast ctx = s.forecast ctx := by
  rw [forecast, forecast, he, hitems]

theorem pendingItems_congr (hi : s'.items = s.items) (hc : s'.converter = s.converter)
    (hunread : s'.unread = s.unread) : s'.pendingItems ctx = s.pendingItems ctx := by
  rw [pendingItems, pendingItems, hi, hc, hunread]

theorem pendingItems_of_stopped (hc : s.converter = .stopped ()) :
    s.pendingItems ctx = s.items := by
  simp only [pendingItems, hc, List.append_nil]

/-- **No step changes the forecast**, whoever takes it. -/
theorem forecast_of_step? {p : Party} (h : step? ctx p s = some s') :
    s'.forecast ctx = s.forecast ctx := by
  cases step?_eq_some_iff.1 h with
  | @sendToken l l' c t hl hc hn _ =>
    refine forecast_congr rfl (pendingItems_congr rfl rfl ?_)
    simp only [unread, hl, Lexer.tokens_of_next hn, List.append_assoc, List.singleton_append]
  | @closeTokens l l' hl hn =>
    refine forecast_congr rfl (pendingItems_congr rfl rfl ?_)
    simp only [unread, hl, Lexer.tokens_of_next_none hn]
  -- What is left behind does not count, since its receiver has stopped.
  | abandonTokens hl hc =>
    refine forecast_congr rfl ?_
    exact Eq.trans (pendingItems_of_stopped hc) (pendingItems_of_stopped hc).symm
  | sendItem hc he _ =>
    refine forecast_congr rfl ?_
    simp only [pendingItems, unread, hc, Conversion.pending, List.append_assoc, List.cons_append,
      List.nil_append]
  | abandonItems hc he => exact Eq.trans (forecast_stopped he) (forecast_stopped he).symm
  | receiveToken hc hh ht =>
    refine forecast_congr rfl ?_
    simp only [pendingItems, unread, hc, ht, List.cons_append,
      Conversion.pending_accept_some ctx.operators hh]
  | receiveEnd hc hh ht hl =>
    refine forecast_congr rfl ?_
    simp only [pendingItems, unread, hc, ht, hl, List.append_nil,
      Conversion.pending_accept_none ctx.operators hh]
  | @closeItems c hc hq hh =>
    refine forecast_congr rfl ?_
    have hover : Conversion.pending ctx.operators ⟨s.unread, c⟩ = [] := by
      obtain ⟨progress, queue⟩ := c
      cases hq
      cases progress <;> simp_all [Conversion.pending, Converter.hungry]
    simp only [pendingItems, hc, hover]
  | execute he hi hrun =>
    simp only [forecast, pendingItems, he, hi, List.cons_append, outcome_runItems_cons, hrun]
    rfl
  | fail he hi hrun =>
    simp only [forecast, pendingItems, he, hi, List.cons_append, outcome_runItems_cons, hrun]
    rfl
  | finish he hi hc =>
    simp only [forecast, pendingItems, he, hi, hc]
    rfl

theorem forecast_of_follow? {schedule : List Party} (h : follow? ctx schedule s = some s') :
    s'.forecast ctx = s.forecast ctx :=
  follow?_induction (P := fun t => t.forecast ctx = s.forecast ctx)
    (fun hstep ht => (forecast_of_step? hstep).trans ht) h rfl

end Forecast

section Outcome

variable {ctx : Context} {expression : String} {schedule : List Party} {s : Pipeline}
  {outcome : Except EvalError Value}

theorem eq_eval_of_follow? (h : follow? ctx schedule (start expression) = some s)
    (hs : s.executor = .stopped outcome) : outcome = Formula.eval ctx expression := by
  have hforecast := forecast_of_follow? h
  rwa [forecast_stopped hs, forecast_start] at hforecast

/-- The three parties come to the value of the expression. -/
theorem eval_eq (ctx : Context) (expression : String) :
    eval ctx expression = Formula.eval ctx expression := by
  obtain ⟨hover, schedule, hrun⟩ := exists_follow?_run ctx (start expression)
  simp only [isOver, Bool.and_eq_true] at hover
  obtain ⟨outcome, hs⟩ := Phase.exists_stopped hover.2
  rw [eval, hs]
  exact eq_eval_of_follow? hrun hs

/-- **Whatever the schedule, the executor stops with the outcome of the expression**, be it a value
or an error. A failure of a party is not among the errors: a failure of host code is reported only
if the context raises it. -/
theorem outcome_of_follow? (h : follow? ctx schedule (start expression) = some s)
    (hs : s.executor = .stopped outcome) :
    outcome = Formula.eval ctx expression ∧ outcome = eval ctx expression ∧
      ∀ text, outcome = .error (.other text) → ctx.Raises (.other text) := by
  have heval := eq_eval_of_follow? h hs
  refine ⟨heval, heval.trans (eval_eq ctx expression).symm, fun text htext => ?_⟩
  exact eval_failsWith expression _ (heval.symm.trans htext) text rfl

/-- The lexer and the converter are done before the executor begins. The error of the conversion is
left behind in its channel, because the division fails first. -/
theorem outcome_of_follow?_leftover :
    let expression := "1/0)"
    let schedule := List.replicate 6 Party.lexer ++ List.replicate 9 .converter
      ++ List.replicate 3 .executor
    ∃ s outcome, follow? .default schedule (start expression) = some s ∧
      s.executor = .stopped outcome ∧ s.items.length = 1 ∧
      outcome = Formula.eval .default expression := by
  intro expression schedule
  have hrun : ((follow? .default schedule (start expression)).filter fun s =>
      s.executor.isStopped ∧ s.items.length = 1).isSome = true := by
    decide +kernel
  obtain ⟨s, hs⟩ := Option.isSome_iff_exists.1 hrun
  obtain ⟨hs, hstopped⟩ := Option.filter_eq_some_iff.1 hs
  obtain ⟨hstopped, hitems⟩ := of_decide_eq_true hstopped
  obtain ⟨outcome, hstopped⟩ := Phase.exists_stopped hstopped
  exact ⟨s, outcome, hs, hstopped, hitems, (outcome_of_follow? hs hstopped).1⟩

end Outcome

end Pipeline

end Formula
