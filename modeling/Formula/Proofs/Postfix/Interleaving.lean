import Formula.Evaluator

/-!
# Evaluation is conversion followed by execution

`eval` executes what a token of the expression releases before it reads the next one. The value is
that of the whole output of the conversion, executed afterwards, and of two errors the one that
comes first in this output wins.

* `executeTokens ctx stack ts`: the stack behind tokens in postfix order, or the error of the first
  one that fails. It is the run of a list of items without errors (`outcome_runItems_map_ok`).
* `tokensBeforeError items`: what a conversion puts out before its error.
* `eval_eq_valueOfItems`: turns do not matter.
* `eval_of_convertExpression`: evaluation in terms of `convertExpression` and `valueOfTokens`.
-/

namespace Formula

/-- The outcome of two computations in a row. -/
theorem Logged.outcome_bind {α β : Type} (x : Logged α) (f : α → Logged β) :
    (x >>= f).outcome = x.outcome >>= fun a => (f a).outcome := by
  obtain ⟨records, outcome⟩ := x
  cases outcome with
  | error e => rw [Logged.bind_error]; rfl
  | ok a => rw [Logged.bind_ok]; rfl

/-- The stack behind tokens in postfix order, executed one after the other, or the error of the
first one that fails. -/
def executeTokens (ctx : Context) : OperandStack → List Token → Except EvalError OperandStack
  | stack, [] => .ok stack
  | stack, t :: ts =>
    match (executeToken ctx t).run.run stack with
    | (.ok (), stack) => executeTokens ctx stack ts
    | (.error e, _) => .error e

/-- The tokens of an output in front of the first error; text that is no token is one. -/
def tokensBeforeError : List Item → List Token
  | [] => []
  | .error _ :: _ => []
  | .ok t :: items => if t.kind = .illegal then [] else t :: tokensBeforeError items

section Runs

variable (ctx : Context)

theorem executeTokens_cons_ok {t : Token} {stack stack' : OperandStack}
    (h : (executeToken ctx t).run.run stack = (.ok (), stack')) (ts : List Token) :
    executeTokens ctx stack (t :: ts) = executeTokens ctx stack' ts := by
  simp only [executeTokens, h]

theorem executeTokens_cons_error {t : Token} {stack stack' : OperandStack} {e : EvalError}
    (h : (executeToken ctx t).run.run stack = (.error e, stack')) (ts : List Token) :
    executeTokens ctx stack (t :: ts) = .error e := by
  simp only [executeTokens, h]

theorem executeTokens_append (stack : OperandStack) (ts us : List Token) :
    executeTokens ctx stack (ts ++ us)
      = executeTokens ctx stack ts >>= fun stack => executeTokens ctx stack us := by
  induction ts generalizing stack with
  | nil => rfl
  | cons t ts ih =>
    rw [List.cons_append]
    rcases h : (executeToken ctx t).run.run stack with ⟨e | ⟨⟩, stack'⟩
    · rw [executeTokens_cons_error ctx h, executeTokens_cons_error ctx h]
      rfl
    · rw [executeTokens_cons_ok ctx h, executeTokens_cons_ok ctx h, ih]

theorem executeTokens_cons (stack : OperandStack) (t : Token) (ts : List Token) :
    executeTokens ctx stack (t :: ts)
      = executeTokens ctx stack [t] >>= fun stack => executeTokens ctx stack ts :=
  executeTokens_append ctx stack [t] ts

theorem executeTokens_append_eq_ok_iff {stack s : OperandStack} {ts us : List Token} :
    executeTokens ctx stack (ts ++ us) = .ok s ↔
      ∃ next, executeTokens ctx stack ts = .ok next ∧ executeTokens ctx next us = .ok s := by
  rw [executeTokens_append]
  cases executeTokens ctx stack ts <;> simp [bind, Except.bind]

theorem executeTokens_cons_eq_ok_iff {stack s : OperandStack} {t : Token} {ts : List Token} :
    executeTokens ctx stack (t :: ts) = .ok s ↔
      ∃ next, executeTokens ctx stack [t] = .ok next ∧ executeTokens ctx next ts = .ok s := by
  rw [← executeTokens_append_eq_ok_iff, List.singleton_append]

theorem outcome_runItem_ok (stack : OperandStack) (t : Token) :
    (runItem ctx stack (.ok t)).outcome = executeTokens ctx stack [t] := by
  rcases h : (executeToken ctx t).run.run stack with ⟨e | ⟨⟩, stack'⟩ <;>
    simp only [runItem, executeTokens, h]

/-- Text that is no token fails when it is executed, with its diagnosis. -/
theorem outcome_runItem_illegal (stack : OperandStack) {t : Token} (h : t.kind = .illegal) :
    (runItem ctx stack (.ok t)).outcome = .error (illegalToken t) := by
  simp only [runItem, executeToken, h]
  rfl

theorem outcome_runItems_cons (stack : OperandStack) (item : Item) (items : List Item) :
    (runItems ctx stack (item :: items)).outcome
      = (runItem ctx stack item).outcome >>= fun stack => (runItems ctx stack items).outcome := by
  rw [runItems, Logged.outcome_bind]

theorem outcome_runItems_append (stack : OperandStack) (items items' : List Item) :
    (runItems ctx stack (items ++ items')).outcome
      = (runItems ctx stack items).outcome
          >>= fun stack => (runItems ctx stack items').outcome := by
  induction items generalizing stack with
  | nil => rfl
  | cons item items ih =>
    rw [List.cons_append, outcome_runItems_cons, outcome_runItems_cons]
    cases (runItem ctx stack item).outcome with
    | error e => rfl
    | ok stack' => exact ih stack'

theorem outcome_runItems_map_ok (stack : OperandStack) (ts : List Token) :
    (runItems ctx stack (ts.map .ok)).outcome = executeTokens ctx stack ts := by
  induction ts generalizing stack with
  | nil => rfl
  | cons t ts ih =>
    rw [List.map_cons, outcome_runItems_cons, outcome_runItem_ok]
    simp only [ih]
    exact (executeTokens_cons ctx stack t ts).symm

/-- Releases that are executed in turn come to the same as their output executed at once. -/
theorem outcome_runReleases (stack : OperandStack) (rs : List Release) :
    (runReleases ctx stack rs).outcome
      = (runItems ctx stack (rs.flatMap Release.items)).outcome >>= OperandStack.result := by
  induction rs generalizing stack with
  | nil => rfl
  | cons r rs ih =>
    rw [runReleases, Logged.outcome_bind, List.flatMap_cons, outcome_runItems_append]
    show (runItems ctx stack r.items >>= fun stack => runReleases ctx stack rs).outcome = _
    rw [Logged.outcome_bind]
    cases (runItems ctx stack r.items).outcome with
    | error e => rfl
    | ok stack' => exact ih stack'

theorem valueOfItems_append (items items' : List Item) :
    valueOfItems ctx (items ++ items')
      = (runItems ctx [] items).outcome
          >>= fun stack => (runItems ctx stack items').outcome >>= OperandStack.result := by
  rw [valueOfItems, outcome_runItems_append]
  cases (runItems ctx [] items).outcome <;> rfl

theorem valueOfTokens_eq (ts : List Token) :
    valueOfTokens ctx ts = executeTokens ctx [] ts >>= OperandStack.result := by
  rw [valueOfTokens, valueOfItems, outcome_runItems_map_ok]

/-- Tokens have a value if they leave one operand. -/
theorem valueOfTokens_eq_ok_iff {ts : List Token} {v : Value} :
    valueOfTokens ctx ts = .ok v ↔
      ∃ x : Operand, executeTokens ctx [] ts = .ok [x] ∧ x.value = v := by
  rw [valueOfTokens_eq]
  cases executeTokens ctx [] ts <;>
    simp [bind, Except.bind, OperandStack.result_eq_ok_iff]

/-- The value of an expression is that of the items of its conversion. -/
theorem eval_eq_valueOfItems (expression : String) :
    eval ctx expression = valueOfItems ctx (convertItems ctx.operators (tokenize expression)) :=
  outcome_runReleases ctx [] _

end Runs

/-! ## The output of a conversion -/

theorem collect_eq_ok {items : List Item} {ts : List Token} (h : collect items = .ok ts) :
    items = ts.map .ok := by
  induction items generalizing ts with
  | nil =>
    simp only [collect, Except.ok.injEq] at h
    simp [← h]
  | cons item items ih =>
    cases item with
    | error e => simp [collect] at h
    | ok t =>
      rw [collect] at h
      split at h
      · simp at h
      · cases hc : collect items with
        | error e => rw [hc] at h; cases h
        | ok us =>
          rw [hc] at h
          cases h
          rw [List.map_cons, ih hc]

/-- An output without a list of tokens breaks off: at its error, or at text that is no token. -/
theorem collect_eq_error {items : List Item} {e : EvalError} (h : collect items = .error e) :
    ∃ item rest, items = (tokensBeforeError items).map .ok ++ item :: rest ∧
      (item = .error e ∨ ∃ t : Token, item = .ok t ∧ t.kind = .illegal ∧ e = illegalToken t) := by
  induction items with
  | nil => simp [collect] at h
  | cons item items ih =>
    cases item with
    | error e' =>
      simp only [collect, Except.error.injEq] at h
      exact ⟨.error e', items, rfl, .inl (by rw [h])⟩
    | ok t =>
      rw [collect] at h
      by_cases ht : t.kind = .illegal
      · rw [if_pos ht] at h
        cases h
        exact ⟨.ok t, items, by simp [tokensBeforeError, ht], .inr ⟨t, rfl, ht, rfl⟩⟩
      · rw [if_neg ht] at h
        cases hc : collect items with
        | ok us => rw [hc] at h; cases h
        | error e' =>
          rw [hc] at h
          cases h
          obtain ⟨item, rest, hitems, hitem⟩ := ih hc
          refine ⟨item, rest, ?_, hitem⟩
          rw [tokensBeforeError, if_neg ht, List.map_cons, List.cons_append, ← hitems]

/-- The value of an output that breaks off: what was put out before is executed, and if this does
not fail the error of the conversion is left. -/
theorem valueOfItems_of_collect_error (ctx : Context) {items : List Item} {e : EvalError}
    (h : collect items = .error e) :
    valueOfItems ctx items
      = executeTokens ctx [] (tokensBeforeError items) >>= fun _ => .error e := by
  obtain ⟨item, rest, hitems, hitem⟩ := collect_eq_error h
  -- whatever has been computed by then, the defect is met
  have hstop : ∀ stack, (runItems ctx stack (item :: rest)).outcome = .error e := by
    intro stack
    rw [outcome_runItems_cons]
    rcases hitem with rfl | ⟨t, rfl, ht, rfl⟩
    · rfl
    · rw [outcome_runItem_illegal ctx stack ht]
      rfl
  conv => lhs; rw [hitems]
  rw [valueOfItems_append, outcome_runItems_map_ok]
  simp only [hstop]
  rfl

/-! ## Evaluation -/

section Evaluation

variable {ctx : Context} {expression : String}

theorem eval_eq_of_convertExpression_ok {ts : List Token}
    (h : convertExpression ctx expression = .ok ts) :
    eval ctx expression = valueOfTokens ctx ts := by
  rw [eval_eq_valueOfItems, collect_eq_ok h, valueOfTokens]

theorem eval_eq_of_convertExpression_error {e : EvalError}
    (h : convertExpression ctx expression = .error e) :
    eval ctx expression
      = executeTokens ctx []
          (tokensBeforeError (convertItems ctx.operators (tokenize expression)))
        >>= fun _ => .error e := by
  rw [eval_eq_valueOfItems, valueOfItems_of_collect_error ctx h]

end Evaluation

/-- **Evaluation agrees with converting first and executing then.** If the conversion succeeds, the
tokens it gives have the value, or the error, of the expression. If it fails, so does the
evaluation: with the error of the first of the tokens put out before that fails in execution, and
with the error of the conversion if there is none. So a value comes out exactly if the conversion
succeeds and its tokens have this value. -/
theorem eval_of_convertExpression (ctx : Context) (expression : String) :
    (∀ ts, convertExpression ctx expression = .ok ts →
      eval ctx expression = valueOfTokens ctx ts) ∧
    (∀ e, convertExpression ctx expression = .error e →
      eval ctx expression = .error
        (match executeTokens ctx []
            (tokensBeforeError (convertItems ctx.operators (tokenize expression))) with
          | .error failure => failure
          | .ok _ => e)) ∧
    (∀ v, eval ctx expression = .ok v ↔
      ∃ ts, convertExpression ctx expression = .ok ts ∧ valueOfTokens ctx ts = .ok v) := by
  have hok : ∀ ts, convertExpression ctx expression = .ok ts →
      eval ctx expression = valueOfTokens ctx ts := fun ts => eval_eq_of_convertExpression_ok
  have herror : ∀ e, convertExpression ctx expression = .error e →
      eval ctx expression = .error
        (match executeTokens ctx []
            (tokensBeforeError (convertItems ctx.operators (tokenize expression))) with
          | .error failure => failure
          | .ok _ => e) := by
    intro e h
    rw [eval_eq_of_convertExpression_error h]
    cases executeTokens ctx []
      (tokensBeforeError (convertItems ctx.operators (tokenize expression))) <;> rfl
  refine ⟨hok, herror, fun v => ⟨fun h => ?_, ?_⟩⟩
  · cases hc : convertExpression ctx expression with
    | ok ts => exact ⟨ts, rfl, by rw [← hok ts hc, h]⟩
    | error e => rw [herror e hc] at h; cases h
  · rintro ⟨ts, hc, hv⟩
    rw [hok ts hc, hv]

end Formula
