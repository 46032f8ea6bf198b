import Formula.Proofs.Postfix.Interleaving

/-!
# What one token does to a stack

There is one lemma for each way in which a token in postfix order can go, in any context.

* `pushed`: an operand on top of a stack, if there is room for it.
* `run_executeToken_literal`, `run_executeToken_operator`, ..: the run of a token, with the stack
  that it leaves, also behind an error.
* `executeTokens_literal`, `executeTokens_operator`, `executeTokens_function`: tokens that push an
  operand if nothing fails.
* `executeTokens_endOfInput`: the token that does nothing.
* `executeTokens_undefinedOperator`, `executeTokens_tooFewOperands`,
  `executeTokens_unknownFunction`, `executeTokens_illegal`, `executeTokens_structural`: tokens that
  are rejected.
-/

namespace Formula

/-- An operand on top of a stack, if there is room for it. -/
def pushed (s : OperandStack) (x : Operand) : Except EvalError OperandStack :=
  if stackCapacity ≤ s.length then .error (.capacityExceeded .operandStack) else .ok (x :: s)

theorem pushed_eq_ok_iff {s s' : OperandStack} {x : Operand} :
    pushed s x = .ok s' ↔ s.length < stackCapacity ∧ s' = x :: s := by
  unfold pushed
  split
  · next hfull => simp [Nat.not_lt.2 hfull]
  · next hroom => simp [Nat.not_le.1 hroom, eq_comm]

theorem pushed_eq_error_iff {s : OperandStack} {x : Operand} {e : EvalError} :
    pushed s x = .error e ↔ stackCapacity ≤ s.length ∧ e = .capacityExceeded .operandStack := by
  unfold pushed
  split
  · next hfull => simp [hfull, eq_comm]
  · next hroom => simp [hroom]

section Tokens

variable {ctx : Context} {t : Token} {s stack : OperandStack} {e : EvalError}

/-! ## The stack afterwards -/

theorem executeToken_of_isLiteral (h : t.isLiteral = true) :
    executeToken ctx t = (do push (← Operand.ofLiteral t)) := by
  simp only [Token.isLiteral, Bool.or_eq_true, beq_iff_eq] at h
  rcases h with (h | h) | h <;> simp only [executeToken, h]

theorem run_executeToken_literal {x : Operand} (h : t.isLiteral = true)
    (hx : Operand.ofLiteral t = .ok x) :
    (executeToken ctx t).run.run s = (push x).run.run s := by
  rw [executeToken_of_isLiteral h, hx]
  rfl

theorem run_executeToken_invalidLiteral (h : t.isLiteral = true)
    (hx : Operand.ofLiteral t = .error e) :
    (executeToken ctx t).run.run s = (.error e, s) := by
  rw [executeToken_of_isLiteral h, hx]
  rfl

/-- An operator that has its operands is applied, and the result is pushed. -/
theorem run_executeToken_operator {spec : Operator} (hk : t.kind = .operator)
    (hfind : ctx.operator? t.text = some spec) (harity : spec.arity ≤ stack.length) :
    (executeToken ctx t).run.run stack
      = (do let v ← spec.apply t; push (.ofResult v t.position) : StackM Unit).run.run stack := by
  simp only [executeToken, hk, applyOperator, hfind]
  show (if stack.length < spec.arity then _ else _ : StackM Unit).run.run stack = _
  rw [if_neg (Nat.not_lt.2 harity)]

theorem run_executeToken_function {spec : Callable} (hk : t.kind = .identifier)
    (hfind : ctx.function? t.text = some spec) :
    (executeToken ctx t).run.run stack
      = (do let v ← spec.apply t; push (.ofResult v t.position) : StackM Unit).run.run stack := by
  simp only [executeToken, hk, applyFunction, hfind]

theorem run_apply_ok {apply : Operation} {v : Value} (h : (apply t).run.run stack = (.ok v, s)) :
    (do let v ← apply t; push (.ofResult v t.position) : StackM Unit).run.run stack
      = (push (.ofResult v t.position)).run.run s := by
  simp only [ExceptT.run_bind, StateT.run_bind, h]
  rfl

/-- What is applied fails, and the stack stays as it then is. -/
theorem run_apply_error {apply : Operation} (h : (apply t).run.run stack = (.error e, s)) :
    (do let v ← apply t; push (.ofResult v t.position) : StackM Unit).run.run stack
      = (.error e, s) := by
  simp only [ExceptT.run_bind, StateT.run_bind, h]
  rfl

theorem run_executeToken_undefinedOperator (hk : t.kind = .operator)
    (hfind : ctx.operator? t.text = none) :
    (executeToken ctx t).run.run s = (.error (undefinedOperator t), s) := by
  simp only [executeToken, hk, applyOperator, hfind]
  rfl

theorem run_executeToken_tooFewOperands {spec : Operator} (hk : t.kind = .operator)
    (hfind : ctx.operator? t.text = some spec) (harity : s.length < spec.arity) :
    (executeToken ctx t).run.run s = (.error
      (.malformedExpression (some t.position) (.tooFewOperands t.text spec.arity s.length)),
        s) := by
  simp only [executeToken, hk, applyOperator, hfind]
  show (if s.length < spec.arity then _ else _ : StackM Unit).run.run s = _
  rw [if_pos harity]
  rfl

theorem run_executeToken_unknownFunction (hk : t.kind = .identifier)
    (hfind : ctx.function? t.text = none) :
    (executeToken ctx t).run.run s = (.error (.unknownFunction t.text t.position), s) := by
  simp only [executeToken, hk, applyFunction, hfind]
  rfl

theorem run_executeToken_endOfInput (hk : t.kind = .endOfInput) :
    (executeToken ctx t).run.run s = (.ok (), s) := by
  simp only [executeToken, hk]
  rfl

theorem run_executeToken_illegal (hk : t.kind = .illegal) :
    (executeToken ctx t).run.run s = (.error (illegalToken t), s) := by
  simp only [executeToken, hk]
  rfl

theorem run_executeToken_structural
    (hk : t.kind = .openParen ∨ t.kind = .closeParen ∨ t.kind = .separator) :
    (executeToken ctx t).run.run s
      = (.error (.syntaxError t.position (.structural t.text)), s) := by
  rcases hk with hk | hk | hk <;>
    (simp only [executeToken, hk]
     rfl)

/-! ## Tokens that push an operand -/

theorem executeTokens_singleton {x : Operand}
    (h : (executeToken ctx t).run.run stack = (push x).run.run s) :
    executeTokens ctx stack [t] = pushed s x := by
  rw [executeTokens, h, pushed]
  by_cases hfull : stackCapacity ≤ s.length
  · rw [run_push_full hfull, if_pos hfull]
  · rw [run_push (Nat.not_le.1 hfull), if_neg hfull]
    rfl

theorem executeTokens_literal (h : t.isLiteral = true) :
    executeTokens ctx s [t] = Operand.ofLiteral t >>= pushed s := by
  cases hx : Operand.ofLiteral t with
  | error e => exact executeTokens_cons_error ctx (run_executeToken_invalidLiteral h hx) []
  | ok x => exact executeTokens_singleton (run_executeToken_literal h hx)

/-- A result is pushed where the operands have been taken. -/
theorem executeTokens_apply {apply : Operation} {result : Except EvalError Value}
    (hrun : (executeToken ctx t).run.run stack
      = (do let v ← apply t; push (.ofResult v t.position) : StackM Unit).run.run stack)
    (happly : (apply t).run.run stack = (result, s)) :
    executeTokens ctx stack [t] = result >>= fun v => pushed s (.ofResult v t.position) := by
  cases result with
  | error e => exact executeTokens_cons_error ctx (hrun.trans (run_apply_error happly)) []
  | ok v => exact executeTokens_singleton (hrun.trans (run_apply_ok happly))

theorem executeTokens_operator {spec : Operator} {result : Except EvalError Value}
    (hk : t.kind = .operator) (hfind : ctx.operator? t.text = some spec)
    (harity : spec.arity ≤ stack.length) (happly : (spec.apply t).run.run stack = (result, s)) :
    executeTokens ctx stack [t] = result >>= fun v => pushed s (.ofResult v t.position) :=
  executeTokens_apply (run_executeToken_operator hk hfind harity) happly

theorem executeTokens_function {spec : Callable} {result : Except EvalError Value}
    (hk : t.kind = .identifier) (hfind : ctx.function? t.text = some spec)
    (happly : (spec.apply t).run.run stack = (result, s)) :
    executeTokens ctx stack [t] = result >>= fun v => pushed s (.ofResult v t.position) :=
  executeTokens_apply (run_executeToken_function hk hfind) happly

/-! ## Tokens that push nothing -/

theorem executeTokens_endOfInput (hk : t.kind = .endOfInput) :
    executeTokens ctx s [t] = .ok s :=
  executeTokens_cons_ok ctx (run_executeToken_endOfInput hk) []

/-- A token that is rejected before it takes anything. -/
theorem executeTokens_rejected (hrun : (executeToken ctx t).run.run s = (.error e, s)) :
    executeTokens ctx s [t] = .error e :=
  executeTokens_cons_error ctx hrun []

theorem executeTokens_undefinedOperator (hk : t.kind = .operator)
    (hfind : ctx.operator? t.text = none) :
    executeTokens ctx s [t] = .error (undefinedOperator t) :=
  executeTokens_rejected (run_executeToken_undefinedOperator hk hfind)

theorem executeTokens_tooFewOperands {spec : Operator} (hk : t.kind = .operator)
    (hfind : ctx.operator? t.text = some spec) (harity : s.length < spec.arity) :
    executeTokens ctx s [t] = .error
      (.malformedExpression (some t.position) (.tooFewOperands t.text spec.arity s.length)) :=
  executeTokens_rejected (run_executeToken_tooFewOperands hk hfind harity)

theorem executeTokens_unknownFunction (hk : t.kind = .identifier)
    (hfind : ctx.function? t.text = none) :
    executeTokens ctx s [t] = .error (.unknownFunction t.text t.position) :=
  executeTokens_rejected (run_executeToken_unknownFunction hk hfind)

theorem executeTokens_illegal (hk : t.kind = .illegal) :
    executeTokens ctx s [t] = .error (illegalToken t) :=
  executeTokens_rejected (run_executeToken_illegal hk)

theorem executeTokens_structural
    (hk : t.kind = .openParen ∨ t.kind = .closeParen ∨ t.kind = .separator) :
    executeTokens ctx s [t] = .error (.syntaxError t.position (.structural t.text)) :=
  executeTokens_rejected (run_executeToken_structural hk)

end Tokens

end Formula
