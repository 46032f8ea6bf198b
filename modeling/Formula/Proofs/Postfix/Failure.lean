import Formula.Proofs.Postfix.Origin
import Formula.Proofs.Postfix.Token

/-!
# Where errors come from

* `FailsWith P x`: a computation that raises no errors but those of a kind.
* `Context.Raises ctx e`: an operator or a function of a context fails with the error `e`.
* `executeTokens_failsWith`, `convertTokens_failsWith`, `eval_failsWith`: the failures of host code
  that an evaluation reports are those that the context raises.
-/

namespace Formula

/-- A computation that raises no errors but those of which `P` holds. -/
def FailsWith {α : Type} (P : EvalError → Prop) (x : Except EvalError α) : Prop :=
  ∀ e, x = .error e → P e

section FailsWith

variable {α β : Type} {P Q : EvalError → Prop}

theorem failsWith_ok (a : α) : FailsWith P (.ok a) := by
  intro e h
  cases h

theorem failsWith_error {e : EvalError} (h : P e) :
    FailsWith P (.error e : Except EvalError α) := by
  intro e' h'
  cases h'
  exact h

theorem FailsWith.imp {x : Except EvalError α} (hx : FailsWith P x) (h : ∀ e, P e → Q e) :
    FailsWith Q x :=
  fun e he => h e (hx e he)

theorem FailsWith.map {x : Except EvalError α} (hx : FailsWith P x) (f : α → β) :
    FailsWith P (x.map f) := by
  intro e h
  cases x with
  | error e' => exact hx e (congrArg Except.error (Except.error.inj h))
  | ok a => cases h

theorem FailsWith.bind {x : Except EvalError α} {f : α → Except EvalError β}
    (hx : FailsWith P x) (hf : ∀ a, FailsWith P (f a)) : FailsWith P (x >>= f) := by
  intro e h
  cases x with
  | error e' => exact hx e (congrArg Except.error (Except.error.inj h))
  | ok a => exact hf a e h

end FailsWith

/-- A literal fails only if its text does not spell what its kind says. -/
theorem ofLiteral_failsWith (t : Token) :
    FailsWith (fun e => ∃ problem, e = .syntaxError t.position problem) (Operand.ofLiteral t) := by
  unfold Operand.ofLiteral
  split
  · split
    · exact failsWith_ok _
    · exact failsWith_error ⟨_, rfl⟩
  · split
    · exact failsWith_ok _
    · exact failsWith_error ⟨_, rfl⟩
  · exact failsWith_ok _
  · exact failsWith_error ⟨_, rfl⟩

/-! ## Failures of host code -/

/-- What some operator or function of a context does. -/
def Context.Has (ctx : Context) (apply : Operation) : Prop :=
  (∃ symbol spec, ctx.operator? symbol = some spec ∧ spec.apply = apply) ∨
    ∃ name spec, ctx.function? name = some spec ∧ spec.apply = apply

/-- On some token and some stack an operator or a function of a context fails with this error. -/
def Context.Raises (ctx : Context) (e : EvalError) : Prop :=
  ∃ apply t stack, ctx.Has apply ∧ ((apply t).run.run stack).1 = .error e

/-- An error that is no failure of host code, or that the context raises. -/
def Context.Accounts (ctx : Context) (e : EvalError) : Prop :=
  ∀ text, e = .other text → ctx.Raises e

section HostErrors

variable {ctx : Context}

theorem Context.Raises.accounts {e : EvalError} (h : ctx.Raises e) : ctx.Accounts e :=
  fun _ _ => h

theorem accounts_of_ne_other {e : EvalError} (h : ∀ text, e ≠ .other text) : ctx.Accounts e :=
  fun text he => absurd he (h text)

theorem pushed_failsWith (s : OperandStack) (x : Operand) :
    FailsWith ctx.Accounts (pushed s x) := by
  intro e h
  obtain ⟨-, rfl⟩ := pushed_eq_error_iff.1 h
  exact accounts_of_ne_other (by simp)

/-- What is applied fails as it does by itself, or because the stack is full. -/
theorem apply_failsWith {apply : Operation} (h : ctx.Has apply) (t : Token)
    (stack s : OperandStack) :
    FailsWith ctx.Accounts
      (((apply t).run.run stack).1 >>= fun v => pushed s (.ofResult v t.position)) :=
  FailsWith.bind (fun _ he => Context.Raises.accounts ⟨apply, t, stack, h, he⟩)
    fun _ => pushed_failsWith s _

/-- A token fails for a reason of its own, or as the operator or function does that it applies. -/
theorem executeTokens_singleton_failsWith (t : Token) (s : OperandStack) :
    FailsWith ctx.Accounts (executeTokens ctx s [t]) := by
  cases hk : t.kind with
  | integer | float | string =>
    rw [executeTokens_literal (by simp [Token.isLiteral, hk])]
    refine ((ofLiteral_failsWith t).imp ?_).bind fun x => pushed_failsWith s x
    rintro e ⟨problem, rfl⟩
    exact accounts_of_ne_other (by simp)
  | operator =>
    -- Only what is applied can raise an error that is not built in.
    cases hfind : ctx.operator? t.text with
    | none =>
      rw [executeTokens_undefinedOperator hk hfind]
      exact failsWith_error (accounts_of_ne_other (by simp [undefinedOperator]))
    | some spec =>
      by_cases harity : spec.arity ≤ s.length
      · rw [executeTokens_operator hk hfind harity rfl]
        exact apply_failsWith (.inl ⟨_, spec, hfind, rfl⟩) t s _
      · rw [executeTokens_tooFewOperands hk hfind (Nat.not_le.1 harity)]
        exact failsWith_error (accounts_of_ne_other (by simp))
  | identifier =>
    cases hfind : ctx.function? t.text with
    | none =>
      rw [executeTokens_unknownFunction hk hfind]
      exact failsWith_error (accounts_of_ne_other (by simp))
    | some spec =>
      rw [executeTokens_function hk hfind rfl]
      exact apply_failsWith (.inr ⟨_, spec, hfind, rfl⟩) t s _
  | endOfInput =>
    rw [executeTokens_endOfInput hk]
    exact failsWith_ok s
  | illegal =>
    rw [executeTokens_illegal hk]
    exact failsWith_error (accounts_of_ne_other (by simp [illegalToken]))
  | openParen | closeParen | separator =>
    rw [executeTokens_structural (by simp [hk])]
    exact failsWith_error (accounts_of_ne_other (by simp))

theorem executeTokens_failsWith (s : OperandStack) (ts : List Token) :
    FailsWith ctx.Accounts (executeTokens ctx s ts) := by
  induction ts generalizing s with
  | nil => exact failsWith_ok s
  | cons t ts ih =>
    rw [executeTokens_cons]
    exact (executeTokens_singleton_failsWith t s).bind ih

theorem result_failsWith (s : OperandStack) : FailsWith ctx.Accounts s.result := by
  unfold OperandStack.result
  split
  · exact failsWith_ok _
  · exact failsWith_error (accounts_of_ne_other (by simp))

theorem valueOfTokens_failsWith (ts : List Token) :
    FailsWith ctx.Accounts (valueOfTokens ctx ts) := by
  rw [valueOfTokens_eq]
  exact (executeTokens_failsWith [] ts).bind result_failsWith

theorem Token.Offends.accounts {t : Token} {e : EvalError} (h : t.Offends e) : ctx.Accounts e := by
  refine accounts_of_ne_other ?_
  cases h <;> simp [illegalToken, Formula.undefinedOperator, Formula.unpaired]

/-- A conversion runs no host code. -/
theorem convertTokens_failsWith (operators : Operators) (input : List Token) :
    FailsWith ctx.Accounts (convertTokens operators input) := by
  intro e h
  rcases exists_offends_of_convertTokens h with rfl | ⟨t, -, hoff⟩
  · exact accounts_of_ne_other (by simp [tooManyWait])
  · exact hoff.accounts

/-- **An evaluation reports a failure of host code only if the context raises it.** -/
theorem eval_failsWith (expression : String) :
    FailsWith ctx.Accounts (eval ctx expression) := by
  rw [eval_eq_valueOfItems]
  cases hc : collect (convertItems ctx.operators (tokenize expression)) with
  | ok ts =>
    rw [collect_eq_ok hc]
    exact valueOfTokens_failsWith ts
  | error e =>
    rw [valueOfItems_of_collect_error ctx hc]
    exact (executeTokens_failsWith [] _).bind fun _ =>
      failsWith_error (convertTokens_failsWith ctx.operators (tokenize expression) e hc)

end HostErrors

end Formula
