import Formula.Operand

/-!
# The stack of operands

* `OperandStack`: operands, the last one pushed first.
* `StackM`: computations on a stack. A failure keeps the stack as it then is.
* `push`, `pop`, `popInteger`, `popNumber`: a full stack takes nothing, and who pops too much is
  named in the error.
* `OperandStack.result`: the value of a stack of one operand.
-/

namespace Formula

/-- Operands, the last one pushed first. -/
abbrev OperandStack := List Operand

/-- The most operands that may wait. -/
def stackCapacity : Nat := 1000

/-- Computations that work on a stack of operands and may fail. -/
abbrev StackM := ExceptT EvalError (StateM OperandStack)

/-- What an operator or a function does when a token applies it: it pops its operands and returns
the result. -/
abbrev Operation := Token → StackM Value

/-- Puts an operand on the stack. -/
def push (x : Operand) : StackM Unit := do
  let s ← get
  if stackCapacity ≤ s.length then throw (.capacityExceeded .operandStack)
  set (x :: s)

/-- The error for a token whose operand is missing. -/
def missingOperand (t : Token) : EvalError :=
  .malformedExpression (some t.position)
    (if t.kind = .identifier then .missingArgument t.text else .missingOperand t.text)

/-- Takes the top operand, on behalf of the token `t`. -/
def pop (t : Token) : StackM Operand := do
  match ← get with
  | [] => throw (missingOperand t)
  | x :: s =>
    set s
    return x

/-- Takes the top operand, which has to be an integer. It is gone also if it is none. -/
def popInteger (t : Token) : StackM Int64 := do
  let x ← pop t
  x.expectInteger

/-- Takes the top operand, which has to be a number. It is gone also if it is none. -/
def popNumber (t : Token) : StackM Float := do
  let x ← pop t
  x.expectNumber

/-- The value of the only operand. -/
def OperandStack.result : OperandStack → Except EvalError Value
  | [x] => .ok x.value
  | s => .error (.malformedExpression none (.notOneResult s.length))

theorem OperandStack.result_eq_ok_iff {s : OperandStack} {v : Value} :
    s.result = .ok v ↔ ∃ x : Operand, s = [x] ∧ x.value = v := by
  constructor
  · intro h
    unfold result at h
    split at h
    · exact ⟨_, rfl, Except.ok.inj h⟩
    · cases h
  · rintro ⟨x, rfl, rfl⟩
    rfl

/-! ## The stack afterwards -/

theorem run_push {x : Operand} {s : OperandStack} (h : s.length < stackCapacity) :
    (push x).run.run s = (.ok (), x :: s) := by
  show (if stackCapacity ≤ s.length then _ else set (x :: s) : StackM Unit).run.run s = _
  rw [if_neg (Nat.not_le.2 h)]
  rfl

/-- A full stack stays as it is. -/
theorem run_push_full {x : Operand} {s : OperandStack} (h : stackCapacity ≤ s.length) :
    (push x).run.run s = (.error (.capacityExceeded .operandStack), s) := by
  show (if stackCapacity ≤ s.length then
    throw (.capacityExceeded .operandStack) else set (x :: s) : StackM Unit).run.run s = _
  rw [if_pos h]
  rfl

theorem run_pop_nil (t : Token) : (pop t).run.run [] = (.error (missingOperand t), []) := rfl

theorem run_pop_cons (t : Token) (x : Operand) (s : OperandStack) :
    (pop t).run.run (x :: s) = (.ok x, s) := rfl

end Formula
