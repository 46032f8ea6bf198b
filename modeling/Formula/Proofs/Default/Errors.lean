import Formula.Builtin
import Formula.Proofs.Postfix.Failure

/-!
# The errors of the built-in operators and functions

* `EvalError.IsOfOperands`: an operand is of the wrong kind, or a divisor is zero.
* `EvalError.IsCausedBy`: the same, with the operands and the position of what is applied to them.
* `combine_causedBy`, `negate_causedBy`: what is built in raises no other errors;
  `combine_failsWith` and `negate_failsWith` say so without naming the operands.
-/

namespace Formula

/-- The errors that operands cause: one of the wrong kind, and a divisor that is zero. -/
def EvalError.IsOfOperands (e : EvalError) : Prop :=
  (∃ operand position requirement, e = .typeError operand position requirement) ∨
    ∃ position, e = .divideByZero position

/-- The errors that the operands `xs` cause for what is applied to them at a position. One of the
wrong kind is named by the error, with its own position. -/
def EvalError.IsCausedBy (xs : List Operand) (position : Nat) (e : EvalError) : Prop :=
  (∃ x ∈ xs, ∃ requirement, e = x.reject requirement) ∨ e = .divideByZero position

theorem EvalError.IsCausedBy.isOfOperands {xs : List Operand} {position : Nat} {e : EvalError}
    (h : e.IsCausedBy xs position) : e.IsOfOperands := by
  rcases h with ⟨x, -, requirement, rfl⟩ | rfl
  · exact .inl ⟨_, _, _, rfl⟩
  · exact .inr ⟨_, rfl⟩

theorem EvalError.IsCausedBy.mono {xs ys : List Operand} {position : Nat} {e : EvalError}
    (h : e.IsCausedBy xs position) (hsub : xs ⊆ ys) : e.IsCausedBy ys position :=
  h.imp_left fun ⟨x, hx, hrequirement⟩ => ⟨x, hsub hx, hrequirement⟩

section Operands

variable {xs : List Operand} {left right x : Operand} (position : Nat)

theorem isCausedBy_reject (hx : x ∈ xs) (requirement : Requirement) :
    (x.reject requirement).IsCausedBy xs position :=
  .inl ⟨x, hx, requirement, rfl⟩

theorem expectInteger_causedBy (hx : x ∈ xs) :
    FailsWith (EvalError.IsCausedBy xs position) x.expectInteger := by
  unfold Operand.expectInteger
  split
  · exact failsWith_ok _
  · exact failsWith_error (isCausedBy_reject position hx .integer)

theorem expectNumber_causedBy (hx : x ∈ xs) :
    FailsWith (EvalError.IsCausedBy xs position) x.expectNumber := by
  unfold Operand.expectNumber
  split
  · exact failsWith_ok _
  · exact failsWith_error (isCausedBy_reject position hx .number)

theorem negate_causedBy (x : Operand) :
    FailsWith (EvalError.IsCausedBy [x] position) (negate x) :=
  (expectInteger_causedBy position (by simp)).bind fun _ => failsWith_ok _

section Pairs

variable (hl : left ∈ xs) (hr : right ∈ xs)

include hl hr

theorem numberPair_causedBy :
    FailsWith (EvalError.IsCausedBy xs position) (numberPair left right) := by
  refine (expectNumber_causedBy position hr).bind fun r => ?_
  refine (expectNumber_causedBy position hl).bind fun l => ?_
  split <;> exact failsWith_ok _

theorem integerPair_causedBy :
    FailsWith (EvalError.IsCausedBy xs position) (integerPair left right) :=
  (expectInteger_causedBy position hr).bind fun _ =>
    (expectInteger_causedBy position hl).bind fun _ => failsWith_ok _

theorem shiftPair_causedBy :
    FailsWith (EvalError.IsCausedBy xs position) (shiftPair left right) := by
  refine (integerPair_causedBy position hl hr).bind fun (n, count) => ?_
  show FailsWith (EvalError.IsCausedBy xs position) (if count < 0 then .error _ else .ok (n, count))
  split
  · exact failsWith_error (isCausedBy_reject position hr .nonNegative)
  · exact failsWith_ok _

end Pairs

namespace BinaryBuiltin

section Pairs

variable (hl : left ∈ xs) (hr : right ∈ xs)

include hl hr

theorem arithmetic_causedBy (onInts : Int64 → Int64 → Int64) (onFloats : Float → Float → Float) :
    FailsWith (EvalError.IsCausedBy xs position) (arithmetic onInts onFloats left right) := by
  refine (numberPair_causedBy position hl hr).bind fun pair => ?_
  cases pair <;> exact failsWith_ok _

theorem onIntegers_causedBy (f : Int64 → Int64 → Int64) :
    FailsWith (EvalError.IsCausedBy xs position) (onIntegers f left right) :=
  (integerPair_causedBy position hl hr).bind fun _ => failsWith_ok _

theorem comparing_causedBy (p : Int64 → Int64 → Bool) :
    FailsWith (EvalError.IsCausedBy xs position) (comparing p left right) :=
  (integerPair_causedBy position hl hr).bind fun _ => failsWith_ok _

theorem shift_causedBy (f : Int64 → Int64 → Int64) :
    FailsWith (EvalError.IsCausedBy xs position) (shift f left right) :=
  (shiftPair_causedBy position hl hr).bind fun _ => failsWith_ok _

theorem divide_causedBy :
    FailsWith (EvalError.IsCausedBy xs position) (divide position left right) := by
  refine (numberPair_causedBy position hl hr).bind fun pair => ?_
  cases pair with
  | ints l r =>
    show FailsWith (EvalError.IsCausedBy xs position)
      (if r = 0 then .error _ else .ok (Value.int (l / r)))
    split
    · exact failsWith_error (.inr rfl)
    · exact failsWith_ok _
  | floats l r => exact failsWith_ok _

theorem remainder_causedBy :
    FailsWith (EvalError.IsCausedBy xs position) (remainder position left right) := by
  refine (integerPair_causedBy position hl hr).bind fun (l, r) => ?_
  show FailsWith (EvalError.IsCausedBy xs position)
    (if r = 0 then .error _ else .ok (Value.int (l % r)))
  split
  · exact failsWith_error (.inr rfl)
  · exact failsWith_ok _

end Pairs

/-- The built-in operators and functions of two operands fail for no other reason than their
operands. -/
theorem combine_causedBy (b : BinaryBuiltin) (left right : Operand) :
    FailsWith (EvalError.IsCausedBy [left, right] position) (b.combine position left right) := by
  have hl : left ∈ [left, right] := by simp
  have hr : right ∈ [left, right] := by simp
  unfold combine
  cases b with
  | add | sub | mul => exact arithmetic_causedBy position hl hr _ _
  | div => exact divide_causedBy position hl hr
  | rem => exact remainder_causedBy position hl hr
  | bitAnd | bitOr | bitXor | max | min => exact onIntegers_causedBy position hl hr _
  | shiftLeft | shiftRight => exact shift_causedBy position hl hr _
  | logicalAnd | logicalOr | less | greater | lessEqual | greaterEqual =>
    exact comparing_causedBy position hl hr _
  | equal | notEqual => exact failsWith_ok _

theorem combine_failsWith (left right : Operand) (b : BinaryBuiltin) (position : Nat) :
    FailsWith EvalError.IsOfOperands (b.combine position left right) :=
  (combine_causedBy position b left right).imp fun _ => EvalError.IsCausedBy.isOfOperands

end BinaryBuiltin

theorem negate_failsWith (x : Operand) : FailsWith EvalError.IsOfOperands (negate x) :=
  (negate_causedBy 0 x).imp fun _ => EvalError.IsCausedBy.isOfOperands

end Operands

end Formula
