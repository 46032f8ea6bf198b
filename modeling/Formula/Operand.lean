import Formula.Decimal.Numeral
import Formula.Error
import Formula.Token.Basic
import Formula.Value

/-!
# Operands

* `Operand`: a value with the text that stands for it and a place in the source.
* `Operand.ofLiteral`: the operand of a literal, whose text is the source text.
* `Operand.ofResult`: the operand of a result, whose text is that of the value.
-/

namespace Formula

/-- A value on the stack. The text is what operands are compared by for equality. -/
structure Operand where
  value : Value
  text : String
  position : Nat
deriving DecidableEq

namespace Operand

/-- The operand that a literal stands for. -/
def ofLiteral (t : Token) : Except EvalError Operand :=
  let invalid (problem : SyntaxProblem) : Except EvalError Operand :=
    .error (.syntaxError t.position problem)
  match t.kind with
  | .integer =>
    match readInt64? t.text.toList with
    | some n => .ok ⟨.int n, t.text, t.position⟩
    | none => invalid (.invalidInteger t.text)
  | .float =>
    match readFloat? t.text.toList with
    | some x => .ok ⟨.float x, t.text, t.position⟩
    | none => invalid (.invalidFloat t.text)
  | .string => .ok ⟨.raw t.text, t.text, t.position⟩
  | _ => invalid (.noOperand t.text)

/-- The operand of a result. A double is rounded to what its text shows. -/
def ofResult (v : Value) (position : Nat) : Operand :=
  match v with
  | .float x => ⟨.float (shownFloat x).1, (shownFloat x).2, position⟩
  | v => ⟨v, v.display, position⟩

/-- The error for an operand that does not meet a requirement. -/
def reject (x : Operand) (requirement : Requirement) : EvalError :=
  .typeError x.text x.position requirement

/-- The operand as an integer. -/
def expectInteger (x : Operand) : Except EvalError Int64 :=
  match x.value.int? with
  | some n => .ok n
  | none => .error (x.reject .integer)

/-- The operand as a double. -/
def expectNumber (x : Operand) : Except EvalError Float :=
  match x.value.float? with
  | some y => .ok y
  | none => .error (x.reject .number)

end Operand

end Formula
