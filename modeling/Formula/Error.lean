/-!
# Errors of conversion, evaluation and registration

An error is a cause with the data that describe it; the wording is in one place.

* `SyntaxProblem`, `Requirement`, `Misfit`, `Container`: the details of some causes. Each has a case
  for a text given by host code.
* `EvalError`: the causes.
* `EvalError.position?`: where in the source the error is.
* `EvalError.message`: the text shown for it.
-/

namespace Formula

/-- What is wrong with a token as such. -/
inductive SyntaxProblem
  /-- Text that is no token; the lexer's diagnosis. -/
  | illegal (diagnosis : String)
  | unknownOperator (symbol : String)
  | invalidInteger (literal : String)
  | invalidFloat (literal : String)
  /-- A literal was expected. -/
  | noOperand (text : String)
  /-- A bracket or a comma among tokens in postfix order. -/
  | structural (text : String)
deriving Repr, DecidableEq

/-- What an operand should have been. -/
inductive Requirement
  | integer
  | number
  | nonNegative
  | custom (wording : String)
deriving Repr, DecidableEq

/-- How operands and operators fail to fit together. -/
inductive Misfit
  | missingArgument (function : String)
  | missingOperand (operator : String)
  | tooFewOperands (operator : String) (needed found : Nat)
  /-- The number of operands left at the end is not one. -/
  | notOneResult (found : Nat)
  | custom (details : String)
deriving Repr, DecidableEq

/-- What has a limited size. -/
inductive Container
  | operators
  | functions
  | operatorStack
  | operandStack
  | custom (name : String)
deriving Repr, DecidableEq

/-- Why there is no result. -/
inductive EvalError
  | syntaxError (position : Nat) (problem : SyntaxProblem)
  /-- A bracket without its partner, or a comma outside brackets. -/
  | unmatchedParenthesis (position : Nat) (found : String)
  /-- An operand of the wrong kind, named by its text. -/
  | typeError (operand : String) (position : Nat) (requirement : Requirement)
  | unknownFunction (name : String) (position : Nat)
  | malformedExpression (position? : Option Nat) (misfit : Misfit)
  | divideByZero (position : Nat)
  | capacityExceeded (container : Container)
  /-- A name is too long for its table. -/
  | nameTooLong
  /-- A failure of host code. -/
  | other (text : String)
deriving Repr, DecidableEq

namespace SyntaxProblem

/-- The wording of the problem. -/
def message : SyntaxProblem → String
  | illegal diagnosis => diagnosis
  | unknownOperator symbol => "unknown operator '" ++ symbol ++ "'"
  | invalidInteger literal => "invalid integer literal '" ++ literal ++ "'"
  | invalidFloat literal => "invalid float literal '" ++ literal ++ "'"
  | noOperand text => "'" ++ text ++ "' is not an operand"
  | structural text => "unexpected '" ++ text ++ "' in postfix expression"

end SyntaxProblem

namespace Requirement

/-- The wording of the requirement. -/
def message : Requirement → String
  | integer => "must be integer"
  | number => "must be number"
  | nonNegative => "must be non-negative"
  | custom wording => wording

end Requirement

namespace Misfit

/-- The wording of the misfit. -/
def message : Misfit → String
  | missingArgument function => "function '" ++ function ++ "' is missing an argument"
  | missingOperand operator => "operator '" ++ operator ++ "' is missing an operand"
  | tooFewOperands operator needed found => "operator '" ++ operator ++ "' needs "
      ++ toString needed ++ " operand(s), found " ++ toString found
  | notOneResult found => "expected exactly one result, found " ++ toString found
  | custom details => details

end Misfit

namespace Container

/-- What the container is called. -/
def message : Container → String
  | operators => "operators"
  | functions => "functions"
  | operatorStack => "operator stack"
  | operandStack => "value stack"
  | custom name => name

end Container

namespace EvalError

/-- The place in the source that the error points at, if it has one. -/
def position? : EvalError → Option Nat
  | syntaxError p _ => some p
  | unmatchedParenthesis p _ => some p
  | typeError _ p _ => some p
  | unknownFunction _ p => some p
  | malformedExpression p? _ => p?
  | divideByZero p => some p
  | capacityExceeded _ => none
  | nameTooLong => none
  | other _ => none

/-- The text shown for the error. -/
def message : EvalError → String
  | syntaxError p problem => "Syntax error at position " ++ toString p ++ ": " ++ problem.message
  | unmatchedParenthesis p found =>
      "Unmatched parenthesis at position " ++ toString p ++ ": found '" ++ found ++ "'"
  | typeError operand p requirement =>
      "Type error at position " ++ toString p ++ ": token '" ++ operand ++ "' "
        ++ requirement.message
  | unknownFunction name p => "Unknown function '" ++ name ++ "' at position " ++ toString p
  | malformedExpression (some p) misfit =>
      "Malformed expression at position " ++ toString p ++ ": " ++ misfit.message
  | malformedExpression none misfit => "Malformed expression: " ++ misfit.message
  | divideByZero p => "Division by zero at position " ++ toString p
  | capacityExceeded container => "Capacity exceeded for " ++ container.message
  | nameTooLong => "String too long for heapless buffer"
  | other text => text

end EvalError

end Formula
