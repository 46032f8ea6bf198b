import Formula.Builtin
import Formula.Postfix.Execution
import Formula.Token.Lexer

/-!
# Evaluation of expressions

Conversion and execution take turns: what a token of the expression releases is executed before the
next one is read, so the first error of either ends the evaluation.

* `runReleases`: releases one after the other, each executed at once.
* `evaluate ctx expression`: the value of an expression, with the records of its evaluation.
* `eval`: the value alone. `evalIn`: the same, in the default context unless one is given.
* `convertExpression`: the expression in postfix order.
-/

namespace Formula

/-- Executes what each release puts out before going on to the next. -/
def runReleases (ctx : Context) : OperandStack → List Release → Logged Value
  | stack, [] => .lift stack.result
  | stack, r :: rs => do
    .tell r.records
    let stack ← runItems ctx stack r.items
    runReleases ctx stack rs

/-- The records of a failure, if there was one. -/
def failureRecords (expression : String) : Except EvalError Value → List LogRecord
  | .ok _ => []
  | .error e => [.evaluationFailed expression e]

/-- Evaluates an expression and keeps the log. -/
def evaluate (ctx : Context) (expression : String) : Logged Value :=
  let run := runReleases ctx [] (releases ctx.operators [] (tokenize expression))
  ⟨.evaluating expression :: (run.records ++ failureRecords expression run.outcome), run.outcome⟩

/-- The value of an expression. -/
def eval (ctx : Context) (expression : String) : Except EvalError Value :=
  (evaluate ctx expression).outcome

/-- The value of an expression, in the default context unless one is given. -/
def evalIn (expression : String) (ctx? : Option Context) : Except EvalError Value :=
  eval (ctx?.getD .default) expression

/-- An expression in postfix order, with the records of its conversion. -/
def convertExpressionLogged (ctx : Context) (expression : String) : Logged (List Token) :=
  convertTokensLogged ctx.operators (tokenize expression)

/-- An expression in postfix order. -/
def convertExpression (ctx : Context) (expression : String) : Except EvalError (List Token) :=
  convertTokens ctx.operators (tokenize expression)

end Formula
