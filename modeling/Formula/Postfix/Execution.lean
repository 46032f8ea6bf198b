import Formula.Postfix.Conversion

/-!
# Execution of tokens in postfix order

* `executeToken ctx t`: what a token does to the stack of operands.
* `runItem`, `runItems`: items of the output of a conversion one after the other; the first error
  ends the run.
* `valueOfTokens ctx ts`: the value of a list of tokens.
-/

namespace Formula

/-- Applies an operator, whose operands have to be on the stack, and puts the result there. -/
def applyOperator (ctx : Context) (t : Token) : StackM Unit := do
  match ctx.operator? t.text with
  | none => throw (undefinedOperator t)
  | some spec =>
    let found := (← get).length
    if found < spec.arity then
      throw (.malformedExpression (some t.position) (.tooFewOperands t.text spec.arity found))
    let v ← spec.apply t
    push (.ofResult v t.position)

/-- Calls a function, which takes what it needs, and puts the result on the stack. -/
def applyFunction (ctx : Context) (t : Token) : StackM Unit := do
  match ctx.function? t.text with
  | none => throw (.unknownFunction t.text t.position)
  | some spec =>
    let v ← spec.apply t
    push (.ofResult v t.position)

/-- What a token in postfix order does to the stack. -/
def executeToken (ctx : Context) (t : Token) : StackM Unit :=
  match t.kind with
  | .integer | .float | .string => do push (← Operand.ofLiteral t)
  | .operator => applyOperator ctx t
  | .identifier => applyFunction ctx t
  | .illegal => throw (illegalToken t)
  | .endOfInput => pure ()
  | .openParen | .closeParen | .separator =>
    throw (.syntaxError t.position (.structural t.text))

/-- One item: a token is recorded and executed, an error is the error of the run. -/
def runItem (ctx : Context) (stack : OperandStack) : Item → Logged OperandStack
  | .error e => ⟨[], .error e⟩
  | .ok t =>
    ⟨[.executing t.kind t.text],
      match (executeToken ctx t).run.run stack with
      | (.ok (), stack) => .ok stack
      | (.error e, _) => .error e⟩

/-- Items one after the other, up to the first error. -/
def runItems (ctx : Context) : OperandStack → List Item → Logged OperandStack
  | stack, [] => pure stack
  | stack, item :: items => do
    let stack ← runItem ctx stack item
    runItems ctx stack items

/-- The value of a list of items. -/
def valueOfItems (ctx : Context) (items : List Item) : Except EvalError Value := do
  (← (runItems ctx [] items).outcome).result

/-- The value of tokens in postfix order. -/
def valueOfTokens (ctx : Context) (ts : List Token) : Except EvalError Value :=
  valueOfItems ctx (ts.map .ok)

end Formula
