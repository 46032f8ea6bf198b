import Formula.Log
import Formula.Stack
import Formula.Table
import Formula.Text.Bytes
import Formula.Text.Lowercase
import Formula.Text.Quoted

/-!
# Operators and functions

* `Operator`, `Callable`: what is known of an operator and of a function.
* `operatorKey`, `functionKey`: the names they are stored under. Symbols are kept as they are, and
  the names of functions in small letters.
* `Context`: a table of each.
* `Context.setOperator`, `Context.setFunction`: set an entry; `Installation` holds what comes of it.
* `Context.removeOperator`, `Context.removeFunction`: remove an entry.
-/

namespace Formula

/-- How an operator binds, and what it does. -/
structure Operator where
  /-- A higher one binds tighter. -/
  precedence : Nat
  /-- Whether a chain of operators of equal precedence groups from the left. -/
  leftAssociative : Bool
  /-- The number of operands that have to wait on the stack. -/
  arity : Nat
  apply : Operation

namespace Operator

/-- An operator between two operands that groups from the left. -/
def binary (precedence : Nat) (apply : Operation) : Operator := ⟨precedence, true, 2, apply⟩

/-- An operator in front of its operand. -/
def unary (precedence : Nat) (apply : Operation) : Operator := ⟨precedence, false, 1, apply⟩

/-- The same operator, grouping from the right. -/
def groupingRight (s : Operator) : Operator := { s with leftAssociative := false }

/-- The description of an operator, without what it does. -/
def description (s : Operator) : String :=
  Text.described "OperatorSpec" ("precedence: " ++ toString s.precedence ++ ", left_associative: "
    ++ toString s.leftAssociative ++ ", arity: " ++ toString s.arity)

end Operator

/-- The stored name of a function, and what it does. -/
structure Callable where
  name : String
  apply : Operation

/-- The description of a function, without what it does. -/
def Callable.description (f : Callable) : String :=
  Text.described "FunctionSpec" ("name: " ++ Text.quoted f.name)

/-- The most bytes of the symbol of an operator. -/
def maxSymbolLength : Nat := 4

/-- The most bytes of the name of a function in small letters. -/
def maxNameLength : Nat := 32

/-- The name that an operator is stored under: its symbol. -/
def operatorKey (symbol : String) : Except EvalError String :=
  if Text.utf8Length symbol.toList ≤ maxSymbolLength then .ok symbol else .error .nameTooLong

/-- The name that a function is stored under: its name in small letters. -/
def functionKey (name : String) : Except EvalError String :=
  let key := Text.lowercase name.toList
  if Text.utf8Length key ≤ maxNameLength then .ok (String.ofList key) else .error .nameTooLong

/-- Operators by symbol. -/
abbrev Operators := Table Operator

/-- Functions by name in small letters. -/
abbrev Functions := Table Callable

/-- The operator of a symbol; a symbol that is too long has none. -/
def Operators.find? (operators : Operators) (symbol : String) : Option Operator :=
  match operatorKey symbol with
  | .ok key => operators.get? key
  | .error _ => none

/-- What is found under a symbol has been set under it. -/
theorem Operators.mem_entries_of_find? {operators : Operators} {symbol : String} {spec : Operator}
    (h : operators.find? symbol = some spec) : (symbol, spec) ∈ operators.entries := by
  unfold find? operatorKey at h
  split at h
  · next key hkey =>
    split at hkey <;> cases hkey
    exact (Table.get?_eq_some_iff _).1 h
  · cases h

/-- The function of a name, whatever the case of its letters. -/
def Functions.find? (functions : Functions) (name : String) : Option Callable :=
  match functionKey name with
  | .ok key => functions.get? key
  | .error _ => none

/-- The operators and functions that expressions may use. -/
structure Context where
  operators : Operators
  functions : Functions

/-- What comes of setting entries: the context afterwards, the records, and whether it failed. -/
structure Installation where
  context : Context
  records : List LogRecord
  outcome : Except EvalError Unit

/-- Goes on from the context reached, unless there was a failure. -/
def Installation.andThen (r : Installation) (f : Context → Installation) : Installation :=
  match r.outcome with
  | .error _ => r
  | .ok () =>
    let r' := f r.context
    ⟨r'.context, r.records ++ r'.records, r'.outcome⟩

namespace Context

/-- No operators and no functions. -/
def empty : Context := ⟨Table.empty, Table.empty⟩

/-- The operator of a symbol. -/
def operator? (ctx : Context) (symbol : String) : Option Operator :=
  ctx.operators.find? symbol

/-- The function of a name, whatever the case of its letters. -/
def function? (ctx : Context) (name : String) : Option Callable := ctx.functions.find? name

/-- Sets the operator of a symbol. A failure changes nothing. -/
def setOperator (ctx : Context) (symbol : String) (spec : Operator) : Installation :=
  match operatorKey symbol with
  | .error e => ⟨ctx, [], .error e⟩
  | .ok key =>
    match ctx.operators.put? key spec with
    | none => ⟨ctx, [], .error (.capacityExceeded .operators)⟩
    | some operators =>
      ⟨{ ctx with operators := operators },
        if ctx.operators.contains key then [.operatorReplaced symbol] else [], .ok ()⟩

/-- Sets the function of a name. A failure changes nothing. -/
def setFunction (ctx : Context) (name : String) (apply : Operation) : Installation :=
  match functionKey name with
  | .error e => ⟨ctx, [], .error e⟩
  | .ok key =>
    match ctx.functions.put? key ⟨key, apply⟩ with
    | none => ⟨ctx, [], .error (.capacityExceeded .functions)⟩
    | some functions =>
      ⟨{ ctx with functions := functions },
        if ctx.functions.contains key then [.functionReplaced name] else [], .ok ()⟩

/-- Removes the operator of a symbol; tells whether there was one. -/
def removeOperator (ctx : Context) (symbol : String) : Bool × Context :=
  match operatorKey symbol with
  | .error _ => (false, ctx)
  | .ok key =>
    (ctx.operators.contains key, { ctx with operators := ctx.operators.erase key })

/-- Removes the function of a name; tells whether there was one. -/
def removeFunction (ctx : Context) (name : String) : Bool × Context :=
  match functionKey name with
  | .error _ => (false, ctx)
  | .ok key =>
    (ctx.functions.contains key, { ctx with functions := ctx.functions.erase key })

end Context

end Formula
