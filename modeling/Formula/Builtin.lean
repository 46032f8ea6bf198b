import Formula.Context

/-!
# Built-in operators and functions

Arithmetic is that of 64-bit integers, which wraps around, unless an operand is a double. Of two
operands the right one is taken first and also checked first.

* `numberPair`, `integerPair`, `shiftPair`: two operands as numbers, as integers, and as an integer
  and a shift count.
* `BinaryBuiltin`: the built-in operators and functions of two operands;
  `BinaryBuiltin.combine` is the result for two operands, and `BinaryBuiltin.operation` takes them
  from the stack.
* `negation`: the built-in operator of one operand.
* `builtins`: the entries that a new context starts with, in the order of their registration.
* `Context.default`: the context with these entries.
-/

namespace Formula

/-- Two numbers of one kind. -/
inductive NumberPair
  | ints (left right : Int64)
  | floats (left right : Float)

/-- Two operands as numbers. Both become doubles unless both are integers. -/
def numberPair (left right : Operand) : Except EvalError NumberPair := do
  let r ← right.expectNumber
  let l ← left.expectNumber
  match left.value.int?, right.value.int? with
  | some m, some n => return .ints m n
  | _, _ => return .floats l r

/-- Two operands as integers. -/
def integerPair (left right : Operand) : Except EvalError (Int64 × Int64) := do
  let r ← right.expectInteger
  let l ← left.expectInteger
  return (l, r)

/-- Two operands as an integer and a shift count, which may not be negative. -/
def shiftPair (left right : Operand) : Except EvalError (Int64 × Int64) := do
  let (n, count) ← integerPair left right
  if count < 0 then throw (right.reject .nonNegative)
  return (n, count)

/-- The built-in operators and functions of two operands. -/
inductive BinaryBuiltin
  | add | sub | mul | div | rem
  | bitAnd | bitOr | bitXor
  | shiftLeft | shiftRight
  | logicalAnd | logicalOr
  | equal | notEqual
  | less | greater | lessEqual | greaterEqual
  | max | min
deriving Repr, DecidableEq

namespace BinaryBuiltin

/-- An operation on two numbers, by kind. -/
def arithmetic (onInts : Int64 → Int64 → Int64) (onFloats : Float → Float → Float)
    (left right : Operand) : Except EvalError Value := do
  match ← numberPair left right with
  | .ints l r => return .int (onInts l r)
  | .floats l r => return .float (onFloats l r)

/-- An operation on two integers. -/
def onIntegers (f : Int64 → Int64 → Int64) (left right : Operand) : Except EvalError Value := do
  let (l, r) ← integerPair left right
  return .int (f l r)

/-- A comparison of two integers. -/
def comparing (p : Int64 → Int64 → Bool) (left right : Operand) : Except EvalError Value := do
  let (l, r) ← integerPair left right
  return .ofBool (p l r)

/-- The quotient of two integers, cut off towards zero, or of two doubles. Only an integer divisor
may not be zero. -/
def divide (position : Nat) (left right : Operand) : Except EvalError Value := do
  match ← numberPair left right with
  | .ints l r => if r = 0 then throw (.divideByZero position) else return .int (l / r)
  | .floats l r => return .float (l / r)

/-- The remainder of two integers, with the sign of the dividend. -/
def remainder (position : Nat) (left right : Operand) : Except EvalError Value := do
  let (l, r) ← integerPair left right
  if r = 0 then throw (.divideByZero position) else return .int (l % r)

/-- A shift to the left; counts from 64 on leave no bits. -/
def shiftedLeft (n count : Int64) : Int64 := if count < 64 then n <<< count else 0

/-- A shift to the right that keeps the sign; counts from 64 on leave nothing but the sign. -/
def shiftedRight (n count : Int64) : Int64 :=
  if count < 64 then n >>> count else if n < 0 then -1 else 0

/-- A shift by a count that is not negative. -/
def shift (f : Int64 → Int64 → Int64) (left right : Operand) : Except EvalError Value := do
  let (n, count) ← shiftPair left right
  return .int (f n count)

/-- The result for two operands of the operator or function at `position`. Equality compares the
texts of the operands, whatever their values. -/
def combine (b : BinaryBuiltin) (position : Nat) (left right : Operand) :
    Except EvalError Value :=
  match b with
  | add => arithmetic (· + ·) (· + ·) left right
  | sub => arithmetic (· - ·) (· - ·) left right
  | mul => arithmetic (· * ·) (· * ·) left right
  | div => divide position left right
  | rem => remainder position left right
  | bitAnd => onIntegers (· &&& ·) left right
  | bitOr => onIntegers (· ||| ·) left right
  | bitXor => onIntegers (· ^^^ ·) left right
  | shiftLeft => shift shiftedLeft left right
  | shiftRight => shift shiftedRight left right
  | logicalAnd => comparing (fun l r => l != 0 && r != 0) left right
  | logicalOr => comparing (fun l r => l != 0 || r != 0) left right
  | equal => .ok (.ofBool (left.text == right.text))
  | notEqual => .ok (.ofBool (left.text != right.text))
  | less => comparing (fun l r => l < r) left right
  | greater => comparing (fun l r => r < l) left right
  | lessEqual => comparing (fun l r => l ≤ r) left right
  | greaterEqual => comparing (fun l r => r ≤ l) left right
  | max => onIntegers (fun l r => if l ≤ r then r else l) left right
  | min => onIntegers (fun l r => if l ≤ r then l else r) left right

/-- Takes the right operand, then the left one, and combines them. -/
def operation (b : BinaryBuiltin) : Operation := fun t => do
  let right ← pop t
  let left ← pop t
  b.combine t.position left right

end BinaryBuiltin

/-- One for the integer zero, zero for every other integer. -/
def negate (x : Operand) : Except EvalError Value := do
  return .ofBool ((← x.expectInteger) == 0)

/-- Takes an operand and negates it. -/
def negation : Operation := fun t => do
  let x ← pop t
  negate x

/-! ## The stack afterwards -/

theorem run_operation (b : BinaryBuiltin) (t : Token) (left right : Operand) (s : OperandStack) :
    (b.operation t).run.run (right :: left :: s) = (b.combine t.position left right, s) := by
  cases h : b.combine t.position left right <;>
    (show (liftM (b.combine t.position left right) : StackM Value).run.run s = _
     rw [h]
     rfl)

/-- A single operand is gone, and the other one is missing. -/
theorem run_operation_singleton (b : BinaryBuiltin) (t : Token) (x : Operand) :
    (b.operation t).run.run [x] = (.error (missingOperand t), []) := rfl

theorem run_operation_nil (b : BinaryBuiltin) (t : Token) :
    (b.operation t).run.run [] = (.error (missingOperand t), []) := rfl

theorem run_negation (t : Token) (x : Operand) (s : OperandStack) :
    (negation t).run.run (x :: s) = (negate x, s) := by
  cases h : negate x <;>
    (show (liftM (negate x) : StackM Value).run.run s = _
     rw [h]
     rfl)

/-! ## Entries -/

/-- One entry of a context. -/
inductive Entry
  | operator (symbol : String) (spec : Operator)
  | function (name : String) (apply : Operation)

/-- Sets the entry. -/
def Entry.install (e : Entry) (ctx : Context) : Installation :=
  match e with
  | operator symbol spec => ctx.setOperator symbol spec
  | function name apply => ctx.setFunction name apply

/-- Sets entries one after the other, up to the first failure. -/
def installAll : List Entry → Context → Installation
  | [], ctx => ⟨ctx, [], .ok ()⟩
  | e :: es, ctx => (e.install ctx).andThen (installAll es)

namespace Precedence

/-- That of operators in front of their operand. -/
def prefixed : Nat := 40

/-- That of shifts, which bind tightest between operands. -/
def shift : Nat := 30

/-- That of products, quotients, remainders and conjunctions. -/
def multiplicative : Nat := 20

/-- That of sums, differences, disjunctions and comparisons. -/
def additive : Nat := 10

end Precedence

/-- The built-in operators between two operands. -/
def binaryBuiltins : List (String × Nat × BinaryBuiltin) :=
  [("<<", Precedence.shift, .shiftLeft),
    (">>", Precedence.shift, .shiftRight),
    ("*", Precedence.multiplicative, .mul),
    ("/", Precedence.multiplicative, .div),
    ("%", Precedence.multiplicative, .rem),
    ("&", Precedence.multiplicative, .bitAnd),
    ("&&", Precedence.multiplicative, .logicalAnd),
    ("+", Precedence.additive, .add),
    ("-", Precedence.additive, .sub),
    ("|", Precedence.additive, .bitOr),
    ("^", Precedence.additive, .bitXor),
    ("||", Precedence.additive, .logicalOr),
    ("==", Precedence.additive, .equal),
    ("!=", Precedence.additive, .notEqual),
    ("<", Precedence.additive, .less),
    (">", Precedence.additive, .greater),
    ("<=", Precedence.additive, .lessEqual),
    (">=", Precedence.additive, .greaterEqual)]

/-- All built-in entries, in the order of their registration. -/
def builtins : List Entry :=
  binaryBuiltins.map (fun (symbol, precedence, b) =>
      .operator symbol (.binary precedence b.operation))
    ++ [.operator "!" (.unary Precedence.prefixed negation),
      .function "max" BinaryBuiltin.max.operation, .function "min" BinaryBuiltin.min.operation]

/-- Sets all built-in entries. What was set before a failure stays. -/
def Context.installBuiltins : Context → Installation := installAll builtins

/-- The context of the built-in operators and functions. -/
def Context.default : Context := Context.empty.installBuiltins.context

end Formula
