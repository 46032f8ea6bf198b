import Formula.Context

/-!
# From infix to postfix order, one token at a time

Operators, names and opening brackets wait on a stack until it is known where they go. Each token
of the input releases some tokens in postfix order and leaves a new stack, or ends the conversion.

* `Item`: a token of the output, or the error that ends it.
* `Release`: what one token of the input leads to.
* `convertToken operators waiting t`: the release of the token `t`, when `waiting` is the stack.
* `convertEnd waiting`: the release of the end of the input.
* `Release.weight`: what a conversion may still put out; a token adds at most one to it, counted
  twice, and the end of the input takes from it.
-/

namespace Formula

/-- The most tokens that may wait on the stack of a conversion. -/
def waitingCapacity : Nat := 1000

/-- A token in postfix order, or the error that ends the conversion. -/
abbrev Item := Except EvalError Token

/-- How a conversion stands after a token. -/
inductive Progress
  /-- It goes on, with these tokens waiting, the last one first. -/
  | waiting (stack : List Token)
  /-- It has come to its end. -/
  | done
  /-- It has failed. -/
  | failed (e : EvalError)
deriving DecidableEq

/-- What one token of the input leads to: tokens in postfix order, and how the conversion stands
afterwards. -/
structure Release where
  tokens : List Token
  progress : Progress
deriving DecidableEq

namespace Release

/-- The output: the tokens, and the error if there is one. -/
def items (r : Release) : List Item :=
  r.tokens.map .ok ++ match r.progress with
    | .failed e => [.error e]
    | _ => []

/-- The records of a release. Text that is no token is passed on without one. -/
def records (r : Release) : List LogRecord :=
  (r.tokens.filter (·.kind ≠ .illegal)).map (fun t => .released t.kind t.text)
    ++ match r.progress with
      | .failed e => [.conversionFailed e]
      | _ => []

end Release

/-- The error for a bracket or a comma without its partner. -/
def unpaired (t : Token) : EvalError := .unmatchedParenthesis t.position t.text

/-- The error for an operator that is in no table. -/
def undefinedOperator (t : Token) : EvalError :=
  .syntaxError t.position (.unknownOperator t.text)

/-- Lets a token wait, after others have been released. -/
def wait (released : List Token) (t : Token) (stack : List Token) : Release :=
  if waitingCapacity ≤ stack.length then ⟨released, .failed (.capacityExceeded .operatorStack)⟩
  else ⟨released, .waiting (t :: stack)⟩

/-- Whether a waiting operator goes before an incoming one. -/
def Operator.precedes (waiting incoming : Operator) : Bool :=
  incoming.precedence < waiting.precedence
    || (waiting.precedence == incoming.precedence && incoming.leftAssociative)

/-- Releases the waiting operators that go before an incoming one; the first token that does not,
and every name and bracket, stops the scan. The second part is what still waits, or the operator on
the stack that is in no table. -/
def releaseOperators (operators : Operators) (incoming : Operator) :
    List Token → List Token × Except Token (List Token)
  | [] => ([], .ok [])
  | top :: below =>
    if top.kind = .operator then
      match operators.find? top.text with
      | none => ([], .error top)
      | some spec =>
        if spec.precedes incoming then
          let (released, rest) := releaseOperators operators incoming below
          (top :: released, rest)
        else ([], .ok (top :: below))
    else ([], .ok (top :: below))

/-- The release of an operator. One in front of its operand has nothing on its left that it could
release. -/
def convertOperator (operators : Operators) (stack : List Token) (t : Token) : Release :=
  match operators.find? t.text with
  | none => ⟨[], .failed (undefinedOperator t)⟩
  | some incoming =>
    if incoming.arity = 1 then wait [] t stack
    else match releaseOperators operators incoming stack with
      | (released, .error top) => ⟨released, .failed (undefinedOperator top)⟩
      | (released, .ok rest) => wait released t rest

/-- Whether the token is no opening bracket. -/
def notOpen (t : Token) : Bool := t.kind != .openParen

/-- What waits above the innermost open bracket; everything if there is none. -/
def aboveOpen (stack : List Token) : List Token := stack.takeWhile notOpen

/-- The innermost open bracket and what waits below it; nothing if there is none. -/
def fromOpen (stack : List Token) : List Token := stack.dropWhile notOpen

/-- The release of a comma: all that waits inside the innermost brackets, which stay open. -/
def convertSeparator (stack : List Token) (t : Token) : Release :=
  match fromOpen stack with
  | [] => ⟨aboveOpen stack, .failed (unpaired t)⟩
  | opening :: below => ⟨aboveOpen stack, .waiting (opening :: below)⟩

/-- The release of a closing bracket: all that waits inside the brackets, and the function that is
called with them. -/
def convertClose (stack : List Token) (t : Token) : Release :=
  match fromOpen stack with
  | [] => ⟨aboveOpen stack, .failed (unpaired t)⟩
  | _ :: [] => ⟨aboveOpen stack, .waiting []⟩
  | _ :: top :: below =>
    if top.kind = .identifier then ⟨aboveOpen stack ++ [top], .waiting below⟩
    else ⟨aboveOpen stack, .waiting (top :: below)⟩

/-- The release of the end of the input: all that waits, unless a bracket is still open. -/
def convertEnd (stack : List Token) : Release :=
  match stack.find? (!notOpen ·) with
  | some opening => ⟨[], .failed (unpaired opening)⟩
  | none => ⟨stack, .done⟩

/-- The release of a token. Literals are passed on at once; so is text that is no token, and it
ends the conversion. -/
def convertToken (operators : Operators) (stack : List Token) (t : Token) : Release :=
  match t.kind with
  | .integer | .float | .string => ⟨[t], .waiting stack⟩
  | .identifier | .openParen => wait [] t stack
  | .operator => convertOperator operators stack t
  | .separator => convertSeparator stack t
  | .closeParen => convertClose stack t
  | .endOfInput => convertEnd stack
  | .illegal => ⟨[t], .done⟩

/-! ## What may still come -/

/-- Twice the tokens that wait, and more while the conversion goes on; twice the error of one that
has failed. -/
def Progress.weight : Progress → Nat
  | .waiting stack => 2 * stack.length + 3
  | .done => 0
  | .failed _ => 2

/-- The weight of a release counts its tokens like those that wait. -/
def Release.weight (r : Release) : Nat := 2 * r.tokens.length + r.progress.weight

theorem weight_wait_le (released : List Token) (t : Token) (stack : List Token) :
    (wait released t stack).weight ≤ 2 * released.length + 2 * stack.length + 5 := by
  unfold wait
  split <;> simp only [Release.weight, Progress.weight, List.length_cons] <;> omega

theorem length_aboveOpen_add (stack : List Token) :
    (aboveOpen stack).length + (fromOpen stack).length = stack.length := by
  rw [← List.length_append, aboveOpen, fromOpen, List.takeWhile_append_dropWhile]

theorem length_releaseOperators (operators : Operators) (incoming : Operator)
    (stack : List Token) :
    (releaseOperators operators incoming stack).1.length
      + (match (releaseOperators operators incoming stack).2 with
        | .ok rest => rest.length
        | .error _ => 0) ≤ stack.length := by
  induction stack with
  | nil => simp [releaseOperators]
  | cons top below ih =>
    unfold releaseOperators
    split
    · split
      · simp
      · split
        · cases hr : (releaseOperators operators incoming below).2 <;>
            simp only [hr, List.length_cons] at ih ⊢ <;> omega
        · simp
    · simp

theorem weight_convertOperator_le (operators : Operators) (stack : List Token) (t : Token) :
    (convertOperator operators stack t).weight ≤ 2 * stack.length + 5 := by
  have hr := fun incoming => length_releaseOperators operators incoming stack
  unfold convertOperator
  split
  · simp [Release.weight, Progress.weight]
  · next incoming _ =>
    specialize hr incoming
    split
    · exact Nat.le_trans (weight_wait_le _ _ _) (by simp)
    · split
      · next released top h =>
        rw [h] at hr
        simp only [Release.weight, Progress.weight] at hr ⊢
        omega
      · next released rest h =>
        rw [h] at hr
        have hw := weight_wait_le released t rest
        simp only at hr
        omega

theorem weight_convertSeparator_le (stack : List Token) (t : Token) :
    (convertSeparator stack t).weight ≤ 2 * stack.length + 5 := by
  have hl := length_aboveOpen_add stack
  unfold convertSeparator
  split <;> simp_all only [Release.weight, Progress.weight, List.length_cons, List.length_nil]
    <;> omega

theorem weight_convertClose_le (stack : List Token) (t : Token) :
    (convertClose stack t).weight ≤ 2 * stack.length + 5 := by
  have hl := length_aboveOpen_add stack
  unfold convertClose
  split
  · simp_all only [Release.weight, Progress.weight, List.length_nil]
    omega
  · simp_all only [Release.weight, Progress.weight, List.length_cons, List.length_nil]
    omega
  · split <;> simp_all only [Release.weight, Progress.weight, List.length_cons, List.length_append,
      List.length_nil] <;> omega

/-- The end of the input takes from what may still come. -/
theorem weight_convertEnd_lt (stack : List Token) :
    (convertEnd stack).weight < (Progress.waiting stack).weight := by
  unfold convertEnd
  split <;> simp only [Release.weight, Progress.weight, List.length_nil] <;> omega

/-- A token adds at most itself to what may still come. -/
theorem weight_convertToken_le (operators : Operators) (stack : List Token) (t : Token) :
    (convertToken operators stack t).weight ≤ (Progress.waiting stack).weight + 2 := by
  have he := weight_convertEnd_lt stack
  have hw := weight_wait_le [] t stack
  simp only [Progress.weight, List.length_nil] at he hw ⊢
  unfold convertToken
  split
  any_goals simp only [Release.weight, Progress.weight, List.length_cons, List.length_nil]; omega
  any_goals omega
  · exact weight_convertOperator_le operators stack t
  · exact weight_convertSeparator_le stack t
  · exact weight_convertClose_le stack t

end Formula
