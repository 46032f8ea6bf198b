import Formula.Context
import Formula.Token.Basic

/-!
# The grammar of infix expressions

An expression is a row of operands with operators between them. An operand is a literal, an
operand behind an operator that takes one, an expression in brackets, or a call.

* `Grammar`: which tokens may stand where.
* `Grammar.Derives g part ts`: the tokens `ts` are a `part` of an expression of `g`.
* `Grammar.ofOperators`: the grammar of a table of operators, where every name may be called.
* `Tree`: what an expression says, without brackets and commas; `Tree.postorder` lists its tokens
  with operands and arguments in front of what is applied to them.
* `Tree.Conforms g`: the tokens of a tree stand where they may.
-/

namespace Formula

/-- The operator that a token is, if it takes `n` operands. -/
def Operators.ofArity? (operators : Operators) (n : Nat) (t : Token) : Option Operator :=
  if t.kind = .operator then (operators.find? t.text).filter (·.arity == n) else none

theorem Operators.ofArity?_eq_some {operators : Operators} {n : Nat} {t : Token} {spec : Operator} :
    operators.ofArity? n t = some spec
      ↔ t.kind = .operator ∧ operators.find? t.text = some spec ∧ spec.arity = n := by
  unfold ofArity?
  split
  · next h => simp [h, Option.filter_eq_some_iff]
  · next h => simp [h]

/-- Which tokens may stand where in an infix expression. -/
structure Grammar where
  isLiteral : Token → Prop
  /-- Operators in front of their operand. -/
  isUnary : Token → Prop
  /-- Operators between two operands. -/
  isBinary : Token → Prop
  /-- The names that may be called, each with the numbers of arguments that it may have. -/
  isCallable : Token → Nat → Prop

/-- The parts of an infix expression. -/
inductive Part
  /-- An operand and the links behind it. -/
  | expression
  /-- Operators, each with the operand on its right. -/
  | links
  | operand
  /-- So many expressions, with commas between them. -/
  | arguments (count : Nat)

namespace Grammar

/-- The token lists that are a given part of an expression. -/
inductive Derives (g : Grammar) : Part → List Token → Prop
  | expression {x l : List Token} :
      Derives g .operand x → Derives g .links l → Derives g .expression (x ++ l)
  | noLink : Derives g .links []
  | link {t : Token} {x l : List Token} : g.isBinary t →
      Derives g .operand x → Derives g .links l → Derives g .links (t :: (x ++ l))
  | literal {t : Token} : g.isLiteral t → Derives g .operand [t]
  | unary {t : Token} {x : List Token} :
      g.isUnary t → Derives g .operand x → Derives g .operand (t :: x)
  | group {opening closing : Token} {x : List Token} : opening.kind = .openParen →
      Derives g .expression x → closing.kind = .closeParen →
      Derives g .operand (opening :: (x ++ [closing]))
  | emptyCall {t opening closing : Token} : g.isCallable t 0 →
      opening.kind = .openParen → closing.kind = .closeParen →
      Derives g .operand [t, opening, closing]
  | call {t opening closing : Token} {n : Nat} {xs : List Token} : g.isCallable t n →
      opening.kind = .openParen → Derives g (.arguments n) xs → closing.kind = .closeParen →
      Derives g .operand (t :: opening :: (xs ++ [closing]))
  | argument {x : List Token} : Derives g .expression x → Derives g (.arguments 1) x
  | arguments {comma : Token} {n : Nat} {x xs : List Token} : Derives g .expression x →
      comma.kind = .separator → Derives g (.arguments n) xs →
      Derives g (.arguments (n + 1)) (x ++ comma :: xs)

/-- The grammar of a table of operators: those that take one operand stand in front of it, those
that take two between them, and every name may be called with any number of arguments. -/
def ofOperators (operators : Operators) : Grammar where
  isLiteral t := t.isLiteral = true
  isUnary t := (operators.ofArity? 1 t).isSome
  isBinary t := (operators.ofArity? 2 t).isSome
  isCallable t _ := t.kind = .identifier

/-- Every token that may stand somewhere in `g` may stand there in `g'`. -/
structure Within (g g' : Grammar) : Prop where
  literal : ∀ {t}, g.isLiteral t → g'.isLiteral t
  unary : ∀ {t}, g.isUnary t → g'.isUnary t
  binary : ∀ {t}, g.isBinary t → g'.isBinary t
  callable : ∀ {t n}, g.isCallable t n → g'.isCallable t n

theorem Within.refl (g : Grammar) : g.Within g := ⟨id, id, id, id⟩

variable {g : Grammar} {part : Part} {ts : List Token}

/-- What is said of all literals of an expression may be asked of the literals of its grammar. -/
theorem Derives.withLiterals {P : Token → Prop} (h : g.Derives part ts)
    (hP : ∀ t ∈ ts, g.isLiteral t → P t) : Derives { g with isLiteral := P } part ts := by
  induction h with
  | expression _ _ ihx ihl =>
    exact .expression (ihx fun t ht => hP t (by simp [ht])) (ihl fun t ht => hP t (by simp [ht]))
  | noLink => exact .noLink
  | link hb _ _ ihx ihl =>
    exact .link hb (ihx fun t ht => hP t (by simp [ht])) (ihl fun t ht => hP t (by simp [ht]))
  | literal hl => exact .literal (hP _ (by simp) hl)
  | unary hu _ ihx => exact .unary hu (ihx fun t ht => hP t (by simp [ht]))
  | group ho _ hc ihx => exact .group ho (ihx fun t ht => hP t (by simp [ht])) hc
  | emptyCall hn ho hc => exact .emptyCall hn ho hc
  | call hn ho _ hc ihxs => exact .call hn ho (ihxs fun t ht => hP t (by simp [ht])) hc
  | argument _ ihx => exact .argument (ihx hP)
  | arguments _ hs _ ihx ihxs =>
    exact .arguments (ihx fun t ht => hP t (by simp [ht])) hs
      (ihxs fun t ht => hP t (by simp [ht]))

end Grammar

/-- What an expression says: what is applied to what. Each node has the token that it comes
from. -/
inductive Tree
  | literal (t : Token)
  /-- An operator in front of its operand. -/
  | unary (t : Token) (x : Tree)
  /-- An operator between its operands. -/
  | binary (t : Token) (left right : Tree)
  /-- A function and its arguments. -/
  | call (t : Token) (args : List Tree)

namespace Tree

mutual

/-- The tokens of a tree, operands and arguments first. -/
def postorder : Tree → List Token
  | literal t => [t]
  | unary t x => x.postorder ++ [t]
  | binary t left right => left.postorder ++ right.postorder ++ [t]
  | call t args => postorders args ++ [t]

/-- The tokens of trees in a row. -/
def postorders : List Tree → List Token
  | [] => []
  | x :: xs => x.postorder ++ postorders xs

end

theorem mem_postorders {t : Token} {xs : List Tree} :
    t ∈ postorders xs ↔ ∃ x ∈ xs, t ∈ x.postorder := by
  induction xs with
  | nil => simp [postorders]
  | cons x xs ih => simp [postorders, ih]

theorem postorders_append (xs ys : List Tree) :
    postorders (xs ++ ys) = postorders xs ++ postorders ys := by
  induction xs with
  | nil => rfl
  | cons x xs ih => rw [List.cons_append, postorders, postorders, ih, List.append_assoc]

/-- The tokens of a tree stand where they may, and calls have as many arguments as they may. -/
inductive Conforms (g : Grammar) : Tree → Prop
  | literal {t : Token} : g.isLiteral t → Conforms g (.literal t)
  | unary {t : Token} {x : Tree} : g.isUnary t → Conforms g x → Conforms g (.unary t x)
  | binary {t : Token} {left right : Tree} : g.isBinary t →
      Conforms g left → Conforms g right → Conforms g (.binary t left right)
  | call {t : Token} {args : List Tree} : g.isCallable t args.length →
      (∀ x ∈ args, Conforms g x) → Conforms g (.call t args)

/-- The tokens of a tree are literals, operators and names. -/
theorem Conforms.kind_of_mem_postorder {operators : Operators} {g : Grammar} {x : Tree}
    (hx : x.Conforms g) (hg : g.Within (.ofOperators operators)) {u : Token}
    (hu : u ∈ x.postorder) : u.isLiteral = true ∨ u.kind = .operator ∨ u.kind = .identifier := by
  induction hx with
  | literal ht =>
    rw [postorder, List.mem_singleton] at hu
    subst hu
    exact .inl (hg.literal ht)
  | unary ht _ ih =>
    rw [postorder, List.mem_append, List.mem_singleton] at hu
    rcases hu with hu | rfl
    · exact ih hu
    · obtain ⟨s, hs⟩ := Option.isSome_iff_exists.1 (hg.unary ht)
      exact .inr (.inl (Operators.ofArity?_eq_some.1 hs).1)
  | binary ht _ _ ihl ihr =>
    rw [postorder, List.mem_append, List.mem_append, List.mem_singleton] at hu
    rcases hu with (hu | hu) | rfl
    · exact ihl hu
    · exact ihr hu
    · obtain ⟨s, hs⟩ := Option.isSome_iff_exists.1 (hg.binary ht)
      exact .inr (.inl (Operators.ofArity?_eq_some.1 hs).1)
  | call ht _ ih =>
    rw [postorder, List.mem_append, List.mem_singleton] at hu
    rcases hu with hu | rfl
    · obtain ⟨y, hy, huy⟩ := mem_postorders.1 hu
      exact ih y hy huy
    · exact .inr (.inr (hg.callable ht))

theorem Conforms.kind_ne_of_mem_postorder {operators : Operators} {g : Grammar} {x : Tree}
    (hx : x.Conforms g) (hg : g.Within (.ofOperators operators)) {u : Token}
    (hu : u ∈ x.postorder) : u.kind ≠ .illegal ∧ u.kind ≠ .endOfInput := by
  constructor <;> intro hk <;>
    rcases hx.kind_of_mem_postorder hg hu with hkind | hkind | hkind <;>
      simp [Token.isLiteral, hk] at hkind

end Tree

end Formula
