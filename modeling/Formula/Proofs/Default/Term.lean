import Formula.Proofs.Default.Grammar
import Formula.Proofs.Postfix.Token

/-!
# Terms of the built-in operators and functions

A term is evaluated by recursion. Executing the tokens of its tree in postorder on any stack does
the same, unless too many operands wait on the way.

* `Term`, `Term.operand`: a term and its operand.
* `Tree.term?`: the term of a tree.
* `Computes`: tokens that put the outcome of a term on any stack.
* `term?_of_conforms`: every tree of the grammar has a term, which its tokens compute.
-/

namespace Formula

/-- An expression of the built-in operators and functions. An application has the position of its
operator or name. -/
inductive Term
  | literal (t : Token)
  | negation (position : Nat) (x : Term)
  | binary (b : BinaryBuiltin) (position : Nat) (left right : Term)

namespace Term

/-- The operand that a term stands for. The left operand is found before the right one, and both
before they are combined; the first error is that of the term. -/
def operand : Term → Except EvalError Operand
  | literal t => Operand.ofLiteral t
  | negation position x => do
    let x ← x.operand
    let v ← negate x
    return .ofResult v position
  | binary b position left right => do
    let l ← left.operand
    let r ← right.operand
    let v ← b.combine position l r
    return .ofResult v position

/-- All literals of a term are as required. -/
def Literals (P : Token → Prop) : Term → Prop
  | literal t => P t
  | negation _ x => x.Literals P
  | binary _ _ left right => left.Literals P ∧ right.Literals P

theorem Literals.imp {P Q : Token → Prop} (hPQ : ∀ t, P t → Q t) {e : Term} (h : e.Literals P) :
    e.Literals Q := by
  induction e with
  | literal t => exact hPQ t h
  | negation _ x ih => exact ih h
  | binary _ _ left right ihl ihr => exact ⟨ihl h.1, ihr h.2⟩

end Term

/-- The term of a tree, if its operators and functions are built in and have two arguments where
they should. -/
def Tree.term? : Tree → Option Term
  | .literal t => some (.literal t)
  | .unary t x => if t.text = "!" then x.term?.map (.negation t.position) else none
  | .binary t left right => do
    let b ← BinaryBuiltin.ofSymbol? t.text
    let l ← left.term?
    let r ← right.term?
    return .binary b t.position l r
  | .call t [left, right] => do
    let b ← BinaryBuiltin.ofName? t.text
    let l ← left.term?
    let r ← right.term?
    return .binary b t.position l r
  | .call _ _ => none

/-! ## The tokens of a term -/

/-- Tokens take a stack to an outcome, unless too many operands wait on the way. -/
def Reaches (s : OperandStack) (ts : List Token) (outcome : Except EvalError OperandStack) : Prop :=
  executeTokens .default s ts = outcome ∨
    (executeTokens .default s ts = .error (.capacityExceeded .operandStack) ∧
      stackCapacity < s.length + ts.length)

/-- Tokens put an outcome on any stack, unless too many operands wait on the way. -/
structure Computes (ts : List Token) (outcome : Except EvalError Operand) : Prop where
  ne_nil : ts ≠ []
  reaches : ∀ s, Reaches s ts (outcome.map (· :: s))

/-- One token that pushes what it makes of the operands above `s`. -/
theorem reaches_of_pushed {α : Type} {t : Token} {stack s : OperandStack} {x : α → Operand}
    {result : Except EvalError α} (hlen : s.length ≤ stack.length)
    (h : executeTokens .default stack [t] = result >>= fun a => pushed s (x a)) :
    Reaches stack [t] (result.map fun a => x a :: s) := by
  cases result with
  | error e => exact .inl h
  | ok a =>
    by_cases hfull : stackCapacity ≤ s.length
    · refine .inr ⟨h.trans (if_pos hfull), ?_⟩
      rw [List.length_singleton]
      omega
    · exact .inl (h.trans (if_neg hfull))

theorem Computes.andThen {ts us : List Token} {outcome : Except EvalError Operand}
    {s : OperandStack} {next : Operand → Except EvalError OperandStack} (h : Computes ts outcome)
    (hnext : ∀ x, Reaches (x :: s) us (next x)) : Reaches s (ts ++ us) (outcome >>= next) := by
  have hpos := List.length_pos_iff.2 h.ne_nil
  rw [Reaches, executeTokens_append, List.length_append]
  rcases h.reaches s with hrun | ⟨hrun, hlt⟩
  · rw [hrun]
    cases outcome with
    | error e => exact .inl rfl
    | ok x =>
      rcases hnext x with hrun' | ⟨hrun', hlt⟩
      · exact .inl hrun'
      · refine .inr ⟨hrun', ?_⟩
        rw [List.length_cons] at hlt
        omega
  · refine .inr ⟨by rw [hrun]; rfl, ?_⟩
    omega

theorem computes_literal {t : Token} (h : t.isLiteral = true) :
    Computes [t] (Term.literal t).operand :=
  ⟨List.cons_ne_nil _ _, fun _ => reaches_of_pushed (Nat.le_refl _) (executeTokens_literal h)⟩

theorem computes_negation {ts : List Token} {t : Token} {x : Term} (hk : t.kind = .operator)
    (ht : t.text = "!") (hx : Computes ts x.operand) :
    Computes (ts ++ [t]) (Term.negation t.position x).operand := by
  have hfind : Context.default.operator? t.text = some (.unary Precedence.prefixed negation) := by
    rw [ht]
    exact operator?_default_negation
  refine ⟨by simp, fun s => ?_⟩
  have hout : (Term.negation t.position x).operand.map (· :: s) = x.operand >>= fun o =>
      (negate o).map fun v => .ofResult v t.position :: s := by
    rw [Term.operand]
    cases x.operand with
    | error e => rfl
    | ok o => cases hv : negate o <;> simp only [bind, Except.bind, hv] <;> rfl
  rw [hout]
  refine hx.andThen fun o => reaches_of_pushed (Nat.le_succ _) ?_
  exact executeTokens_operator hk hfind (Nat.le_add_left 1 _) (run_negation t o s)

/-- A token that combines the two operands above it. -/
theorem computes_binary {ls rs : List Token} {t : Token} {b : BinaryBuiltin} {left right : Term}
    (hstep : ∀ l r s, executeTokens .default (r :: l :: s) [t]
      = b.combine t.position l r >>= fun v => pushed s (.ofResult v t.position))
    (hl : Computes ls left.operand) (hr : Computes rs right.operand) :
    Computes (ls ++ rs ++ [t]) (Term.binary b t.position left right).operand := by
  refine ⟨by simp, fun s => ?_⟩
  have hout : (Term.binary b t.position left right).operand.map (· :: s)
      = left.operand >>= fun l => right.operand >>= fun r =>
        (b.combine t.position l r).map fun v => .ofResult v t.position :: s := by
    rw [Term.operand]
    cases left.operand with
    | error e => rfl
    | ok l =>
      cases right.operand with
      | error e => rfl
      | ok r => cases hv : b.combine t.position l r <;> simp only [bind, Except.bind, hv] <;> rfl
  rw [hout, List.append_assoc]
  refine hl.andThen fun l => hr.andThen fun r => reaches_of_pushed ?_ (hstep l r s)
  exact Nat.le_add_right _ 2

/-- **Every tree of the grammar has a term, and its tokens compute the operand of this term.** -/
theorem term?_of_conforms {P : Token → Prop} (hP : ∀ t, P t → t.isLiteral = true) {x : Tree}
    (h : x.Conforms { Grammar.builtin with isLiteral := P }) :
    ∃ e, x.term? = some e ∧ e.Literals P ∧ Computes x.postorder e.operand := by
  induction h with
  | @literal t ht => exact ⟨.literal t, rfl, ht, computes_literal (hP t ht)⟩
  | @unary t x ht _ ih =>
    obtain ⟨e, hx, hlit, hcomp⟩ := ih
    refine ⟨.negation t.position e, ?_, hlit, computes_negation ht.1 ht.2 hcomp⟩
    rw [Tree.term?, if_pos ht.2, hx]
    rfl
  | @binary t left right ht _ _ ihl ihr =>
    obtain ⟨b, hb⟩ := Option.isSome_iff_exists.1 ht.2
    obtain ⟨p, -, hfind⟩ := operator?_default_of_ofSymbol? hb
    obtain ⟨l, hl, hlitl, hcompl⟩ := ihl
    obtain ⟨r, hr, hlitr, hcompr⟩ := ihr
    refine ⟨.binary b t.position l r, ?_, ⟨hlitl, hlitr⟩, computes_binary ?_ hcompl hcompr⟩
    · rw [Tree.term?, hb, hl, hr]
      rfl
    · exact fun x y s => executeTokens_operator ht.1 hfind (Nat.le_add_left 2 _)
        (run_operation b t x y s)
  | @call t args ht _ ih =>
    obtain ⟨hk, hname, hlen⟩ := ht
    obtain ⟨b, hb⟩ := Option.isSome_iff_exists.1 hname
    obtain ⟨key, hfind⟩ := function?_default_of_ofName? hb
    -- all functions that are built in have two arguments
    obtain ⟨left, right, rfl⟩ : ∃ left right, args = [left, right] := by
      match args, hlen with
      | [left, right], _ => exact ⟨left, right, rfl⟩
    obtain ⟨l, hl, hlitl, hcompl⟩ := ih left (by simp)
    obtain ⟨r, hr, hlitr, hcompr⟩ := ih right (by simp)
    refine ⟨.binary b t.position l r, ?_, ⟨hlitl, hlitr⟩, ?_⟩
    · rw [Tree.term?, hb, hl, hr]
      rfl
    · rw [Tree.postorder, Tree.postorders, Tree.postorders, Tree.postorders, List.append_nil]
      exact computes_binary (fun x y s => executeTokens_function hk hfind
        (run_operation b t x y s)) hcompl hcompr

end Formula
