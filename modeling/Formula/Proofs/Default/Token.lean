import Formula.Proofs.Default.Errors
import Formula.Proofs.Default.Grammar

/-!
# What one token does in the default context

* `Token.arity?`: how many operands a token takes, if it is a literal or built in;
  `arity?_eq_some_iff`: which tokens these are.
* `Token.FailsOn`: how it may fail with its operands; `executeTokens_of_arity?`: it takes them and
  pushes one, or fails so.
* `executeTokens_of_lt_arity?`, `executeTokens_of_arity?_eq_none`: with too few operands it fails,
  and so do all other tokens but the mark of the end.
* `arity?_of_executeTokens`, `full_of_executeTokens`: what can be told from a stack or from a lack
  of room afterwards.
-/

namespace Formula

/-- How many operands a token takes, if it is a literal or built in. -/
def Token.arity? (t : Token) : Option Nat :=
  match t.kind with
  | .integer | .float | .string => some 0
  | .operator =>
    if t.text = "!" then some 1 else (BinaryBuiltin.ofSymbol? t.text).map fun _ => 2
  | .identifier => (BinaryBuiltin.ofName? t.text).map fun _ => 2
  | .openParen | .closeParen | .separator | .endOfInput | .illegal => none

/-- How a token that has its operands may fail: as a literal without a value, or because of the
operands. -/
def Token.FailsOn (t : Token) (xs : List Operand) (e : EvalError) : Prop :=
  (t.isLiteral = true ∧ ∃ problem, e = .syntaxError t.position problem) ∨
    e.IsCausedBy xs t.position

/-- An error that is no lack of room for operands. -/
abbrev EvalError.LeavesRoom (e : EvalError) : Prop := e ≠ .capacityExceeded .operandStack

theorem Token.FailsOn.leavesRoom {t : Token} {xs : List Operand} {e : EvalError}
    (h : t.FailsOn xs e) : e.LeavesRoom := by
  rcases h with ⟨-, problem, rfl⟩ | ⟨x, -, requirement, rfl⟩ | rfl <;> exact EvalError.noConfusion

theorem exists_cons_cons_of_length {α : Type} {stack : List α} (h : 2 ≤ stack.length) :
    ∃ right left below, stack = right :: left :: below := by
  match stack, h with
  | right :: left :: below, _ => exact ⟨right, left, below, rfl⟩

section Tokens

variable {t : Token} {n : Nat} {s stack : OperandStack}

theorem arity?_literal (h : Grammar.builtin.isLiteral t) : t.arity? = some 0 := by
  simp only [Grammar.builtin, Token.isLiteral, Bool.or_eq_true, beq_iff_eq] at h
  rcases h with (h | h) | h <;> simp only [Token.arity?, h]

theorem arity?_unary (h : Grammar.builtin.isUnary t) : t.arity? = some 1 := by
  simp only [Token.arity?, h.1, if_pos h.2]

theorem arity?_binary (h : Grammar.builtin.isBinary t) : t.arity? = some 2 := by
  obtain ⟨hk, hsymbol⟩ := h
  have hneg : t.text ≠ "!" := by
    intro ht
    rw [ht] at hsymbol
    exact absurd hsymbol (by decide +kernel)
  obtain ⟨b, hb⟩ := Option.isSome_iff_exists.1 hsymbol
  simp only [Token.arity?, hk, if_neg hneg, hb, Option.map_some]

theorem arity?_call (h : Grammar.builtin.isCallable t n) : t.arity? = some n := by
  obtain ⟨hk, hname, rfl⟩ := h
  obtain ⟨b, hb⟩ := Option.isSome_iff_exists.1 hname
  simp only [Token.arity?, hk, hb, Option.map_some]

/-- What a token takes is what it may be applied to in the grammar. -/
theorem arity?_eq_some_iff :
    t.arity? = some n ↔
      n = 0 ∧ Grammar.builtin.isLiteral t ∨ n = 1 ∧ Grammar.builtin.isUnary t ∨
        n = 2 ∧ (Grammar.builtin.isBinary t ∨ Grammar.builtin.isCallable t 2) := by
  constructor
  · intro h
    cases hk : t.kind <;> simp only [Token.arity?, hk] at h
    case integer | float | string =>
      exact .inl ⟨(Option.some.inj h).symm, by simp [Grammar.builtin, Token.isLiteral, hk]⟩
    case operator =>
      split at h
      · next ht => exact .inr (.inl ⟨(Option.some.inj h).symm, hk, ht⟩)
      · obtain ⟨b, hb, hn⟩ := Option.map_eq_some_iff.1 h
        exact .inr (.inr ⟨hn.symm, .inl ⟨hk, by rw [hb]; rfl⟩⟩)
    case identifier =>
      obtain ⟨b, hb, hn⟩ := Option.map_eq_some_iff.1 h
      exact .inr (.inr ⟨hn.symm, .inr ⟨hk, by rw [hb]; rfl, rfl⟩⟩)
    all_goals cases h
  · rintro (⟨rfl, h⟩ | ⟨rfl, h⟩ | ⟨rfl, h | h⟩)
    · exact arity?_literal h
    · exact arity?_unary h
    · exact arity?_binary h
    · exact arity?_call h

/-! ## Execution -/

/-- A literal or what is built in takes its operands and pushes one, unless it fails. -/
theorem executeTokens_of_arity? (harity : t.arity? = some n) (hle : n ≤ stack.length) :
    ∃ outcome, FailsWith (t.FailsOn (stack.take n)) outcome ∧
      executeTokens .default stack [t] = outcome >>= pushed (stack.drop n) := by
  have hresult : ∀ {xs result}, FailsWith (EvalError.IsCausedBy xs t.position) result →
      xs ⊆ stack.take n →
      executeTokens .default stack [t]
        = (result >>= fun v => pushed (stack.drop n) (.ofResult v t.position)) →
      ∃ outcome, FailsWith (t.FailsOn (stack.take n)) outcome ∧
        executeTokens .default stack [t] = outcome >>= pushed (stack.drop n) := by
    intro xs result hcaused hsub hrun
    refine ⟨result.map (Operand.ofResult · t.position),
      (hcaused.imp fun _ he => .inr (he.mono hsub)).map _, hrun.trans ?_⟩
    cases result <;> rfl
  -- a literal, the operator with one operand, those with two, and the functions
  rcases arity?_eq_some_iff.1 harity with ⟨rfl, h⟩ | ⟨rfl, h⟩ | ⟨rfl, h | h⟩
  · exact ⟨Operand.ofLiteral t, (ofLiteral_failsWith t).imp fun _ he => .inl ⟨h, he⟩,
      executeTokens_literal h⟩
  · obtain ⟨x, below, rfl⟩ := List.exists_cons_of_length_pos hle
    exact hresult (negate_causedBy t.position x) (List.Subset.refl _)
      (executeTokens_operator h.1 (operator?_default_of_isUnary h) hle (run_negation t x below))
  · obtain ⟨p, b, hfind⟩ := operator?_default_of_isBinary h
    obtain ⟨right, left, below, rfl⟩ := exists_cons_cons_of_length hle
    exact hresult (b.combine_causedBy t.position left right) (by simp)
      (executeTokens_operator h.1 hfind hle (run_operation b t left right below))
  · obtain ⟨key, b, hfind⟩ := function?_default_of_isCallable h
    obtain ⟨right, left, below, rfl⟩ := exists_cons_cons_of_length hle
    exact hresult (b.combine_causedBy t.position left right) (by simp)
      (executeTokens_function h.1 hfind (run_operation b t left right below))

/-- Where operands are missing, a token fails: an operator beforehand, a function when it pops. -/
theorem executeTokens_of_lt_arity? (harity : t.arity? = some n) (hlt : stack.length < n) :
    ∃ misfit, executeTokens .default stack [t]
      = .error (.malformedExpression (some t.position) misfit) := by
  rcases arity?_eq_some_iff.1 harity with ⟨rfl, -⟩ | ⟨rfl, h⟩ | ⟨rfl, h | h⟩
  · exact absurd hlt (Nat.not_lt_zero _)
  · exact ⟨_, executeTokens_tooFewOperands h.1 (operator?_default_of_isUnary h) hlt⟩
  · obtain ⟨p, b, hfind⟩ := operator?_default_of_isBinary h
    exact ⟨_, executeTokens_tooFewOperands h.1 hfind hlt⟩
  · obtain ⟨key, b, hfind⟩ := function?_default_of_isCallable h
    have hmissing : (b.operation t).run.run stack = (.error (missingOperand t), []) := by
      match stack, hlt with
      | [], _ => exact run_operation_nil b t
      | [x], _ => exact run_operation_singleton b t x
    exact ⟨_, executeTokens_function h.1 hfind hmissing⟩

theorem executeTokens_of_arity?_eq_none (stack : OperandStack) (h : t.arity? = none)
    (hend : t.kind ≠ .endOfInput) :
    ∃ e, executeTokens .default stack [t] = .error e ∧ e.LeavesRoom := by
  cases hk : t.kind <;> simp only [Token.arity?, hk] at h
  case integer | float | string => cases h
  case operator =>
    split at h
    · cases h
    · next hneg =>
      have hfind := operator?_default_eq_none hneg (Option.map_eq_none_iff.1 h)
      exact ⟨_, executeTokens_undefinedOperator hk hfind, by simp [undefinedOperator]⟩
  case identifier =>
    have hfind := function?_default_eq_none (Option.map_eq_none_iff.1 h)
    exact ⟨_, executeTokens_unknownFunction hk hfind, by simp⟩
  case openParen | closeParen | separator =>
    exact ⟨_, executeTokens_structural (by simp [hk]), by simp⟩
  case endOfInput => exact absurd hk hend
  case illegal => exact ⟨_, executeTokens_illegal hk, by simp [illegalToken]⟩

/-- Behind a token that has not failed, its operands are gone and one is there. -/
theorem arity?_of_executeTokens (hend : t.kind ≠ .endOfInput)
    (h : executeTokens .default stack [t] = .ok s) :
    ∃ n, t.arity? = some n ∧ n ≤ stack.length ∧ s.length + n = stack.length + 1 ∧
      s.length ≤ stackCapacity := by
  cases ht : t.arity? with
  | none =>
    obtain ⟨e, he, -⟩ := executeTokens_of_arity?_eq_none stack ht hend
    rw [he] at h
    cases h
  | some n =>
    rcases Nat.lt_or_ge stack.length n with hlt | hle
    · obtain ⟨misfit, he⟩ := executeTokens_of_lt_arity? ht hlt
      rw [he] at h
      cases h
    · obtain ⟨outcome, -, hrun⟩ := executeTokens_of_arity? ht hle
      rw [hrun] at h
      cases outcome with
      | error e => cases h
      | ok x =>
        obtain ⟨hroom, rfl⟩ := pushed_eq_ok_iff.1 h
        refine ⟨n, rfl, hle, ?_, hroom⟩
        rw [List.length_cons, List.length_drop]
        omega

/-- Only a token that is built in, and has its operands, fails for lack of room. -/
theorem full_of_executeTokens (hend : t.kind ≠ .endOfInput)
    (h : executeTokens .default stack [t] = .error (.capacityExceeded .operandStack)) :
    ∃ n, t.arity? = some n ∧ stackCapacity + n ≤ stack.length := by
  cases ht : t.arity? with
  | none =>
    obtain ⟨e, he, hroom⟩ := executeTokens_of_arity?_eq_none stack ht hend
    rw [he] at h
    exact absurd (Except.error.inj h) hroom
  | some n =>
    rcases Nat.lt_or_ge stack.length n with hlt | hle
    · obtain ⟨misfit, he⟩ := executeTokens_of_lt_arity? ht hlt
      rw [he] at h
      cases h
    · obtain ⟨outcome, hfails, hrun⟩ := executeTokens_of_arity? ht hle
      rw [hrun] at h
      cases outcome with
      | error e => exact absurd (Except.error.inj h) (hfails e rfl).leavesRoom
      | ok x =>
        obtain ⟨hfull, -⟩ := pushed_eq_error_iff.1 h
        refine ⟨n, rfl, ?_⟩
        rw [List.length_drop] at hfull
        omega

end Tokens

end Formula
