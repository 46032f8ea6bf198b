import Formula.Proofs.Default.Token
import Formula.Proofs.Postfix.Origin
import Formula.Proofs.Token.Munch
import Formula.Proofs.Token.Positions

/-!
# Errors point at their source

Positions go from tokens into operands and from both into errors. An error that has a position has
that of a token of the source, and what it quotes is what this token says, or what the token has
been evaluated to.

* `top_of_executeTokens`, `stack_of_executeTokens`: what a token pushes has the position of the
  token, and what lies below was there before.
* `ComesTo.exists_pushed`: every operand has been pushed by a token.
* `failure_of_executeTokens`: the errors of one token.
* `PointsAt`: what each error says of the token at its position. `eval_pointsAt`: it does so.
-/

namespace Formula

/-! ## Operands -/

section Operands

variable {ctx : Context} {t : Token} {s stack : OperandStack} {x : Operand}

theorem position_ofResult (v : Value) (position : Nat) :
    (Operand.ofResult v position).position = position := by
  cases v <;> rfl

theorem of_ofLiteral (h : Operand.ofLiteral t = .ok x) :
    x.text = t.text ∧ x.position = t.position := by
  unfold Operand.ofLiteral at h
  repeat' split at h
  all_goals cases h
  all_goals exact ⟨rfl, rfl⟩

theorem Token.IsApplied.not_isLiteral (h : t.IsApplied) : ¬ t.isLiteral = true := by
  rcases h with hk | hk <;> simp [Token.isLiteral, hk]

theorem eq_of_bind_pushed {α : Type} {result : Except EvalError α} {y : α → Operand}
    (h : (result >>= fun a => pushed s (y a)) = .ok stack) :
    ∃ a, result = .ok a ∧ stack = y a :: s := by
  cases result with
  | error e => cases h
  | ok a => exact ⟨a, rfl, (pushed_eq_ok_iff.1 h).2⟩

/-- A result has the position of what was applied. -/
theorem top_of_apply {below : OperandStack} {result : Except EvalError Value} (happ : t.IsApplied)
    (h : (result >>= fun v => pushed below (.ofResult v t.position)) = .ok s) :
    ∃ x below, s = x :: below ∧ x.position = t.position ∧
      (t.isLiteral = true → x.text = t.text) := by
  obtain ⟨v, -, rfl⟩ := eq_of_bind_pushed h
  exact ⟨_, below, rfl, position_ofResult v _, fun hlit => absurd hlit happ.not_isLiteral⟩

/-- What a token pushes has its position, and that of a literal has its text. -/
theorem top_of_executeTokens (hend : t.kind ≠ .endOfInput)
    (h : executeTokens ctx stack [t] = .ok s) :
    ∃ x below, s = x :: below ∧ x.position = t.position ∧
      (t.isLiteral = true → x.text = t.text) := by
  cases hk : t.kind with
  | integer | float | string =>
    rw [executeTokens_literal (by simp [Token.isLiteral, hk])] at h
    obtain ⟨x, hx, rfl⟩ := eq_of_bind_pushed (y := id) h
    exact ⟨x, stack, rfl, (of_ofLiteral hx).2, fun _ => (of_ofLiteral hx).1⟩
  | operator =>
    cases hfind : ctx.operator? t.text with
    | none =>
      rw [executeTokens_undefinedOperator hk hfind] at h
      cases h
    | some spec =>
      by_cases harity : spec.arity ≤ stack.length
      · rw [executeTokens_operator hk hfind harity rfl] at h
        exact top_of_apply (.inl hk) h
      · rw [executeTokens_tooFewOperands hk hfind (Nat.not_le.1 harity)] at h
        cases h
  | identifier =>
    cases hfind : ctx.function? t.text with
    | none =>
      rw [executeTokens_unknownFunction hk hfind] at h
      cases h
    | some spec =>
      rw [executeTokens_function hk hfind rfl] at h
      exact top_of_apply (.inr hk) h
  | endOfInput => exact absurd hk hend
  | illegal =>
    rw [executeTokens_illegal hk] at h
    cases h
  | openParen | closeParen | separator =>
    rw [executeTokens_structural (by simp [hk])] at h
    cases h

/-- In the default context a token leaves what lies below its operands as it was. -/
theorem stack_of_executeTokens (hend : t.kind ≠ .endOfInput)
    (h : executeTokens .default stack [t] = .ok s) : ∃ x n, s = x :: stack.drop n := by
  obtain ⟨n, harity, hle, -⟩ := arity?_of_executeTokens hend h
  obtain ⟨outcome, -, hrun⟩ := executeTokens_of_arity? harity hle
  obtain ⟨x, -, hs⟩ := eq_of_bind_pushed (y := id) (hrun.symm.trans h)
  exact ⟨x, n, hs⟩

/-- Every operand has been pushed by one of the tokens that were executed. -/
theorem exists_pushed_of_mem {ts : List Token} (hend : ∀ t ∈ ts, t.kind ≠ .endOfInput)
    (h : executeTokens .default [] ts = .ok stack) (hx : x ∈ stack) :
    ∃ front u back stack' below, ts = front ++ u :: back ∧
      executeTokens .default [] front = .ok stack' ∧
      executeTokens .default stack' [u] = .ok (x :: below) := by
  induction ts using List.reverseRecOn generalizing stack with
  | nil =>
    cases h
    cases hx
  | append_singleton ts t ih =>
    obtain ⟨hend, ht⟩ := List.forall_mem_append.1 hend
    obtain ⟨next, hnext, hlast⟩ := (executeTokens_append_eq_ok_iff _).1 h
    obtain ⟨y, n, rfl⟩ := stack_of_executeTokens (ht t (by simp)) hlast
    -- The last token has pushed the operand, or it lies below the operands of that token.
    rcases List.mem_cons.1 hx with rfl | hx
    · exact ⟨ts, t, [], next, _, rfl, hnext, hlast⟩
    · obtain ⟨front, u, back, stack', below, rfl, hfront, hu⟩ :=
        ih hend hnext (List.mem_of_mem_drop hx)
      exact ⟨front, u, back ++ [t], stack', below, by simp, hfront, hu⟩

theorem ComesTo.exists_pushed {expression : String} (h : ComesTo .default expression stack t)
    (hx : x ∈ stack) :
    ∃ u stack' below, ComesTo .default expression stack' u ∧
      executeTokens .default stack' [u] = .ok (x :: below) := by
  obtain ⟨before, after, hitems, hrun⟩ := h
  have hend : ∀ u ∈ before, u.kind ≠ .endOfInput := fun u hu =>
    (mem_convertItems (by rw [hitems]; simp [hu])).2.ne_endOfInput
  obtain ⟨front, u, back, stack', below, rfl, hfront, hu⟩ := exists_pushed_of_mem hend hrun hx
  refine ⟨u, stack', below, ⟨front, back.map .ok ++ .ok t :: after, ?_, hfront⟩, hu⟩
  rw [hitems, List.map_append, List.map_cons, List.append_assoc, List.cons_append]

end Operands

/-! ## Errors of one token -/

section Failures

variable {t : Token} {s stack : OperandStack} {e : EvalError}

/-- An operator or a name that is not built in is reported as such. -/
theorem failure_of_arity?_eq_none (happ : t.IsApplied) (harity : t.arity? = none)
    (h : executeTokens .default stack [t] = .error e) :
    t.Offends e ∨ t.kind = .identifier ∧ e = .unknownFunction t.text t.position := by
  rcases happ with hk | hk <;> simp only [Token.arity?, hk] at harity
  · split at harity
    · cases harity
    · next hneg =>
      have hfind := operator?_default_eq_none hneg (Option.map_eq_none_iff.1 harity)
      rw [executeTokens_undefinedOperator hk hfind] at h
      cases h
      exact .inl (.undefinedOperator hk)
  · have hfind := function?_default_eq_none (Option.map_eq_none_iff.1 harity)
    rw [executeTokens_unknownFunction hk hfind] at h
    cases h
    exact .inr ⟨hk, rfl⟩

/-- An operator or a function of the default context fails because operands are missing or of the
wrong kind, or because there is no room for its result. -/
theorem failure_of_isApplied (happ : t.IsApplied)
    (h : executeTokens .default stack [t] = .error e) :
    e = .capacityExceeded .operandStack ∨ t.Offends e ∨
      t.kind = .identifier ∧ e = .unknownFunction t.text t.position ∨
      (∃ misfit, e = .malformedExpression (some t.position) misfit) ∨
      e.IsCausedBy stack t.position := by
  cases harity : t.arity? with
  | none =>
    rcases failure_of_arity?_eq_none happ harity h with hoffends | hunknown
    · exact .inr (.inl hoffends)
    · exact .inr (.inr (.inl hunknown))
  | some n =>
    rcases Nat.lt_or_ge stack.length n with hlt | hle
    · obtain ⟨misfit, hrun⟩ := executeTokens_of_lt_arity? harity hlt
      exact .inr (.inr (.inr (.inl ⟨misfit, Except.error.inj (h.symm.trans hrun)⟩)))
    · obtain ⟨outcome, hfails, hrun⟩ := executeTokens_of_arity? harity hle
      rw [hrun] at h
      cases outcome with
      | ok x => exact .inl (pushed_eq_error_iff.1 h).2
      | error e' =>
        obtain rfl : e' = e := Except.error.inj h
        rcases hfails e' rfl with ⟨hlit, -⟩ | hcaused
        · exact absurd hlit happ.not_isLiteral
        · exact .inr (.inr (.inr (.inr (hcaused.mono (List.take_subset n stack)))))

/-- A literal of a source text fails only if there is no room for it. -/
theorem failure_of_isLiteral {expression : String} (ht : t ∈ tokenize expression)
    (hlit : t.isLiteral = true) (h : executeTokens .default stack [t] = .error e) :
    e = .capacityExceeded .operandStack := by
  obtain ⟨x, hx⟩ := ofLiteral_of_mem_tokenize ht hlit
  rw [executeTokens_literal hlit, hx] at h
  exact (pushed_eq_error_iff.1 h).2

end Failures

/-! ## What errors say -/

/-- What an error says of the token at its position. -/
def PointsAt (s : String) (t : Token) (e : EvalError) : Prop :=
  match e with
  | .syntaxError _ (.illegal diagnosis) =>
    -- the lexer has found a defect here, and this is its diagnosis
    t.kind = .illegal ∧ t.text = diagnosis ∧ ∃ defect : Defect, diagnosis = defect.message
  | .syntaxError _ (.unknownOperator symbol) =>
    t.kind = .operator ∧ t.text = symbol ∧ Text.IsAt s t.position symbol
  | .syntaxError _ _ => False
  | .unmatchedParenthesis _ found =>
    (t.kind = .openParen ∨ t.kind = .closeParen ∨ t.kind = .separator) ∧ t.text = found ∧
      Text.IsAt s t.position found
  | .unknownFunction name _ =>
    t.kind = .identifier ∧ t.text = name ∧ Text.IsAt s t.position name
  | .divideByZero _ | .malformedExpression _ _ =>
    -- the token fails when it is applied
    t.IsApplied ∧ ∃ stack, ComesTo .default s stack t ∧
      executeTokens .default stack [t] = .error e
  | .typeError operand _ _ =>
    t.isLiteral = true ∧ t.text = operand ∧ Text.IsAt s t.position operand ∨
      -- the token has been applied, and the text is that of the result
      t.IsApplied ∧ ∃ stack x below, ComesTo .default s stack t ∧
        executeTokens .default stack [t] = .ok (x :: below) ∧ x.text = operand
  | .capacityExceeded _ | .nameTooLong | .other _ => False

section Expressions

variable {s : String} {t : Token} {e : EvalError} {p : Nat}

theorem exists_defect_of_mem_tokenize (ht : t ∈ tokenize s) (hk : t.kind = .illegal) :
    ∃ defect : Defect, t.text = defect.message :=
  Lexer.of_mem_tokens (P := fun t => t.kind = .illegal → ∃ defect : Defect,
    t.text = defect.message) Lexer.exists_defect_of_next ht hk

theorem pointsAt_of_offends (ht : t ∈ tokenize s) (h : t.Offends e) :
    e.position? = some t.position ∧ PointsAt s t e := by
  cases h with
  | illegal hk => exact ⟨rfl, hk, rfl, exists_defect_of_mem_tokenize ht hk⟩
  | undefinedOperator hk => exact ⟨rfl, hk, rfl, isAt_of_mem_tokenize ht (by simp [hk])⟩
  | unpaired hk =>
    have hlegal : t.kind ≠ .illegal := by rcases hk with hk | hk | hk <;> simp [hk]
    exact ⟨rfl, hk, rfl, isAt_of_mem_tokenize ht hlegal⟩

/-- An operand that is rejected is that of a literal, or the result of what was applied. -/
theorem pointsAt_reject {stack below : OperandStack} {x : Operand} (requirement : Requirement)
    (hcomes : ComesTo .default s stack t)
    (hrun : executeTokens .default stack [t] = .ok (x :: below)) :
    (x.reject requirement).position? = some t.position ∧ PointsAt s t (x.reject requirement) := by
  obtain ⟨ht, hk⟩ := hcomes.mem
  obtain ⟨y, _, heq, hposition, htext⟩ := top_of_executeTokens hk.ne_endOfInput hrun
  cases heq
  refine ⟨congrArg some hposition, ?_⟩
  rcases hk with hlit | happ | hill
  · have hlegal : t.kind ≠ .illegal := fun hk => by simp [Token.isLiteral, hk] at hlit
    have htext := htext hlit
    exact .inl ⟨hlit, htext.symm, htext ▸ isAt_of_mem_tokenize ht hlegal⟩
  · exact .inr ⟨happ, stack, x, below, hcomes, hrun, rfl⟩
  · rw [executeTokens_illegal hill] at hrun
    cases hrun

theorem exists_pointsAt (h : eval .default s = .error e) :
    e.position? = none ∨ ∃ t ∈ tokenize s, e.position? = some t.position ∧ PointsAt s t e := by
  rcases exists_comesTo_of_eval h with ⟨t, stack, hcomes, hrun⟩ | hconvert | hnone
  · obtain ⟨ht, hk⟩ := hcomes.mem
    rcases hk with hlit | happ | hill
    · exact .inl (by rw [failure_of_isLiteral ht hlit hrun]; rfl)
    · rcases failure_of_isApplied happ hrun with
        rfl | hoff | ⟨hk, rfl⟩ | ⟨misfit, rfl⟩ | ⟨x, hx, requirement, rfl⟩ | rfl
      · exact .inl rfl
      · exact .inr ⟨t, ht, pointsAt_of_offends ht hoff⟩
      · exact .inr ⟨t, ht, rfl, hk, rfl, isAt_of_mem_tokenize ht (by simp [hk])⟩
      · exact .inr ⟨t, ht, rfl, happ, stack, hcomes, hrun⟩
      · obtain ⟨u, stack', below, hcomes', hrun'⟩ := hcomes.exists_pushed hx
        exact .inr ⟨u, hcomes'.mem.1, pointsAt_reject requirement hcomes' hrun'⟩
      · exact .inr ⟨t, ht, rfl, happ, stack, hcomes, hrun⟩
    · rw [executeTokens_illegal hill] at hrun
      cases hrun
      exact .inr ⟨t, ht, pointsAt_of_offends ht (.illegal hill)⟩
  · rcases exists_offends_of_convertTokens hconvert with rfl | ⟨t, ht, hoff⟩
    · exact .inl rfl
    · exact .inr ⟨t, ht, pointsAt_of_offends ht hoff⟩
  · obtain ⟨_, rfl⟩ := hnone
    exact .inl rfl

/-- **Errors point at their source.** The position of an error is that of a token of the source, of
just one. What the error quotes is what this token says, or the text of the result that the token
has been evaluated to; a division by zero or a lack of operands is found where this token is
applied. -/
theorem eval_pointsAt (h : eval .default s = .error e) (hp : e.position? = some p) :
    ∃ t ∈ tokenize s, t.position = p ∧ (∀ u ∈ tokenize s, u.position = p → u = t) ∧
      PointsAt s t e := by
  rcases exists_pointsAt h with hnone | ⟨t, ht, hposition, hpoints⟩
  · rw [hnone] at hp
    cases hp
  · obtain rfl : t.position = p := Option.some.inj (hposition.symm.trans hp)
    exact ⟨t, ht, rfl, fun u hu => eq_of_position_eq hu ht, hpoints⟩

/-- In `(1 == 1) - 'x'` the text is blamed, and not the operator that it is an operand of. -/
theorem eval_pointsAt_text :
    let s := "(1 == 1) - 'x'"
    let e := EvalError.typeError "'x'" 11 .number
    eval .default s = .error e ∧ e.position? = some 11 ∧
      ∃ t ∈ tokenize s, t.position = 11 ∧ (∀ u ∈ tokenize s, u.position = 11 → u = t) ∧
        PointsAt s t e := by
  intro s e
  have h : eval .default s = .error e := by decide +kernel
  exact ⟨h, rfl, eval_pointsAt h rfl⟩

end Expressions

end Formula
