import Formula.Proofs.Default.Arity
import Formula.Proofs.Postfix.Permutation
import Formula.Proofs.Syntax.Placement

/-!
# Which texts have a value

A text that has a value consists of literals and of what is built in, its brackets match, and its
tokens in postfix order are those of a tree. Neither conversion nor execution sees where the tokens
stood: whether they form an expression is another question, which is left to `inPlace`.

* `bracketsMatch_of_convertTokens`: what is converted has matching brackets.
* `arity?_of_eval`: all words of a text that has a value are built in.
* `exists_isReading_of_eval`: the tree that is evaluated.
* `eval_of_accepted`: all that is known of a text that has a value. `eval_outOfPlace`: texts that
  are no expressions and have values.
-/

namespace Formula

section Brackets

variable {operators : Operators} {before ts input out : List Token}

/-- Behind the tokens `before` none offends that has no partner. -/
theorem bracketsMatch_of_inoffensive (h : Inoffensive operators (before ++ ts))
    (hclosed : unclosed (before ++ ts) = []) :
    bracketsMatch (unclosed before).length ts = true := by
  induction ts generalizing before with
  | nil =>
    rw [List.append_nil] at hclosed
    rw [hclosed]
    rfl
  | cons t ts ih =>
    have hoffence := h before t ts rfl
    have hcons : before ++ t :: ts = before ++ [t] ++ ts := by simp
    rw [hcons] at h hclosed
    have ih := ih h hclosed
    rw [unclosed_concat, unclosedAfter] at ih
    cases hk : t.kind <;> simp only [hk] at ih
    case openParen => rwa [bracketsMatch_open hk]
    case closeParen =>
      cases hopen : unclosed before with
      | nil => simp [offence?, hk, hopen] at hoffence
      | cons opening below =>
        rw [hopen, List.tail_cons] at ih
        rwa [List.length_cons, bracketsMatch_close hk]
    case separator =>
      cases hopen : unclosed before with
      | nil => simp [offence?, hk, hopen] at hoffence
      | cons opening below =>
        rw [hopen] at ih
        rwa [List.length_cons, bracketsMatch_separator hk]
    all_goals rwa [bracketsMatch_other (by simp [hk]) (by simp [hk]) (by simp [hk])]

theorem bracketsMatch_of_convertTokens (h : convertTokens operators input = .ok out) :
    bracketsMatch 0 (beforeEnd input) = true := by
  obtain ⟨hin, hclosed⟩ := of_convertTokens_eq_ok h
  have hmatch : bracketsMatch (unclosed []).length (beforeEnd input) = true :=
    bracketsMatch_of_inoffensive hin hclosed
  exact hmatch

end Brackets

section Accepted

variable {ctx : Context} {s : String} {v : Value}

/-- A text that has a value is converted, and its tokens have this value. -/
theorem exists_convertExpression_of_eval (h : eval ctx s = .ok v) :
    ∃ ts, convertExpression ctx s = .ok ts ∧ valueOfTokens ctx ts = .ok v := by
  cases hc : convertExpression ctx s with
  | ok ts => exact ⟨ts, rfl, (eval_eq_of_convertExpression_ok hc).symm.trans h⟩
  | error e =>
    rw [eval_eq_of_convertExpression_error hc] at h
    cases hrun : executeTokens ctx []
        (tokensBeforeError (convertItems ctx.operators (tokenize s))) <;>
      rw [hrun] at h <;> cases h

/-- Tokens that have a value are those of one tree, which has the same value. -/
theorem exists_isReading_of_valueOfTokens {ts : List Token} (hend : ∀ t ∈ ts, t.kind ≠ .endOfInput)
    (h : valueOfTokens .default ts = .ok v) :
    ∃ x : Tree, x.IsReading ts ∧ (∀ y : Tree, y.IsReading ts → y = x) ∧
      ∃ e, x.term? = some e ∧ e.operand.map (·.value) = .ok v := by
  obtain ⟨-, -, x, hx⟩ := of_valueOfTokens_eq_ok hend h
  obtain ⟨o, hrun, -⟩ := (valueOfTokens_eq_ok_iff _).1 h
  obtain ⟨e, hterm, -⟩ := executeTokens_of_isReading hend hx
  have hfits : Fits 0 ts := fits_of_executeTokens hend hrun (Nat.zero_le _)
  refine ⟨x, hx, fun y hy => ?_, e, hterm, ?_⟩
  · have heq := (isReading_iff.1 hy).symm.trans (isReading_iff.1 hx)
    exact List.head_eq_of_cons_eq (Option.some.inj heq)
  · rw [← valueOfTokens_of_isReading hend hx hterm hfits, h]

/-- **What has a value, and what this does not say.** A text that has a value consists of literals,
built-in operators and functions, brackets and commas. Its brackets match, and commas stand inside
of them. In postfix order its tokens are those of one tree, in which every operator and function has
its operands, and the value is that of the tree. But the text is an expression only if its tokens
are in place as well, which is not looked at. -/
theorem eval_of_accepted (h : eval .default s = .ok v) :
    (∀ t ∈ words s, t.arity?.isSome ∨ t.isStructural = true) ∧
    bracketsMatch 0 (words s) = true ∧
    (∃ ts, convertExpression .default s = .ok ts ∧ ts.Perm (passedOn (words s)) ∧
      ∃ x : Tree, x.IsReading ts ∧ (∀ y : Tree, y.IsReading ts → y = x) ∧
        ∃ e, x.term? = some e ∧ e.operand.map (·.value) = .ok v) ∧
    ((Grammar.ofOperators Context.default.operators).Derives .expression (words s) ↔
      inPlace Context.default.operators (words s) = true) := by
  obtain ⟨ts, hconvert, hvalue⟩ := exists_convertExpression_of_eval h
  have hperm : ts.Perm (passedOn (words s)) := perm_of_convertTokens hconvert
  have hword : ∀ t ∈ words s, t.isStructural = false → t ∈ ts := by
    intro t ht hpassed
    exact hperm.mem_iff.2 (List.mem_filter.2 ⟨ht, by rw [hpassed, Bool.not_false]⟩)
  have hend : ∀ t ∈ ts, t.kind ≠ .endOfInput := fun t ht =>
    ne_endOfInput_of_mem_beforeEnd (List.mem_filter.1 (hperm.mem_iff.1 ht)).1
  have hmatch : bracketsMatch 0 (words s) = true := bracketsMatch_of_convertTokens hconvert
  refine ⟨fun t ht => ?_, hmatch, ?_, derives_iff_inPlace hmatch⟩
  · cases hpassed : t.isStructural with
    | true => exact .inr rfl
    | false => exact .inl ((of_valueOfTokens_eq_ok hend hvalue).1 t (hword t ht hpassed))
  · exact ⟨ts, hconvert, hperm, exists_isReading_of_valueOfTokens hend hvalue⟩

/-- The words of `max 1 2` group into a call. -/
theorem eval_of_accepted_bareName :
    let s := "max 1 2"
    eval .default s = .ok (.int 2) ∧ bracketsMatch 0 (words s) = true ∧
      ∃ ts, convertExpression .default s = .ok ts ∧ ∃ x : Tree, x.IsReading ts := by
  intro s
  have h : eval .default s = .ok (.int 2) := by decide +kernel
  obtain ⟨-, hmatch, ⟨ts, hts, -, x, hx, -⟩, -⟩ := eval_of_accepted h
  exact ⟨h, hmatch, ts, hts, x, hx⟩

/-- An operator behind its operands, an empty group, a name that is not called, and a comma in a
group: none of this is an expression, and all of it has a value. -/
theorem eval_outOfPlace :
    eval .default "1 2 +" = .ok (.int 3) ∧ eval .default "() 1" = .ok (.int 1) ∧
      eval .default "max 1 2" = .ok (.int 2) ∧ eval .default "max((1, 2))" = .ok (.int 2) ∧
      ∀ s ∈ ["1 2 +", "() 1", "max 1 2", "max((1, 2))"],
        ¬(Grammar.ofOperators Context.default.operators).Derives .expression (words s) := by
  refine ⟨by decide +kernel, by decide +kernel, by decide +kernel, by decide +kernel, ?_⟩
  have hwords : ∀ s ∈ ["1 2 +", "() 1", "max 1 2", "max((1, 2))"],
      bracketsMatch 0 (words s) = true ∧
        inPlace Context.default.operators (words s) = false := by
    decide +kernel
  intro s hs hderives
  obtain ⟨hmatch, hplace⟩ := hwords s hs
  rw [derives_iff_inPlace hmatch, hplace] at hderives
  cases hderives

end Accepted

end Formula
