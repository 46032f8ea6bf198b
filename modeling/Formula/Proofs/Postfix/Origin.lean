import Formula.Proofs.Postfix.Acceptance
import Formula.Proofs.Postfix.Interleaving

/-!
# Where tokens and errors come from

A conversion invents nothing: it puts out tokens of its input, and its errors name them. What is
executed fails at one of the tokens that were put out.

* `Token.Waits`, `Token.IsReleased`: the kinds of tokens that wait and of those that are put out.
* `Release.From`: a release of tokens of which something holds; `convertToken_from` is one step,
  `mem_itemsFrom` and `mem_convertItems` a whole conversion.
* `Token.Offends`: the errors of a token as such; `exists_offends_of_convertTokens` is the case of a
  conversion.
* `ComesTo`: an evaluation comes to a token. `exists_comesTo_of_eval`: it fails there, or in the
  conversion, or at the end.
-/

namespace Formula

/-! ## What is put out -/

/-- A token of a kind that may wait. -/
def Token.Waits (t : Token) : Prop :=
  t.kind = .operator ∨ t.kind = .identifier ∨ t.kind = .openParen

/-- A token that is applied to operands: an operator or a name. -/
def Token.IsApplied (t : Token) : Prop := t.kind = .operator ∨ t.kind = .identifier

/-- A token of a kind that is put out. -/
def Token.IsReleased (t : Token) : Prop := t.isLiteral = true ∨ t.IsApplied ∨ t.kind = .illegal

theorem Token.Waits.isReleased {t : Token} (h : t.Waits) (ho : t.kind ≠ .openParen) :
    t.IsReleased := by
  rcases h with h | h | h
  · exact .inr (.inl (.inl h))
  · exact .inr (.inl (.inr h))
  · exact absurd h ho

theorem Token.IsReleased.ne_endOfInput {t : Token} (h : t.IsReleased) :
    t.kind ≠ .endOfInput := by
  rcases h with h | (h | h) | h
  · simp only [Token.isLiteral, Bool.or_eq_true, beq_iff_eq] at h
    rcases h with (h | h) | h <;> simp [h]
  all_goals simp [h]

/-- Of all tokens of a release `P` holds, and they are of the kinds that are put out or wait. -/
structure Release.From (P : Token → Prop) (r : Release) : Prop where
  tokens : ∀ u ∈ r.tokens, P u ∧ u.IsReleased
  waiting : ∀ stack, r.progress = .waiting stack → ∀ u ∈ stack, P u ∧ u.Waits

section Origin

variable {P : Token → Prop} {operators : Operators} {stack released input : List Token} {t : Token}

theorem from_waiting (hreleased : ∀ u ∈ released, P u ∧ u.IsReleased)
    (hstack : ∀ u ∈ stack, P u ∧ u.Waits) : Release.From P ⟨released, .waiting stack⟩ where
  tokens := hreleased
  waiting s hs := by
    cases hs
    exact hstack

theorem from_done (hreleased : ∀ u ∈ released, P u ∧ u.IsReleased) :
    Release.From P ⟨released, .done⟩ :=
  ⟨hreleased, nofun⟩

theorem from_failed (hreleased : ∀ u ∈ released, P u ∧ u.IsReleased) (e : EvalError) :
    Release.From P ⟨released, .failed e⟩ :=
  ⟨hreleased, nofun⟩

theorem from_wait (hreleased : ∀ u ∈ released, P u ∧ u.IsReleased)
    (hstack : ∀ u ∈ stack, P u ∧ u.Waits) (ht : P t ∧ t.Waits) :
    (wait released t stack).From P := by
  unfold wait
  split
  · exact from_failed hreleased _
  · exact from_waiting hreleased (List.forall_mem_cons.2 ⟨ht, hstack⟩)

/-- What an operator releases are operators that were waiting. -/
theorem of_releaseOperators (operators : Operators) (incoming : Operator)
    (hstack : ∀ u ∈ stack, P u ∧ u.Waits) :
    (∀ u ∈ (releaseOperators operators incoming stack).1, P u ∧ u.IsReleased) ∧
      ∀ rest, (releaseOperators operators incoming stack).2 = .ok rest →
        ∀ u ∈ rest, P u ∧ u.Waits := by
  have hnone : ∀ u ∈ ([] : List Token), P u ∧ u.IsReleased := List.forall_mem_nil _
  have hkept : ∀ rest, (.ok stack : Except Token (List Token)) = .ok rest →
      ∀ u ∈ rest, P u ∧ u.Waits := by
    rintro rest ⟨⟩
    exact hstack
  induction stack with
  | nil => exact ⟨hnone, hkept⟩
  | cons top below ih =>
    obtain ⟨⟨htop, -⟩, hbelow⟩ := List.forall_mem_cons.1 hstack
    unfold releaseOperators
    split
    · next hk =>
      split
      · exact ⟨hnone, nofun⟩
      · split
        · obtain ⟨hreleased, hrest⟩ := ih hbelow (by rintro rest ⟨⟩; exact hbelow)
          exact ⟨List.forall_mem_cons.2 ⟨⟨htop, .inr (.inl (.inl hk))⟩, hreleased⟩, hrest⟩
        · exact ⟨hnone, hkept⟩
    · exact ⟨hnone, hkept⟩

theorem convertOperator_from (hstack : ∀ u ∈ stack, P u ∧ u.Waits) (ht : P t)
    (hk : t.kind = .operator) : (convertOperator operators stack t).From P := by
  have ht : P t ∧ t.Waits := ⟨ht, .inl hk⟩
  unfold convertOperator
  split
  · exact from_failed (List.forall_mem_nil _) _
  · next incoming _ =>
    split
    · exact from_wait (List.forall_mem_nil _) hstack ht
    · obtain ⟨hreleased, hrest⟩ := of_releaseOperators operators incoming hstack
      rcases h : releaseOperators operators incoming stack with ⟨released, top | rest⟩
      · rw [h] at hreleased
        exact from_failed hreleased _
      · rw [h] at hreleased hrest
        exact from_wait hreleased (hrest rest rfl) ht

theorem of_mem_aboveOpen (hstack : ∀ u ∈ stack, P u ∧ u.Waits) :
    ∀ u ∈ aboveOpen stack, P u ∧ u.IsReleased := by
  intro u hu
  obtain ⟨hP, hwaits⟩ := hstack u ((List.takeWhile_sublist _).subset hu)
  have ho : notOpen u = true := List.all_eq_true.1 List.all_takeWhile u hu
  exact ⟨hP, hwaits.isReleased (by simpa [notOpen] using ho)⟩

theorem convertSeparator_from (hstack : ∀ u ∈ stack, P u ∧ u.Waits) :
    (convertSeparator stack t).From P := by
  have habove := of_mem_aboveOpen hstack
  have hfrom : ∀ u ∈ fromOpen stack, P u ∧ u.Waits := fun u hu =>
    hstack u ((suffix_fromOpen stack).subset hu)
  unfold convertSeparator
  split
  · exact from_failed habove _
  · next h => exact from_waiting habove (h ▸ hfrom)

theorem convertClose_from (hstack : ∀ u ∈ stack, P u ∧ u.Waits) :
    (convertClose stack t).From P := by
  have habove := of_mem_aboveOpen hstack
  have hfrom : ∀ u ∈ fromOpen stack, P u ∧ u.Waits := fun u hu =>
    hstack u ((suffix_fromOpen stack).subset hu)
  unfold convertClose
  split
  · exact from_failed habove _
  · exact from_waiting habove (List.forall_mem_nil _)
  · next top below h =>
    rw [h] at hfrom
    obtain ⟨-, hfrom⟩ := List.forall_mem_cons.1 hfrom
    split
    · next hname =>
      obtain ⟨⟨htop, -⟩, hbelow⟩ := List.forall_mem_cons.1 hfrom
      refine from_waiting (List.forall_mem_append.2 ⟨habove, ?_⟩) hbelow
      exact List.forall_mem_singleton.2 ⟨htop, .inr (.inl (.inr hname))⟩
    · exact from_waiting habove hfrom

theorem convertEnd_from (hstack : ∀ u ∈ stack, P u ∧ u.Waits) : (convertEnd stack).From P := by
  unfold convertEnd
  split
  · exact from_failed (List.forall_mem_nil _) _
  · next hnone =>
    refine from_done fun u hu => ?_
    have ho := List.find?_eq_none.1 hnone u hu
    exact ⟨(hstack u hu).1, (hstack u hu).2.isReleased (by simpa [notOpen] using ho)⟩

/-- One step of a conversion: what it puts out and what waits afterwards was waiting before, or is
the token itself. -/
theorem convertToken_from (hstack : ∀ u ∈ stack, P u ∧ u.Waits) (ht : P t) :
    (convertToken operators stack t).From P := by
  unfold convertToken
  cases hk : t.kind with
  | integer | float | string =>
    have hlit : t.isLiteral = true := by simp [Token.isLiteral, hk]
    exact from_waiting (List.forall_mem_singleton.2 ⟨ht, .inl hlit⟩) hstack
  | identifier => exact from_wait (List.forall_mem_nil _) hstack ⟨ht, .inr (.inl hk)⟩
  | openParen => exact from_wait (List.forall_mem_nil _) hstack ⟨ht, .inr (.inr hk)⟩
  | operator => exact convertOperator_from hstack ht hk
  | separator => exact convertSeparator_from hstack
  | closeParen => exact convertClose_from hstack
  | endOfInput => exact convertEnd_from hstack
  | illegal => exact from_done (List.forall_mem_singleton.2 ⟨ht, .inr (.inr hk)⟩)

theorem mem_items_ok {r : Release} (h : .ok t ∈ r.items) : t ∈ r.tokens := by
  rw [Release.items, List.mem_append] at h
  rcases h with h | h
  · obtain ⟨u, hu, heq⟩ := List.mem_map.1 h
    cases heq
    exact hu
  · split at h
    · cases List.mem_singleton.1 h
    · cases h

/-- A conversion puts out tokens of its input, and no brackets or commas. -/
theorem mem_itemsFrom (hstack : ∀ u ∈ stack, P u ∧ u.Waits) (hinput : ∀ u ∈ input, P u)
    (h : .ok t ∈ itemsFrom operators stack input) : P t ∧ t.IsReleased := by
  induction input generalizing stack with
  | nil =>
    rw [itemsFrom_nil] at h
    exact (convertEnd_from hstack).tokens t (mem_items_ok h)
  | cons u input ih =>
    obtain ⟨hu, hinput⟩ := List.forall_mem_cons.1 hinput
    have hfrom : (convertToken operators stack u).From P := convertToken_from hstack hu
    rw [itemsFrom_cons, List.mem_append] at h
    rcases h with h | h
    · exact hfrom.tokens t (mem_items_ok h)
    · split at h
      · next stack' hwaiting => exact ih (hfrom.waiting stack' hwaiting) hinput h
      · cases h

theorem mem_convertItems (h : .ok t ∈ convertItems operators input) : t ∈ input ∧ t.IsReleased :=
  mem_itemsFrom (P := (· ∈ input)) (List.forall_mem_nil _) (fun _ => id) h

/-- What a conversion that succeeds puts out. -/
theorem mem_convertTokens {out : List Token} (h : convertTokens operators input = .ok out)
    (ht : t ∈ out) : t ∈ input ∧ t.IsReleased := by
  have hmem : .ok t ∈ convertItems operators input := by
    rw [collect_eq_ok h]
    exact List.mem_map_of_mem ht
  exact mem_convertItems hmem

end Origin

/-! ## The errors of a conversion -/

/-- The errors of a token as such, which all have its position. -/
inductive Token.Offends (t : Token) : EvalError → Prop
  | illegal : t.kind = .illegal → t.Offends (illegalToken t)
  | undefinedOperator : t.kind = .operator → t.Offends (undefinedOperator t)
  | unpaired : t.kind = .openParen ∨ t.kind = .closeParen ∨ t.kind = .separator →
      t.Offends (unpaired t)

section Errors

variable {operators : Operators} {input before ts : List Token} {t : Token} {e : EvalError}

theorem overflow?_eq_some (h : overflow? operators before t = some e) : e = tooManyWait := by
  unfold overflow? at h
  split at h
  · exact (Option.some.inj h).symm
  · cases h

/-- The error of a token behind others is one of its own, unless too many tokens wait. -/
theorem offends_of_offence? (h : offence? operators before t = some e) :
    e = tooManyWait ∨ t.Offends e := by
  cases hk : t.kind <;> simp only [offence?, hk] at h
  case illegal =>
    cases h
    exact .inr (.illegal hk)
  case operator =>
    split at h
    · cases h
      exact .inr (.undefinedOperator hk)
    · exact .inl (overflow?_eq_some h)
  case identifier | openParen => exact .inl (overflow?_eq_some h)
  case separator | closeParen =>
    split at h
    · cases h
      exact .inr (.unpaired (by simp [hk]))
    · cases h
  all_goals cases h

theorem mem_unclosed (h : t ∈ unclosed ts) : t ∈ ts ∧ t.kind = .openParen := by
  induction ts using List.reverseRecOn with
  | nil => cases h
  | append_singleton ts u ih =>
    have hold : t ∈ unclosed ts → t ∈ ts ++ [u] ∧ t.kind = .openParen := fun h =>
      ⟨List.mem_append_left [u] (ih h).1, (ih h).2⟩
    rw [unclosed_concat, unclosedAfter] at h
    split at h
    · next hk =>
      rcases List.mem_cons.1 h with rfl | h
      · exact ⟨by simp, hk⟩
      · exact hold h
    · exact hold (List.mem_of_mem_tail h)
    · exact hold h

/-- A conversion fails at a token of its input, unless too many tokens wait. -/
theorem exists_offends_of_convertTokens (h : convertTokens operators input = .error e) :
    e = tooManyWait ∨ ∃ t ∈ input, t.Offends e := by
  have hsub : ∀ t ∈ beforeEnd input, t ∈ input := fun t ht =>
    (List.takeWhile_sublist _).subset ht
  by_cases hin : Inoffensive operators (beforeEnd input)
  · cases hopen : unclosed (beforeEnd input) with
    | nil =>
      obtain ⟨out, hout⟩ := convertTokens_of_closed hin hopen
      rw [hout] at h
      cases h
    | cons opening below =>
      rw [convertTokens_of_unclosed hin hopen] at h
      cases h
      obtain ⟨hmem, hk⟩ := mem_unclosed (hopen ▸ List.mem_cons_self : opening ∈ _)
      exact .inr ⟨opening, hsub opening hmem, .unpaired (.inl hk)⟩
  · obtain ⟨before, t, after, e', hinput, hbefore, ho⟩ := exists_first_offence hin
    rw [convertTokens_of_offence hinput hbefore ho] at h
    cases h
    rcases offends_of_offence? ho with rfl | hoff
    · exact .inl rfl
    · exact .inr ⟨t, hsub t (by simp [hinput]), hoff⟩

end Errors

/-! ## The errors of an evaluation -/

/-- The evaluation of an expression comes to the token `t` with a stack: all that is put out before
has been executed without an error. -/
def ComesTo (ctx : Context) (expression : String) (stack : OperandStack) (t : Token) : Prop :=
  ∃ before after, convertItems ctx.operators (tokenize expression)
      = before.map .ok ++ .ok t :: after ∧
    executeTokens ctx [] before = .ok stack

section Evaluation

variable {ctx : Context} {s : String} {stack : OperandStack} {ts : List Token} {t : Token}
  {e : EvalError}

/-- An execution fails at the first token that fails. -/
theorem exists_of_executeTokens_error (h : executeTokens ctx stack ts = .error e) :
    ∃ before t after s, ts = before ++ t :: after ∧ executeTokens ctx stack before = .ok s ∧
      executeTokens ctx s [t] = .error e := by
  induction ts generalizing stack with
  | nil => cases h
  | cons t ts ih =>
    rw [executeTokens_cons] at h
    cases hrun : executeTokens ctx stack [t] with
    | error e' =>
      rw [hrun] at h
      cases h
      exact ⟨[], t, ts, stack, rfl, rfl, hrun⟩
    | ok next =>
      rw [hrun] at h
      obtain ⟨before, u, after, s, rfl, hbefore, hu⟩ := ih h
      refine ⟨t :: before, u, after, s, rfl, ?_, hu⟩
      rw [executeTokens_cons, hrun]
      exact hbefore

/-- An evaluation comes to tokens of the expression only. -/
theorem ComesTo.mem (h : ComesTo ctx s stack t) : t ∈ tokenize s ∧ t.IsReleased := by
  obtain ⟨before, after, hitems, -⟩ := h
  exact mem_convertItems (by rw [hitems]; simp)

theorem exists_comesTo_of_executeTokens {rest : List Item}
    (hitems : convertItems ctx.operators (tokenize s) = ts.map .ok ++ rest)
    (h : executeTokens ctx [] ts = .error e) :
    ∃ t stack, ComesTo ctx s stack t ∧ executeTokens ctx stack [t] = .error e := by
  obtain ⟨before, t, after, stack, rfl, hbefore, ht⟩ := exists_of_executeTokens_error h
  refine ⟨t, stack, ⟨before, after.map .ok ++ rest, ?_, hbefore⟩, ht⟩
  rw [hitems, List.map_append, List.map_cons, List.append_assoc, List.cons_append]

/-- An evaluation fails at a token that it comes to, or in the conversion, or at the end, where one
operand has to be left. -/
theorem exists_comesTo_of_eval (h : eval ctx s = .error e) :
    (∃ t stack, ComesTo ctx s stack t ∧ executeTokens ctx stack [t] = .error e) ∨
      convertExpression ctx s = .error e ∨
      ∃ found, e = .malformedExpression none (.notOneResult found) := by
  cases hc : convertExpression ctx s with
  | ok ts =>
    rw [eval_eq_of_convertExpression_ok hc, valueOfTokens_eq] at h
    cases hrun : executeTokens ctx [] ts with
    | error e' =>
      rw [hrun] at h
      cases h
      have hitems := (collect_eq_ok hc).trans (List.append_nil _).symm
      exact .inl (exists_comesTo_of_executeTokens hitems hrun)
    | ok stack =>
      rw [hrun] at h
      have h : stack.result = .error e := h
      unfold OperandStack.result at h
      split at h
      · cases h
      · cases h
        exact .inr (.inr ⟨_, rfl⟩)
  | error e' =>
    -- What has been put out in front of the defect is executed first, and may fail itself.
    rw [eval_eq_of_convertExpression_error hc] at h
    cases hrun : executeTokens ctx []
        (tokensBeforeError (convertItems ctx.operators (tokenize s))) with
    | error e'' =>
      rw [hrun] at h
      cases h
      obtain ⟨item, rest, hitems, -⟩ := collect_eq_error hc
      exact .inl (exists_comesTo_of_executeTokens hitems hrun)
    | ok stack =>
      rw [hrun] at h
      cases h
      exact .inr (.inl rfl)

end Evaluation

end Formula
