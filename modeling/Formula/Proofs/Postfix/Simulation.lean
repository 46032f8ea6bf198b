import Formula.Proofs.Postfix.Failure
import Mathlib.Data.List.Forall2

/-!
# Two runs side by side

Two inputs whose tokens correspond one by one are converted and executed in step with each other, if
the correspondence respects what conversion and execution look at.

* `Corresponds`: two outcomes that are both results or both errors, which correspond.
* `Correspondence`: which tokens, operands and errors correspond.
* `Context.Finds`: what a context applies for a token.
* `Correspondence.Converts`, `Correspondence.Executes`: what a correspondence has to respect.
* `convertToken_corresponds`, `convertItems_corresponds`: one step of a conversion, and a whole one.
* `executeTokens_singleton_corresponds`, `runItems_corresponds`: one step of an execution, and a
  whole one.
* `valueOfItems_corresponds`: the values are the same, or the errors correspond.
-/

namespace Formula

/-- Two results that correspond, or two errors that do. -/
inductive Corresponds {ε α β : Type} (E : ε → ε → Prop) (R : α → β → Prop) :
    Except ε α → Except ε β → Prop
  | ok {a : α} {b : β} : R a b → Corresponds E R (.ok a) (.ok b)
  | error {e e' : ε} : E e e' → Corresponds E R (.error e) (.error e')

/-- Two computations in a row correspond if both do. -/
theorem Corresponds.bind {α β γ δ : Type} {E : EvalError → EvalError → Prop} {R : α → β → Prop}
    {S : γ → δ → Prop} {x : Except EvalError α} {x' : Except EvalError β}
    {k : α → Except EvalError γ} {k' : β → Except EvalError δ} (h : Corresponds E R x x')
    (hk : ∀ a b, R a b → Corresponds E S (k a) (k' b)) :
    Corresponds E S (x >>= k) (x' >>= k') := by
  cases h with
  | ok hab => exact hk _ _ hab
  | error he => exact .error he

theorem Corresponds.imp {ε α β : Type} {E : ε → ε → Prop} {R S : α → β → Prop} {x : Except ε α}
    {x' : Except ε β} (hRS : ∀ a b, R a b → S a b) (h : Corresponds E R x x') :
    Corresponds E S x x' := by
  cases h with
  | ok hab => exact .ok (hRS _ _ hab)
  | error he => exact .error he

/-- Which tokens, operands and errors of one run correspond to which ones of another. -/
structure Correspondence where
  token : Token → Token → Prop
  operand : Operand → Operand → Prop
  error : EvalError → EvalError → Prop

/-- A conversion looks at kinds and at the texts of operators, and it quotes tokens that are no
names. -/
structure Correspondence.Converts (r : Correspondence) : Prop where
  kind {t t' : Token} : r.token t t' → t'.kind = t.kind
  symbol {t t' : Token} : r.token t t' → t.kind = .operator → t'.text = t.text
  undefinedOperator {t t' : Token} : r.token t t' → t.kind = .operator →
    r.error (undefinedOperator t) (undefinedOperator t')
  unpaired {t t' : Token} : r.token t t' → t.kind ≠ .identifier →
    r.error (unpaired t) (unpaired t')
  illegal {t t' : Token} : r.token t t' → t.kind = .illegal →
    r.error (illegalToken t) (illegalToken t')
  full (c : Container) : r.error (.capacityExceeded c) (.capacityExceeded c)

/-- What a context applies for a token. -/
inductive Context.Finds (ctx : Context) (t : Token) : Operation → Prop
  | operator {spec : Operator} : t.kind = .operator → ctx.operator? t.text = some spec →
      Finds ctx t spec.apply
  | function {spec : Callable} : t.kind = .identifier → ctx.function? t.text = some spec →
      Finds ctx t spec.apply

theorem Context.Finds.has {ctx : Context} {t : Token} {f : Operation} (h : ctx.Finds t f) :
    ctx.Has f := by
  cases h with
  | operator _ hfind => exact .inl ⟨_, _, hfind, rfl⟩
  | function _ hfind => exact .inr ⟨_, _, hfind, rfl⟩

/-- An execution also reads literals, finds functions by their names and applies what is found. -/
structure Correspondence.Executes (r : Correspondence) (ctx : Context) : Prop extends
    r.Converts where
  literal {t t' : Token} : r.token t t' → t.isLiteral = true →
    Corresponds r.error r.operand (Operand.ofLiteral t) (Operand.ofLiteral t')
  result {t t' : Token} (v : Value) : r.token t t' →
    r.operand (.ofResult v t.position) (.ofResult v t'.position)
  value {x x' : Operand} : r.operand x x' → x'.value = x.value
  function {t t' : Token} : r.token t t' → t.kind = .identifier →
    ctx.function? t'.text = ctx.function? t.text
  apply {f : Operation} {t t' : Token} {s s' : OperandStack} : ctx.Finds t f → r.token t t' →
    List.Forall₂ r.operand s s' →
    Corresponds r.error Eq ((f t).run.run s).1 ((f t').run.run s').1 ∧
      List.Forall₂ r.operand ((f t).run.run s).2 ((f t').run.run s').2
  tooFewOperands {t t' : Token} (needed found : Nat) : r.token t t' → t.kind = .operator →
    r.error (.malformedExpression (some t.position) (.tooFewOperands t.text needed found))
      (.malformedExpression (some t'.position) (.tooFewOperands t'.text needed found))
  unknownFunction {t t' : Token} : r.token t t' → t.kind = .identifier →
    r.error (.unknownFunction t.text t.position) (.unknownFunction t'.text t'.position)
  structural {t t' : Token} : r.token t t' → t.kind ≠ .identifier →
    r.error (.syntaxError t.position (.structural t.text))
      (.syntaxError t'.position (.structural t'.text))
  notOneResult (found : Nat) : r.error (.malformedExpression none (.notOneResult found))
    (.malformedExpression none (.notOneResult found))

/-! ## Conversion -/

/-- How two conversions stand that correspond. -/
inductive Progress.Corresponding (r : Correspondence) : Progress → Progress → Prop
  | waiting {stack stack' : List Token} : List.Forall₂ r.token stack stack' →
      Corresponding r (.waiting stack) (.waiting stack')
  | done : Corresponding r .done .done
  | failed {e e' : EvalError} : r.error e e' → Corresponding r (.failed e) (.failed e')

/-- Two releases that correspond. -/
structure Release.Corresponding (r : Correspondence) (a b : Release) : Prop where
  tokens : List.Forall₂ r.token a.tokens b.tokens
  progress : a.progress.Corresponding r b.progress

section Conversion

variable {r : Correspondence} {operators : Operators} {t t' : Token}
  {stack stack' released released' input input' : List Token}

theorem Release.Corresponding.items {a b : Release} (h : a.Corresponding r b) :
    List.Forall₂ (Corresponds r.error r.token) a.items b.items := by
  obtain ⟨tokens, progress⟩ := a
  obtain ⟨tokens', progress'⟩ := b
  obtain ⟨htokens, hprogress⟩ := h
  have hmap : List.Forall₂ (Corresponds r.error r.token) (tokens.map .ok) (tokens'.map .ok) := by
    rw [List.forall₂_map_left_iff, List.forall₂_map_right_iff]
    exact htokens.imp fun _ _ => .ok
  unfold Release.items
  cases hprogress with
  | waiting | done => exact List.rel_append hmap .nil
  | failed he => exact List.rel_append hmap (.cons (.error he) .nil)

variable (h : r.Converts)
include h

theorem wait_corresponds (hreleased : List.Forall₂ r.token released released')
    (ht : r.token t t') (hstack : List.Forall₂ r.token stack stack') :
    (wait released t stack).Corresponding r (wait released' t' stack') := by
  unfold wait
  rw [hstack.length_eq]
  split
  · exact ⟨hreleased, .failed (h.full _)⟩
  · exact ⟨hreleased, .waiting (.cons ht hstack)⟩

/-- The same operators are released; what stops the scan stops both. -/
theorem releaseOperators_corresponds (incoming : Operator)
    (hstack : List.Forall₂ r.token stack stack') :
    List.Forall₂ r.token (releaseOperators operators incoming stack).1
        (releaseOperators operators incoming stack').1 ∧
      Corresponds (fun top top' => r.token top top' ∧ top.kind = .operator)
        (List.Forall₂ r.token) (releaseOperators operators incoming stack).2
        (releaseOperators operators incoming stack').2 := by
  induction hstack with
  | nil => exact ⟨.nil, .ok .nil⟩
  | @cons top top' below below' htop hbelow ih =>
    rw [releaseOperators, releaseOperators, h.kind htop]
    by_cases hk : top.kind = .operator
    · rw [if_pos hk, if_pos hk, h.symbol htop hk]
      cases operators.find? top.text with
      | none => exact ⟨.nil, .error ⟨htop, hk⟩⟩
      | some spec =>
        by_cases hprecedes : spec.precedes incoming = true
        · simp only [if_pos hprecedes]
          exact ⟨.cons htop ih.1, ih.2⟩
        · simp only [if_neg hprecedes]
          exact ⟨.nil, .ok (.cons htop hbelow)⟩
    · rw [if_neg hk, if_neg hk]
      exact ⟨.nil, .ok (.cons htop hbelow)⟩

theorem convertOperator_corresponds (ht : r.token t t') (hk : t.kind = .operator)
    (hstack : List.Forall₂ r.token stack stack') :
    (convertOperator operators stack t).Corresponding r (convertOperator operators stack' t') := by
  unfold convertOperator
  rw [h.symbol ht hk]
  split
  · exact ⟨.nil, .failed (h.undefinedOperator ht hk)⟩
  · next incoming _ =>
    split
    · exact wait_corresponds h .nil ht hstack
    · obtain ⟨hreleased, hrest⟩ := releaseOperators_corresponds h incoming hstack
      generalize releaseOperators operators incoming stack = scan,
        releaseOperators operators incoming stack' = scan' at hreleased hrest ⊢
      obtain ⟨released, rest⟩ := scan
      obtain ⟨released', rest'⟩ := scan'
      cases hrest with
      | ok hrest => exact wait_corresponds h hreleased ht hrest
      | error htop => exact ⟨hreleased, .failed (h.undefinedOperator htop.1 htop.2)⟩

theorem notOpen_corresponds (ht : r.token t t') : notOpen t' = notOpen t := by
  rw [notOpen, notOpen, h.kind ht]

theorem brackets_correspond (hstack : List.Forall₂ r.token stack stack') :
    List.Forall₂ r.token (aboveOpen stack) (aboveOpen stack') ∧
      List.Forall₂ r.token (fromOpen stack) (fromOpen stack') := by
  induction hstack with
  | nil => exact ⟨.nil, .nil⟩
  | @cons top top' below below' htop hbelow ih =>
    have hopen := notOpen_corresponds h htop
    unfold aboveOpen fromOpen at ih ⊢
    by_cases hk : notOpen top = true
    · rw [List.takeWhile_cons_of_pos hk, List.takeWhile_cons_of_pos (hopen.trans hk),
        List.dropWhile_cons_of_pos hk, List.dropWhile_cons_of_pos (hopen.trans hk)]
      exact ⟨.cons htop ih.1, ih.2⟩
    · have hk' : ¬ notOpen top' = true := by rwa [hopen]
      rw [List.takeWhile_cons_of_neg hk, List.takeWhile_cons_of_neg hk',
        List.dropWhile_cons_of_neg hk, List.dropWhile_cons_of_neg hk']
      exact ⟨.nil, .cons htop hbelow⟩

theorem convertSeparator_corresponds (ht : r.token t t') (hk : t.kind ≠ .identifier)
    (hstack : List.Forall₂ r.token stack stack') :
    (convertSeparator stack t).Corresponding r (convertSeparator stack' t') := by
  obtain ⟨habove, hfrom⟩ := brackets_correspond h hstack
  unfold convertSeparator
  generalize fromOpen stack = below, fromOpen stack' = below' at hfrom ⊢
  cases hfrom with
  | nil => exact ⟨habove, .failed (h.unpaired ht hk)⟩
  | cons hopening hbelow => exact ⟨habove, .waiting (.cons hopening hbelow)⟩

theorem convertClose_corresponds (ht : r.token t t') (hk : t.kind ≠ .identifier)
    (hstack : List.Forall₂ r.token stack stack') :
    (convertClose stack t).Corresponding r (convertClose stack' t') := by
  obtain ⟨habove, hfrom⟩ := brackets_correspond h hstack
  unfold convertClose
  generalize fromOpen stack = below, fromOpen stack' = below' at hfrom ⊢
  cases hfrom with
  | nil => exact ⟨habove, .failed (h.unpaired ht hk)⟩
  | cons _ hrest =>
    cases hrest with
    | nil => exact ⟨habove, .waiting .nil⟩
    | @cons top top' below below' htop hbelow =>
      dsimp only
      rw [h.kind htop]
      split
      · exact ⟨List.rel_append habove (.cons htop .nil), .waiting hbelow⟩
      · exact ⟨habove, .waiting (.cons htop hbelow)⟩

/-- The same bracket is found open. -/
theorem find?_corresponds (hstack : List.Forall₂ r.token stack stack') :
    Option.Rel r.token (stack.find? (!notOpen ·)) (stack'.find? (!notOpen ·)) := by
  induction hstack with
  | nil => exact .none
  | @cons top top' below below' htop _ ih =>
    rw [List.find?_cons, List.find?_cons, notOpen_corresponds h htop]
    split
    · exact .some htop
    · exact ih

theorem convertEnd_corresponds (hstack : List.Forall₂ r.token stack stack') :
    (convertEnd stack).Corresponding r (convertEnd stack') := by
  have hfind := find?_corresponds h hstack
  have hkind : ∀ opening, stack.find? (!notOpen ·) = some opening → opening.kind ≠ .identifier := by
    intro opening hopening hk
    have hopen := List.find?_some hopening
    simp [notOpen, hk] at hopen
  unfold convertEnd
  generalize stack.find? (!notOpen ·) = found, stack'.find? (!notOpen ·) = found' at hfind hkind ⊢
  cases hfind with
  | none => exact ⟨hstack, .done⟩
  | some hopening => exact ⟨.nil, .failed (h.unpaired hopening (hkind _ rfl))⟩

/-- One step of a conversion. -/
theorem convertToken_corresponds (ht : r.token t t')
    (hstack : List.Forall₂ r.token stack stack') :
    (convertToken operators stack t).Corresponding r (convertToken operators stack' t') := by
  unfold convertToken
  rw [h.kind ht]
  cases hk : t.kind with
  | integer | float | string => exact ⟨.cons ht .nil, .waiting hstack⟩
  | illegal => exact ⟨.cons ht .nil, .done⟩
  | identifier | openParen => exact wait_corresponds h .nil ht hstack
  | operator => exact convertOperator_corresponds h ht hk hstack
  | separator => exact convertSeparator_corresponds h ht (by simp [hk]) hstack
  | closeParen => exact convertClose_corresponds h ht (by simp [hk]) hstack
  | endOfInput => exact convertEnd_corresponds h hstack

theorem releases_correspond (hstack : List.Forall₂ r.token stack stack')
    (hinput : List.Forall₂ r.token input input') :
    List.Forall₂ (Release.Corresponding r) (releases operators stack input)
      (releases operators stack' input') := by
  induction hinput generalizing stack stack' with
  | nil => exact .cons (convertEnd_corresponds h hstack) .nil
  | @cons t t' input input' ht _ ih =>
    have hrelease : (convertToken operators stack t).Corresponding r
        (convertToken operators stack' t') := convertToken_corresponds h ht hstack
    rw [releases, releases]
    refine .cons hrelease ?_
    have hprogress := hrelease.progress
    generalize (convertToken operators stack t).progress = p,
      (convertToken operators stack' t').progress = p' at hprogress ⊢
    cases hprogress with
    | waiting hnext => exact ih hnext
    | done | failed => exact .nil

/-- A whole conversion. -/
theorem convertItems_corresponds (hinput : List.Forall₂ r.token input input') :
    List.Forall₂ (Corresponds r.error r.token) (convertItems operators input)
      (convertItems operators input') :=
  List.rel_flatMap (releases_correspond h .nil hinput) fun _ _ => Release.Corresponding.items

theorem collect_corresponds {items items' : List Item}
    (hitems : List.Forall₂ (Corresponds r.error r.token) items items') :
    Corresponds r.error (List.Forall₂ r.token) (collect items) (collect items') := by
  induction hitems with
  | nil => exact .ok .nil
  | @cons _ _ items items' hitem _ ih =>
    cases hitem with
    | error he => exact .error he
    | @ok t t' ht =>
      rw [collect, collect, h.kind ht]
      by_cases hk : t.kind = .illegal
      · rw [if_pos hk, if_pos hk]
        exact .error (h.illegal ht hk)
      · rw [if_neg hk, if_neg hk]
        generalize collect items = rest, collect items' = rest' at ih ⊢
        cases ih with
        | ok hts => exact .ok (.cons ht hts)
        | error he => exact .error he

/-- The tokens in postfix order. -/
theorem convertTokens_corresponds (hinput : List.Forall₂ r.token input input') :
    Corresponds r.error (List.Forall₂ r.token) (convertTokens operators input)
      (convertTokens operators input') :=
  collect_corresponds h (convertItems_corresponds h hinput)

end Conversion

/-! ## Execution -/

section Execution

variable {r : Correspondence} {ctx : Context} {t t' : Token} {s s' : OperandStack}
  {items items' : List Item}

variable (h : r.Executes ctx)
include h

theorem pushed_corresponds {x x' : Operand} (hs : List.Forall₂ r.operand s s')
    (hx : r.operand x x') :
    Corresponds r.error (List.Forall₂ r.operand) (pushed s x) (pushed s' x') := by
  unfold pushed
  rw [hs.length_eq]
  split
  · exact .error (h.full _)
  · exact .ok (.cons hx hs)

/-- The result of what is applied is pushed onto what it leaves. -/
theorem apply_corresponds {f : Operation} (hf : ctx.Finds t f) (ht : r.token t t')
    (hs : List.Forall₂ r.operand s s') :
    Corresponds r.error (List.Forall₂ r.operand)
      (((f t).run.run s).1 >>= fun v => pushed ((f t).run.run s).2 (.ofResult v t.position))
      (((f t').run.run s').1 >>= fun v =>
        pushed ((f t').run.run s').2 (.ofResult v t'.position)) := by
  obtain ⟨hvalue, hstack⟩ := h.apply hf ht hs
  refine hvalue.bind ?_
  rintro v _ rfl
  exact pushed_corresponds h hstack (h.result v ht)

/-- One step of an execution. -/
theorem executeTokens_singleton_corresponds (ht : r.token t t')
    (hs : List.Forall₂ r.operand s s') :
    Corresponds r.error (List.Forall₂ r.operand) (executeTokens ctx s [t])
      (executeTokens ctx s' [t']) := by
  have hkind := h.kind ht
  cases hk : t.kind with
  | integer | float | string =>
    have hlit : t.isLiteral = true := by simp [Token.isLiteral, hk]
    have hlit' : t'.isLiteral = true := by simp [Token.isLiteral, hkind, hk]
    rw [executeTokens_literal hlit, executeTokens_literal hlit']
    exact (h.literal ht hlit).bind fun _ _ => pushed_corresponds h hs
  | operator =>
    have hk' := hkind.trans hk
    have htext := h.symbol ht hk
    -- the symbols are equal, so both tokens find the same operator, and stacks of one height
    cases hfind : ctx.operator? t.text with
    | none =>
      rw [executeTokens_undefinedOperator hk hfind,
        executeTokens_undefinedOperator hk' (htext ▸ hfind)]
      exact .error (h.undefinedOperator ht hk)
    | some spec =>
      have hfind' : ctx.operator? t'.text = some spec := htext ▸ hfind
      by_cases harity : spec.arity ≤ s.length
      · rw [executeTokens_operator hk hfind harity rfl,
          executeTokens_operator hk' hfind' (hs.length_eq ▸ harity) rfl]
        exact apply_corresponds h (.operator hk hfind) ht hs
      · have hlt := Nat.not_le.1 harity
        rw [executeTokens_tooFewOperands hk hfind hlt,
          executeTokens_tooFewOperands hk' hfind' (hs.length_eq ▸ hlt), hs.length_eq]
        exact .error (h.tooFewOperands _ _ ht hk)
  | identifier =>
    have hk' := hkind.trans hk
    have hsame := h.function ht hk
    cases hfind : ctx.function? t.text with
    | none =>
      rw [executeTokens_unknownFunction hk hfind,
        executeTokens_unknownFunction hk' (hsame.trans hfind)]
      exact .error (h.unknownFunction ht hk)
    | some spec =>
      rw [executeTokens_function hk hfind rfl,
        executeTokens_function hk' (hsame.trans hfind) rfl]
      exact apply_corresponds h (.function hk hfind) ht hs
  | endOfInput =>
    rw [executeTokens_endOfInput hk, executeTokens_endOfInput (hkind.trans hk)]
    exact .ok hs
  | illegal =>
    rw [executeTokens_illegal hk, executeTokens_illegal (hkind.trans hk)]
    exact .error (h.illegal ht hk)
  | openParen | closeParen | separator =>
    have hbracket : t.kind = .openParen ∨ t.kind = .closeParen ∨ t.kind = .separator := by
      simp [hk]
    rw [executeTokens_structural hbracket, executeTokens_structural (by rwa [hkind])]
    exact .error (h.structural ht (by simp [hk]))

theorem runItems_corresponds (hs : List.Forall₂ r.operand s s')
    (hitems : List.Forall₂ (Corresponds r.error r.token) items items') :
    Corresponds r.error (List.Forall₂ r.operand) (runItems ctx s items).outcome
      (runItems ctx s' items').outcome := by
  induction hitems generalizing s s' with
  | nil => exact .ok hs
  | cons hitem _ ih =>
    rw [outcome_runItems_cons, outcome_runItems_cons]
    refine Corresponds.bind (R := List.Forall₂ r.operand) ?_ fun _ _ => ih
    cases hitem with
    | error he => exact .error he
    | ok ht =>
      rw [outcome_runItem_ok, outcome_runItem_ok]
      exact executeTokens_singleton_corresponds h ht hs

theorem result_corresponds (hs : List.Forall₂ r.operand s s') :
    Corresponds r.error Eq s.result s'.result := by
  cases hs with
  | nil => exact .error (h.notOneResult 0)
  | cons hx hrest =>
    cases hrest with
    | nil => exact .ok (h.value hx).symm
    | cons _ hbelow =>
      simp only [OperandStack.result, List.length_cons, hbelow.length_eq]
      exact .error (h.notOneResult _)

/-- The value of items. -/
theorem valueOfItems_corresponds
    (hitems : List.Forall₂ (Corresponds r.error r.token) items items') :
    Corresponds r.error Eq (valueOfItems ctx items) (valueOfItems ctx items') :=
  (runItems_corresponds h .nil hitems).bind fun _ _ => result_corresponds h

/-- The value of tokens, converted and executed. -/
theorem valueOfConverted_corresponds {input input' : List Token}
    (hinput : List.Forall₂ r.token input input') :
    Corresponds r.error Eq (valueOfItems ctx (convertItems ctx.operators input))
      (valueOfItems ctx (convertItems ctx.operators input')) :=
  valueOfItems_corresponds h (convertItems_corresponds h.toConverts hinput)

end Execution

end Formula
