import Formula.Builtin
import Formula.Postfix.Conversion
import Formula.Proofs.Syntax.Climbing

/-!
# A conversion puts out the tree of an expression

The stack of a conversion holds the operators whose right operands are being read: what recursion
keeps in `Climb.expression?`, from the innermost to the outermost. A waiting operator is released
exactly where its right operand ends.

* `itemsFrom operators stack input`: the output of a conversion from a stack on.
* `Converts`: a stretch of a conversion, with what it puts out. It may break off when too many
  tokens wait.
* `converts_of_expression?`: the tokens of an expression put out its tree in postorder and leave the
  stack as it was.
* `lt_of_capacityExceeded`, `length_convertItems_le`: no more tokens wait than have been read, and
  hardly more are put out.
* `convertTokens_of_derives`: the conversion of a whole expression.
-/

namespace Formula

/-- The output of a conversion from a stack on. -/
def itemsFrom (operators : Operators) (stack input : List Token) : List Item :=
  (releases operators stack input).flatMap Release.items

/-- The error of a conversion in which too many tokens wait. -/
abbrev tooManyWait : EvalError := .capacityExceeded .operatorStack

/-- From `stack` and `input` a conversion puts out `out` and comes to `stack'` and `input'`. It may
break off because too many tokens wait, after a first part of `out`. -/
def Converts (operators : Operators) (stack input out stack' input' : List Token) : Prop :=
  itemsFrom operators stack input = out.map .ok ++ itemsFrom operators stack' input' ∨
    ∃ p, p <+: out ∧ itemsFrom operators stack input = p.map .ok ++ [.error tooManyWait]

section Steps

variable {operators : Operators} {stack stack' stack'' input input' input'' : List Token}

theorem itemsFrom_nil : itemsFrom operators stack [] = (convertEnd stack).items := by
  simp [itemsFrom, releases]

theorem itemsFrom_cons (t : Token) :
    itemsFrom operators stack (t :: input)
      = (convertToken operators stack t).items
        ++ match (convertToken operators stack t).progress with
          | .waiting stack => itemsFrom operators stack input
          | _ => [] := by
  simp only [itemsFrom, releases, List.flatMap_cons]
  cases (convertToken operators stack t).progress <;> rfl

/-- The end of an input is the same whether it is marked or not. -/
theorem itemsFrom_end {t : Token} (h : t.kind = .endOfInput) :
    itemsFrom operators stack (t :: input) = itemsFrom operators stack [] := by
  have ht : convertToken operators stack t = convertEnd stack := by simp only [convertToken, h]
  rw [itemsFrom_cons, itemsFrom_nil, ht]
  unfold convertEnd
  split <;> exact List.append_nil _

theorem Converts.trans {out out' : List Token}
    (h : Converts operators stack input out stack' input')
    (h' : Converts operators stack' input' out' stack'' input'') :
    Converts operators stack input (out ++ out') stack'' input'' := by
  rcases h with h | ⟨p, hp, h⟩
  · rcases h' with h' | ⟨p, hp, h'⟩
    · left
      rw [h, h', List.map_append, List.append_assoc]
    · right
      refine ⟨out ++ p, (List.prefix_append_right_inj out).2 hp, ?_⟩
      rw [h, h', List.map_append, List.append_assoc]
  · exact .inr ⟨p, hp.trans (List.prefix_append out out'), h⟩

/-- A token after which the conversion goes on. -/
theorem converts_of_waiting {t : Token} {out : List Token}
    (h : convertToken operators stack t = ⟨out, .waiting stack'⟩) :
    Converts operators stack (t :: input) out stack' input := by
  left
  rw [itemsFrom_cons, h]
  simp [Release.items]

/-- A token that has to wait. -/
theorem converts_of_wait {t : Token} (h : convertToken operators stack t = wait [] t stack) :
    Converts operators stack (t :: input) [] (t :: stack) input := by
  by_cases hfull : waitingCapacity ≤ stack.length
  · right
    rw [wait, if_pos hfull] at h
    refine ⟨[], List.prefix_rfl, ?_⟩
    rw [itemsFrom_cons, h]
    rfl
  · rw [wait, if_neg hfull] at h
    exact converts_of_waiting h

theorem converts_literal {t : Token} (h : t.isLiteral = true) :
    Converts operators stack (t :: input) [t] stack input := by
  simp only [Token.isLiteral, Bool.or_eq_true, beq_iff_eq] at h
  rcases h with (h | h) | h <;> exact converts_of_waiting (by simp only [convertToken, h])

theorem converts_name {t : Token} (h : t.kind = .identifier) :
    Converts operators stack (t :: input) [] (t :: stack) input :=
  converts_of_wait (by simp only [convertToken, h])

theorem converts_open {t : Token} (h : t.kind = .openParen) :
    Converts operators stack (t :: input) [] (t :: stack) input :=
  converts_of_wait (by simp only [convertToken, h])

theorem converts_unary {t : Token} {u : Operator} (h : operators.ofArity? 1 t = some u) :
    Converts operators stack (t :: input) [] (t :: stack) input := by
  obtain ⟨hk, hu, ha⟩ := Operators.ofArity?_eq_some.1 h
  exact converts_of_wait (by simp only [convertToken, hk, convertOperator, hu, ha, if_true])

theorem converts_separator {opening t : Token} (ho : opening.kind = .openParen)
    (ht : t.kind = .separator) :
    Converts operators (opening :: stack) (t :: input) [] (opening :: stack) input := by
  refine converts_of_waiting ?_
  simp [convertToken, ht, convertSeparator, aboveOpen, fromOpen, notOpen, ho]

/-- A bracket is closed that opened no call. -/
theorem converts_close {opening t : Token} (ho : opening.kind = .openParen)
    (ht : t.kind = .closeParen) (hs : ∀ u ∈ stack.head?, u.kind ≠ .identifier) :
    Converts operators (opening :: stack) (t :: input) [] stack input := by
  refine converts_of_waiting ?_
  cases stack with
  | nil => simp [convertToken, ht, convertClose, aboveOpen, fromOpen, notOpen, ho]
  | cons u below =>
    have hu := hs u rfl
    simp [convertToken, ht, convertClose, aboveOpen, fromOpen, notOpen, ho, hu]

/-- The bracket of a call is closed. -/
theorem converts_closeCall {f opening t : Token} (hf : f.kind = .identifier)
    (ho : opening.kind = .openParen) (ht : t.kind = .closeParen) :
    Converts operators (opening :: f :: stack) (t :: input) [f] stack input := by
  refine converts_of_waiting ?_
  simp [convertToken, ht, convertClose, aboveOpen, fromOpen, notOpen, ho, hf]

end Steps

/-! ## Where operators are released -/

/-- An operator goes before another one exactly if it does not take it into its right operand. -/
theorem Operator.precedes_eq_not_takes (s b : Operator) : s.precedes b = !s.takes b := by
  simp only [Operator.precedes, Operator.takes]
  grind

/-- The top of the stack of a conversion, when the right operand of `s?` is read: the operator
itself, or the bracket that encloses the expression. -/
def Holds (operators : Operators) : Option Operator → List Token → Prop
  | none, stack => ∀ t ∈ stack.head?, t.kind = .openParen
  | some s, stack => ∃ t below, stack = t :: below ∧ t.kind = .operator ∧
      operators.find? t.text = some s

/-- The rest of an input that ends an expression: it begins with a token that releases waiting
operators. The end of the input does so only if no bracket is open. -/
def Ends (operators : Operators) (stack : List Token) : List Token → Prop
  | [] => ∀ u ∈ stack, u.kind ≠ .openParen
  | t :: _ => t.kind = .closeParen ∨ t.kind = .separator ∨ (operators.ofArity? 2 t).isSome ∨
      (t.kind = .endOfInput ∧ ∀ u ∈ stack, u.kind ≠ .openParen)

section Release

open Climb

variable {operators : Operators} {stack rest : List Token}

theorem holds_nil : Holds operators none [] := by
  intro t ht
  cases ht

theorem holds_cons_of_open {t : Token} (h : t.kind = .openParen) :
    Holds operators none (t :: stack) := by
  intro u hu
  cases Option.mem_some_iff.1 hu
  exact h

theorem Holds.head_ne_identifier {s? : Option Operator} (h : Holds operators s? stack) :
    ∀ t ∈ stack.head?, t.kind ≠ .identifier := by
  intro t ht
  cases s? with
  | none => simp [h t ht]
  | some s =>
    obtain ⟨u, below, rfl, hu, -⟩ := h
    cases Option.mem_some_iff.1 ht
    simp [hu]

theorem Ends.cons {top : Token} (htop : top.kind ≠ .openParen) (h : Ends operators stack rest) :
    Ends operators (top :: stack) rest := by
  cases rest with
  | nil => exact List.forall_mem_cons.2 ⟨htop, h⟩
  | cons t rest =>
    rcases h with h | h | h | ⟨ht, h⟩
    · exact .inl h
    · exact .inr (.inl h)
    · exact .inr (.inr (.inl h))
    · exact .inr (.inr (.inr ⟨ht, List.forall_mem_cons.2 ⟨htop, h⟩⟩))

theorem convertEnd_of_noOpen (h : ∀ u ∈ stack, u.kind ≠ .openParen) :
    convertEnd stack = ⟨stack, .done⟩ := by
  have hnone : stack.find? (!notOpen ·) = none := by
    rw [List.find?_eq_none]
    intro u hu
    simp [notOpen, h u hu]
  simp only [convertEnd, hnone]

/-- An operator of the right operand of `s?` waits; nothing is released for it. -/
theorem converts_taken {s? : Option Operator} {t : Token} {b : Operator} {input : List Token}
    (hs : Holds operators s? stack) (h : operators.taken? s? t = some b) :
    Converts operators stack (t :: input) [] (t :: stack) input := by
  obtain ⟨harity, htakes⟩ := Option.filter_eq_some_iff.1 h
  obtain ⟨hk, hb, ha⟩ := Operators.ofArity?_eq_some.1 harity
  have hrelease : releaseOperators operators b stack = ([], .ok stack) := by
    cases s? with
    | none =>
      cases stack with
      | nil => rfl
      | cons top below =>
        have htop := hs top rfl
        simp [releaseOperators, htop]
    | some s =>
      obtain ⟨top, below, rfl, htop, hfind⟩ := hs
      have hprec : s.precedes b = false := by
        rw [Operator.precedes_eq_not_takes]
        simpa using htakes
      simp [releaseOperators, htop, hfind, hprec]
  refine converts_of_wait ?_
  simp only [convertToken, hk, convertOperator, hb, ha, hrelease]
  rfl

/-- An operator that goes before an incoming one is released first. -/
theorem convertOperator_cons {top t : Token} {s b : Operator} (htop : top.kind = .operator)
    (hs : operators.find? top.text = some s) (hb : operators.find? t.text = some b)
    (hprec : s.precedes b = true) (harity : b.arity ≠ 1) :
    convertOperator operators (top :: stack) t
      = ⟨top :: (convertOperator operators stack t).tokens,
          (convertOperator operators stack t).progress⟩ := by
  simp only [convertOperator, hb, harity, if_false, releaseOperators, htop, hs, hprec, if_true]
  rcases releaseOperators operators b stack with ⟨released, e | below⟩
  · rfl
  · simp only [wait]
    split <;> rfl

/-- **The right operand of a waiting operator ends, and the operator is released.** -/
theorem converts_release {top : Token} {s : Operator} (htop : top.kind = .operator)
    (hs : operators.find? top.text = some s) (hends : Ends operators stack rest)
    (hstops : Stops operators (some s) rest) :
    Converts operators (top :: stack) rest [top] stack rest := by
  left
  have hopen : notOpen top = true := by simp [notOpen, htop]
  cases rest with
  | nil =>
    rw [itemsFrom_nil, itemsFrom_nil, convertEnd_of_noOpen hends,
      convertEnd_of_noOpen (List.forall_mem_cons.2 ⟨by simp [htop], hends⟩)]
    rfl
  | cons t rest =>
    rw [itemsFrom_cons, itemsFrom_cons]
    -- A closing bracket, a comma, an operator that `s` goes before, or the end: each releases the
    -- top of the stack before it does anything else.
    rcases hends with ht | ht | ht | ⟨ht, hno⟩
    · simp only [convertToken, ht, convertClose, fromOpen, aboveOpen, List.dropWhile_cons, hopen,
        List.takeWhile_cons, if_true]
      split
      · simp [Release.items]
      · simp [Release.items]
      · split <;> simp [Release.items]
    · simp only [convertToken, ht, convertSeparator, fromOpen, aboveOpen, List.dropWhile_cons,
        hopen, List.takeWhile_cons, if_true]
      split <;> simp [Release.items]
    · obtain ⟨b, hb⟩ := Option.isSome_iff_exists.1 ht
      obtain ⟨hk, hfind, ha⟩ := Operators.ofArity?_eq_some.1 hb
      have hprec : s.precedes b = true := by
        have hnone := hstops t rfl
        rw [Operators.taken?, hb, Option.filter_some] at hnone
        rw [Operator.precedes_eq_not_takes]
        simpa using hnone
      simp only [convertToken, hk,
        convertOperator_cons htop hs hfind hprec (by simp [ha] : b.arity ≠ 1)]
      rfl
    · simp only [convertToken, ht, convertEnd_of_noOpen hno,
        convertEnd_of_noOpen
          (List.forall_mem_cons.2 ⟨(by simp [htop] : top.kind ≠ .openParen), hno⟩)]
      rfl

end Release

/-! ## Expressions -/

section Expressions

open Climb

variable {operators : Operators}

/-- What an expression, or the right operand of `s?`, does to a conversion. -/
def ExpressionConverts (operators : Operators) (s? : Option Operator) (ts : List Token) : Prop :=
  ∀ {x rest stack}, expression? operators s? ts = some (x, rest) → Holds operators s? stack →
    Ends operators stack rest → Converts operators stack ts x.postorder stack rest

/-- What follows an operand puts out all that the tree has behind this operand. -/
def LinksConvert (operators : Operators) (s? : Option Operator) (left : Tree) (ts : List Token) :
    Prop :=
  ∀ {x rest stack}, links? operators s? left ts = some (x, rest) → Holds operators s? stack →
    Ends operators stack rest →
      ∃ out, x.postorder = left.postorder ++ out ∧ Converts operators stack ts out stack rest

/-- An operand is read where no call has just begun. -/
def OperandConverts (operators : Operators) (ts : List Token) : Prop :=
  ∀ {x rest stack}, operand? operators ts = some (x, rest) →
    (∀ t ∈ stack.head?, t.kind ≠ .identifier) → Ends operators stack rest →
      Converts operators stack ts x.postorder stack rest

/-- The arguments of a call put out themselves and the function. -/
def ArgumentsConvert (operators : Operators) (ts : List Token) : Prop :=
  ∀ {xs rest stack f opening}, arguments? operators ts = some (xs, rest) → f.kind = .identifier →
    opening.kind = .openParen →
      Converts operators (opening :: f :: stack) ts (Tree.postorders xs ++ [f]) stack rest

/-- Links end an expression where they begin. -/
theorem ends_of_links? {s? : Option Operator} {left x : Tree} {ts rest stack : List Token}
    (h : links? operators s? left ts = some (x, rest)) (hends : Ends operators stack rest) :
    Ends operators stack ts := by
  cases ts with
  | nil =>
    rw [links?_nil] at h
    cases h
    exact hends
  | cons t ts =>
    cases ht : operators.taken? s? t with
    | none =>
      rw [links?_cons_of_none ht] at h
      cases h
      exact hends
    | some b =>
      exact .inr (.inr (.inl (Option.isSome_iff_exists.2 ⟨b, (Option.filter_eq_some_iff.1 ht).1⟩)))

theorem expressionConverts_of {s? : Option Operator} {ts : List Token}
    (hoperand : OperandConverts operators ts)
    (hlinks : ∀ x rest, rest.length < ts.length → LinksConvert operators s? x rest) :
    ExpressionConverts operators s? ts := by
  intro x rest stack h hstack hends
  obtain ⟨left, mid, hop, hlt, hl⟩ := expression?_eq_some.1 h
  obtain ⟨out, hout, hconv⟩ := hlinks left mid hlt hl hstack hends
  rw [hout]
  exact (hoperand hop hstack.head_ne_identifier (ends_of_links? hl hends)).trans hconv

theorem linksConvert_of_stops {s? : Option Operator} {left : Tree} {ts : List Token}
    (h : Stops operators s? ts) : LinksConvert operators s? left ts := by
  intro x rest stack hl _ _
  rw [links?_of_stops h] at hl
  cases hl
  exact ⟨[], (List.append_nil _).symm, .inl rfl⟩

theorem linksConvert_of_taken {s? : Option Operator} {left : Tree} {t : Token} {ts : List Token}
    {b : Operator} (ht : operators.taken? s? t = some b)
    (hright : ExpressionConverts operators (some b) ts)
    (hmore : ∀ right rest, rest.length < ts.length →
      LinksConvert operators s? (.binary t left right) rest) :
    LinksConvert operators s? left (t :: ts) := by
  intro x rest stack h hstack hends
  obtain ⟨right, mid, hexp, hlt, hl⟩ := (links?_cons_eq_some ht).1 h
  obtain ⟨hk, hfind, -⟩ := Operators.ofArity?_eq_some.1 (Option.filter_eq_some_iff.1 ht).1
  have hmid := ends_of_links? hl hends
  have hpush : Converts operators stack (t :: ts) [] (t :: stack) ts := converts_taken hstack ht
  have hoperand := hright hexp ⟨t, stack, rfl, hk, hfind⟩ (hmid.cons (by simp [hk]))
  have hrelease := converts_release hk hfind hmid (expression?_stops hexp)
  obtain ⟨out, hout, hrest⟩ := hmore right mid hlt hl hstack hends
  refine ⟨right.postorder ++ [t] ++ out, ?_, ((hpush.trans hoperand).trans hrelease).trans hrest⟩
  rw [hout, Tree.postorder]
  simp only [List.append_assoc]

theorem operandConverts_unary {t : Token} {ts : List Token} (hk : t.kind = .operator)
    (hx : ∀ u, ExpressionConverts operators (some u) ts) : OperandConverts operators (t :: ts) := by
  intro x rest stack h _ hends
  obtain ⟨u, y, rest', hu, hexp, hr⟩ := (operand?_operator_eq_some hk).1 h
  cases hr
  have hfind := (Operators.ofArity?_eq_some.1 hu).2.1
  have hoperand := hx u hexp ⟨t, stack, rfl, hk, hfind⟩ (hends.cons (by simp [hk]))
  have hrelease := converts_release hk hfind hends (expression?_stops hexp)
  exact ((converts_unary hu).trans hoperand).trans hrelease

theorem operandConverts_group {t : Token} {ts : List Token} (hk : t.kind = .openParen)
    (hx : ExpressionConverts operators none ts) : OperandConverts operators (t :: ts) := by
  intro x rest stack h hstack _
  obtain ⟨y, closing, rest', hexp, hc, hr⟩ := (operand?_open_eq_some hk).1 h
  cases hr
  have hinside : Converts operators (t :: stack) ts x.postorder (t :: stack) (closing :: rest) :=
    hx hexp (holds_cons_of_open hk) (.inl hc)
  have h := ((converts_open hk).trans hinside).trans (converts_close hk hc hstack)
  simpa using h

theorem operandConverts_call {t opening next : Token} {ts : List Token} (hk : t.kind = .identifier)
    (ho : opening.kind = .openParen) (hn : next.kind ≠ .closeParen)
    (hxs : ArgumentsConvert operators (next :: ts)) :
    OperandConverts operators (t :: opening :: next :: ts) := by
  intro x rest stack h _ _
  rw [operand?_call hk ho hn] at h
  obtain ⟨⟨xs, rest'⟩, hargs, hr⟩ := Option.map_eq_some_iff.1 h
  cases hr
  exact ((converts_name hk).trans (converts_open ho)).trans (hxs hargs hk ho)

theorem argumentsConvert_of {ts : List Token} (hx : ExpressionConverts operators none ts)
    (hmore : ∀ rest, rest.length < ts.length → ArgumentsConvert operators rest) :
    ArgumentsConvert operators ts := by
  intro xs rest stack f opening h hf ho
  obtain ⟨x, t, rest', hexp, hrest⟩ := arguments?_eq_some.1 h
  have hstack : Holds operators none (opening :: f :: stack) := holds_cons_of_open ho
  rcases hrest with ⟨ht, hr⟩ | ⟨ht, hlt, ys, rest'', hargs, hr⟩
  · cases hr
    have h := (hx hexp hstack (.inl ht)).trans (converts_closeCall hf ho ht)
    simpa [Tree.postorders] using h
  · cases hr
    have h := ((hx hexp hstack (.inr (.inl ht))).trans (converts_separator ho ht)).trans
      (hmore rest' hlt hargs hf ho)
    simpa [Tree.postorders] using h

theorem operandConverts_of_none {ts : List Token} (h : operand? operators ts = none) :
    OperandConverts operators ts := by
  intro x rest stack hx
  rw [h] at hx
  cases hx

theorem operandConverts_literal {t : Token} {ts : List Token} (ht : t.isLiteral = true) :
    OperandConverts operators (t :: ts) := by
  intro x rest stack h _ _
  rw [operand?_literal ht] at h
  cases h
  exact converts_literal ht

theorem operandConverts_emptyCall {t opening closing : Token} {ts : List Token}
    (hk : t.kind = .identifier) (ho : opening.kind = .openParen) (hc : closing.kind = .closeParen) :
    OperandConverts operators (t :: opening :: closing :: ts) := by
  intro x rest stack h _ _
  rw [operand?_emptyCall hk ho hc] at h
  cases h
  exact ((converts_name hk).trans (converts_open ho)).trans (converts_closeCall hk ho hc)

/-- **An expression converts to the postorder of its tree**, from any stack on. The induction is on
the recursion of the readers. -/
theorem converts_of_expression? (s? : Option Operator) (ts : List Token) :
    ExpressionConverts operators s? ts := by
  refine expression?.induct operators (ExpressionConverts operators) (LinksConvert operators)
    (OperandConverts operators) (ArgumentsConvert operators) ?expression ?noToken ?notTaken ?taken
    ?noOperand ?integer ?float ?string ?unary ?group ?emptyCall ?call ?noBracket ?nameAlone ?other
    ?arguments s? ts
  case expression => exact fun _ _ => expressionConverts_of
  case noToken => exact fun s? _ => linksConvert_of_stops (stops_nil s?)
  case notTaken => exact fun _ _ _ ts ht => linksConvert_of_stops (stops_cons ht ts)
  case taken => exact fun _ _ _ _ _ => linksConvert_of_taken
  case integer | float | string =>
    exact fun t ts hk => operandConverts_literal (by simp [Token.isLiteral, hk])
  case unary => exact fun _ _ => operandConverts_unary
  case group => exact fun _ _ => operandConverts_group
  case emptyCall => exact fun _ hk _ _ _ => operandConverts_emptyCall hk
  case call => exact fun _ hk _ _ _ => operandConverts_call hk
  case arguments => exact fun _ => argumentsConvert_of
  case noOperand => exact operandConverts_of_none (by rw [operand?])
  case noBracket =>
    intro t hk opening next ts ho
    exact operandConverts_of_none (by simp only [operand?.eq_def, hk, ho, if_false])
  case nameAlone =>
    intro t ts hk hts
    exact operandConverts_of_none (by simp only [operand?.eq_def, hk])
  case other =>
    intro t ts _ _ _ _ _ _
    exact operandConverts_of_none (by simp only [operand?.eq_def])

end Expressions

/-! ## Room on the stack -/

section Room

variable {operators : Operators} {stack : List Token} {t : Token}

/-- A token makes the stack longer by at most itself. -/
theorem length_of_convertToken {stack' : List Token}
    (h : (convertToken operators stack t).progress = .waiting stack') :
    stack'.length ≤ stack.length + 1 := by
  have hw := weight_convertToken_le operators stack t
  simp only [Release.weight, h, Progress.weight] at hw
  omega

theorem capacity_le_of_wait {released : List Token} {c : Container}
    (h : (wait released t stack).progress = .failed (.capacityExceeded c)) :
    waitingCapacity ≤ stack.length := by
  unfold wait at h
  split at h
  · assumption
  · cases h

/-- A conversion runs out of room only with a full stack. -/
theorem capacity_le_of_convertToken {c : Container}
    (h : (convertToken operators stack t).progress = .failed (.capacityExceeded c)) :
    waitingCapacity ≤ stack.length := by
  unfold convertToken at h
  split at h
  any_goals cases h
  any_goals exact capacity_le_of_wait h
  · unfold convertOperator at h
    split at h
    · cases h
    · next incoming _ =>
      -- what an operator releases only makes room
      have hr := length_releaseOperators operators incoming stack
      split at h
      · exact capacity_le_of_wait h
      · split at h
        · cases h
        · next released rest hrest =>
          have hc := capacity_le_of_wait h
          rw [hrest] at hr
          simp only at hr
          omega
  · unfold convertSeparator at h
    split at h <;> cases h
  · unfold convertClose at h
    split at h
    · cases h
    · cases h
    · split at h <;> cases h
  · unfold convertEnd at h
    split at h <;> cases h

theorem mem_items_error {r : Release} {e : EvalError} (h : .error e ∈ r.items) :
    r.progress = .failed e := by
  obtain ⟨tokens, progress⟩ := r
  cases progress <;> simp_all [Release.items]

/-- Only what has been read can fill the stack. -/
theorem lt_of_capacityExceeded {c : Container} {input : List Token}
    (h : .error (.capacityExceeded c) ∈ itemsFrom operators stack input) :
    waitingCapacity < stack.length + input.length := by
  induction input generalizing stack with
  | nil =>
    rw [itemsFrom_nil] at h
    have hfailed := mem_items_error h
    unfold convertEnd at hfailed
    split at hfailed <;> cases hfailed
  | cons t input ih =>
    rw [itemsFrom_cons, List.mem_append] at h
    rw [List.length_cons]
    rcases h with h | h
    · have hfull := capacity_le_of_convertToken (mem_items_error h)
      omega
    · split at h
      · next stack' hwaiting =>
        have hlen := length_of_convertToken hwaiting
        have hlt := ih h
        omega
      · cases h

/-- What a release puts out, with what it leaves waiting. -/
theorem weight_items (r : Release) :
    2 * r.items.length + (match r.progress with
      | .waiting stack => (Progress.waiting stack).weight
      | _ => 0) = r.weight := by
  obtain ⟨tokens, progress⟩ := r
  cases progress <;> simp [Release.items, Release.weight, Progress.weight]
  omega

theorem length_itemsFrom_le (input : List Token) :
    2 * (itemsFrom operators stack input).length
      ≤ (Progress.waiting stack).weight + 2 * input.length := by
  induction input generalizing stack with
  | nil =>
    have hr := weight_items (convertEnd stack)
    have hw := weight_convertEnd_lt stack
    rw [itemsFrom_nil]
    omega
  | cons t input ih =>
    have hr := weight_items (convertToken operators stack t)
    have hw := weight_convertToken_le operators stack t
    rw [itemsFrom_cons, List.length_append, List.length_cons]
    split
    · next stack' hwaiting =>
      rw [hwaiting] at hr
      have hle : 2 * (itemsFrom operators stack' input).length
          ≤ (Progress.waiting stack').weight + 2 * input.length := ih
      simp only at hr
      omega
    · rw [List.length_nil]
      omega

/-- A conversion puts out hardly more than it reads. -/
theorem length_convertItems_le (ts : List Token) :
    (convertItems operators ts).length ≤ ts.length + 1 := by
  have h : 2 * (convertItems operators ts).length ≤ (Progress.waiting []).weight + 2 * ts.length :=
    length_itemsFrom_le ts
  simp only [Progress.weight, List.length_nil] at h
  omega

end Room

/-! ## Whole inputs -/

theorem collect_map_ok_append {ts : List Token} (h : ∀ t ∈ ts, t.kind ≠ .illegal)
    (items : List Item) : collect (ts.map .ok ++ items) = (collect items).map (ts ++ ·) := by
  induction ts with
  | nil => cases hc : collect items <;> simp [hc, Except.map]
  | cons t ts ih =>
    rw [List.forall_mem_cons] at h
    rw [List.map_cons, List.cons_append, collect, if_neg h.1, ih h.2]
    cases collect items <;> rfl

theorem collect_map_ok {ts : List Token} (h : ∀ t ∈ ts, t.kind ≠ .illegal) :
    collect (ts.map .ok) = .ok ts := by
  have hcollect := collect_map_ok_append h []
  rw [List.append_nil] at hcollect
  simpa [collect, Except.map] using hcollect

/-- What may follow an input without being part of it: nothing, or the mark of the end with whatever
comes after it. -/
abbrev EndsInput (tail : List Token) : Prop := ∀ t ∈ tail.head?, t.kind = .endOfInput

/-- Nothing from the mark of the end on is converted. -/
theorem itemsFrom_append_of_endsInput {operators : Operators} {tail : List Token}
    (h : EndsInput tail) (stack ts : List Token) :
    itemsFrom operators stack (ts ++ tail) = itemsFrom operators stack ts := by
  induction ts generalizing stack with
  | nil =>
    cases tail with
    | nil => rfl
    | cons t tail => exact itemsFrom_end (h t rfl)
  | cons t ts ih => simp only [List.cons_append, itemsFrom_cons, ih]

/-- An expression is converted to the postorder of its tree, item by item. If too many tokens wait,
which only a long expression brings about, a first part of it is put out. -/
theorem convertItems_of_derives {operators : Operators} {g : Grammar}
    (hg : g.Within (.ofOperators operators)) {ts : List Token} (h : g.Derives .expression ts) :
    ∃ x, parse? operators ts = some x ∧ x.Conforms g ∧
      (convertItems operators ts = x.postorder.map .ok ∨
        (waitingCapacity < ts.length ∧ ∃ p, p <+: x.postorder ∧
          convertItems operators ts = p.map .ok ++ [.error tooManyWait])) := by
  obtain ⟨x, hparse, hx, hread⟩ := parse?_of_derives hg h
  refine ⟨x, hparse, hx, ?_⟩
  have hwhole := hread [] (Climb.stops_nil none)
  rw [List.append_nil] at hwhole
  have hconv := converts_of_expression? none ts hwhole holds_nil (by intro u hu; cases hu)
  have hend : itemsFrom operators [] [] = [] := rfl
  rw [Converts, hend, List.append_nil] at hconv
  rcases hconv with hconv | ⟨p, hp, hconv⟩
  · exact .inl hconv
  · have hmem : .error tooManyWait ∈ itemsFrom operators [] ts := by simp [hconv]
    exact .inr ⟨by simpa using lt_of_capacityExceeded hmem, p, hp, hconv⟩

/-- What stands behind the end of an input does not change its conversion. -/
theorem convertItems_append_of_endsInput {operators : Operators} {tail : List Token}
    (h : EndsInput tail) (ts : List Token) :
    convertItems operators (ts ++ tail) = convertItems operators ts :=
  itemsFrom_append_of_endsInput h [] ts

/-- **An expression is converted to the postorder of the tree that climbing precedences gives.**
Only an expression of more tokens than may wait can fail, and only for lack of room. -/
theorem convertTokens_of_derives {operators : Operators} {ts tail : List Token}
    (h : (Grammar.ofOperators operators).Derives .expression ts) (htail : EndsInput tail) :
    ∃ x, parse? operators ts = some x ∧
      (convertTokens operators (ts ++ tail) = .ok x.postorder ∨
        (convertTokens operators (ts ++ tail) = .error (.capacityExceeded .operatorStack) ∧
          waitingCapacity < ts.length)) := by
  obtain ⟨x, hparse, hx, hitems⟩ := convertItems_of_derives (.refl _) h
  have hlegal : ∀ t ∈ x.postorder, t.kind ≠ .illegal := fun t ht =>
    (hx.kind_ne_of_mem_postorder (.refl _) ht).1
  refine ⟨x, hparse, ?_⟩
  rw [convertTokens, convertItems_append_of_endsInput htail]
  rcases hitems with hitems | ⟨hlt, p, hp, hitems⟩
  · left
    rw [hitems, ← List.append_nil (x.postorder.map _), collect_map_ok_append hlegal]
    simp [collect, Except.map]
  · refine .inr ⟨?_, hlt⟩
    rw [hitems, collect_map_ok_append fun t ht => hlegal t (hp.subset ht)]
    rfl

/-- `2 * ~ 3 ** 4 + 5` with a `**` that groups from the right and a `~` that binds less tight than
the sum. -/
theorem convertTokens_looseOperator :
    let operators := ((Context.default.setOperator "~" (.unary 5 negation)).context.setOperator "**"
      (.groupingRight (.binary 35 BinaryBuiltin.mul.operation))).context.operators
    let ts : List Token := [⟨.integer, "2", 0⟩, ⟨.operator, "*", 2⟩, ⟨.operator, "~", 4⟩,
      ⟨.integer, "3", 6⟩, ⟨.operator, "**", 8⟩, ⟨.integer, "4", 11⟩, ⟨.operator, "+", 13⟩,
      ⟨.integer, "5", 15⟩]
    (Grammar.ofOperators operators).Derives .expression ts ∧ EndsInput [⟨.endOfInput, "", 16⟩] ∧
      ∃ x, parse? operators ts = some x ∧
        convertTokens operators (ts ++ [⟨.endOfInput, "", 16⟩]) = .ok x.postorder := by
  intro operators ts
  have h : (Grammar.ofOperators operators).Derives .expression ts :=
    .expression (.literal rfl) <| .link rfl (.unary rfl (.literal rfl)) <|
      .link rfl (.literal rfl) <| .link rfl (.literal rfl) .noLink
  have htail : EndsInput [⟨.endOfInput, "", 16⟩] := by
    intro t ht
    cases ht
    rfl
  obtain ⟨x, hx, hconv | ⟨-, hlt⟩⟩ := convertTokens_of_derives h htail
  · exact ⟨h, htail, x, hx, hconv⟩
  · exact absurd hlt (by decide)

end Formula
