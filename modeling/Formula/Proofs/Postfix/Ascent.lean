import Formula.Proofs.Postfix.Bounds
import Formula.Proofs.Postfix.Laziness
import Mathlib.Data.Finset.Card
import Mathlib.Data.List.Chain

/-!
# Runs of operators ascend

An incoming operator releases all that bind as tightly or tighter, so those that wait between two
brackets or names bind the tighter the later they came. There are no more of them than there are
precedences. What waits then grows with the depth of an expression, and not with its length.

* `Operators.IsLayered`: the tables for which this holds. `Operators.levels`: their precedences.
* `Operators.Ascends`: operators in a row as they may wait.
* `Operators.Sits`, `Terraced`: the same for neighbours, and for a whole stack.
  `Terraced.stackAfter` is one token, `Converter.Reachable.terraced` a whole conversion.
* `Terraced.ascends`: the runs of such a stack. `Terraced.length_le`: what it may hold.
* `exists_full_of_convertTokens`: how much waits where there is no room for a token.
-/

namespace Formula

/-! ## Tables -/

namespace Operators

/-- An operator that stands in front of its operand. -/
def isFront (operators : Operators) (t : Token) : Bool :=
  t.kind == .operator && (operators.find? t.text).any (·.arity == 1)

/-- An operator that has an operand on its left. -/
def isBetween (operators : Operators) (t : Token) : Bool :=
  t.kind == .operator && (operators.find? t.text).any (·.arity != 1)

/-- How tightly an operator binds; what is no operator of the table does not bind. -/
def binding (operators : Operators) (t : Token) : Nat :=
  ((operators.find? t.text).map (·.precedence)).getD 0

/-- A table whose operators between operands all group from the left, and bind less tightly than
those in front of their operand. -/
structure IsLayered (operators : Operators) : Prop where
  leftAssociative : ∀ symbol spec, operators.find? symbol = some spec → spec.arity ≠ 1 →
    spec.leftAssociative = true
  precedence_lt : ∀ symbol front symbol' between, operators.find? symbol = some front →
    front.arity = 1 → operators.find? symbol' = some between → between.arity ≠ 1 →
    between.precedence < front.precedence

/-- The precedences of the operators between operands. -/
def levels (operators : Operators) : Finset Nat :=
  ((operators.entries.filter (·.2.arity ≠ 1)).map (·.2.precedence)).toFinset

/-- Operators in a row, the last one first: between operands those that bind the tighter the later
they came, and above them any number that stand in front of their operand. -/
def Ascends (operators : Operators) (run : List Token) : Prop :=
  ∃ fronts betweens, run = fronts ++ betweens ∧ (∀ t ∈ fronts, operators.isFront t = true) ∧
    (∀ t ∈ betweens, operators.isBetween t = true) ∧
    betweens.Pairwise fun upper lower => operators.binding lower < operators.binding upper

/-- Of two operators one above the other, the upper one stands in front of its operand, or both
stand between operands and the upper one binds tighter. -/
def Sits (operators : Operators) (upper lower : Token) : Prop :=
  upper.kind = .operator → lower.kind = .operator → operators.isFront upper = true ∨
    operators.isBetween upper = true ∧ operators.isBetween lower = true ∧
      operators.binding lower < operators.binding upper

variable {operators : Operators} {t : Token} {spec : Operator} {run : List Token}

theorem isFront_iff : operators.isFront t = true ↔
    t.kind = .operator ∧ ∃ spec, operators.find? t.text = some spec ∧ spec.arity = 1 := by
  simp [isFront, Option.any_eq_true]

theorem isBetween_iff : operators.isBetween t = true ↔
    t.kind = .operator ∧ ∃ spec, operators.find? t.text = some spec ∧ spec.arity ≠ 1 := by
  simp [isBetween, Option.any_eq_true]

theorem binding_eq (h : operators.find? t.text = some spec) :
    operators.binding t = spec.precedence := by
  rw [binding, h]
  rfl

theorem isBetween_eq_false (h : operators.isFront t = true) : operators.isBetween t = false := by
  obtain ⟨-, spec, hfind, harity⟩ := isFront_iff.1 h
  simp [isBetween, hfind, harity]

theorem binding_mem_levels (h : operators.isBetween t = true) :
    operators.binding t ∈ operators.levels := by
  obtain ⟨-, spec, hfind, harity⟩ := isBetween_iff.1 h
  rw [binding_eq hfind, levels, List.mem_toFinset]
  exact List.mem_map.2 ⟨(t.text, spec),
    List.mem_filter.2 ⟨mem_entries_of_find? hfind, by simpa using harity⟩, rfl⟩

/-- No two operators of an ascending run that stand between operands have one precedence. -/
theorem Ascends.countP_isBetween_le (h : operators.Ascends run) :
    run.countP operators.isBetween ≤ operators.levels.card := by
  obtain ⟨fronts, betweens, rfl, hfronts, hbetweens, hpairwise⟩ := h
  have hnone : fronts.countP operators.isBetween = 0 := by
    rw [List.countP_eq_zero]
    intro t ht
    rw [isBetween_eq_false (hfronts t ht)]
    exact Bool.false_ne_true
  have hnodup : (betweens.map operators.binding).Nodup :=
    List.pairwise_map.2 (hpairwise.imp Nat.ne_of_gt)
  have hsub : (betweens.map operators.binding).toFinset ⊆ operators.levels := by
    intro p hp
    obtain ⟨t, ht, rfl⟩ := List.mem_map.1 (List.mem_toFinset.1 hp)
    exact binding_mem_levels (hbetweens t ht)
  calc (fronts ++ betweens).countP operators.isBetween
      = betweens.countP operators.isBetween := by rw [List.countP_append, hnone, Nat.zero_add]
    _ ≤ (betweens.map operators.binding).length := by
      rw [List.length_map]
      exact List.countP_le_length
    _ = (betweens.map operators.binding).toFinset.card :=
      (List.toFinset_card_of_nodup hnodup).symm
    _ ≤ operators.levels.card := Finset.card_le_card hsub

end Operators

/-! ## Stacks -/

/-- A name or an open bracket. Both stop the scan for operators. -/
def Token.isBarrier (t : Token) : Bool := t.kind == .identifier || t.kind == .openParen

/-- A stack of tokens that may wait on which no operator sits where it may not. -/
structure Terraced (operators : Operators) (stack : List Token) : Prop where
  orderly : Orderly operators stack
  chain : stack.IsChain operators.Sits

section Stacks

variable {operators : Operators} {stack below run : List Token} {t u : Token}

theorem terraced_nil (operators : Operators) : Terraced operators [] := ⟨orderly_nil, .nil⟩

theorem Terraced.suffix (h : Terraced operators stack) (hbelow : below <:+ stack) :
    Terraced operators below :=
  ⟨h.orderly.sublist hbelow.sublist, h.chain.suffix hbelow⟩

theorem Terraced.cons (h : Terraced operators stack) (ht : MayWait operators t)
    (htop : ∀ u ∈ stack.head?, operators.Sits t u) : Terraced operators (t :: stack) :=
  ⟨h.orderly.cons ht, List.isChain_cons.2 ⟨htop, h.chain⟩⟩

theorem sits_of_ne_operator (h : t.kind ≠ .operator) (u : Token) : operators.Sits t u :=
  fun hk => absurd hk h

/-- What an operator does not release, it may sit on. -/
theorem sits_keptBy (hoperators : operators.IsLayered) (h : Orderly operators stack)
    (hk : t.kind = .operator) (ht : MayWait operators t)
    (hu : u ∈ (keptBy operators stack t).head?) : operators.Sits t u := by
  intro _ hku
  obtain ⟨incoming, hfind⟩ := Option.isSome_iff_exists.1 (ht.find? hk)
  by_cases harity : incoming.arity = 1
  · exact .inl (Operators.isFront_iff.2 ⟨hk, incoming, hfind, harity⟩)
  · have hmem : u ∈ stack := (suffix_keptBy operators stack t).subset (List.mem_of_mem_head? hu)
    obtain ⟨waiting, hwaiting⟩ := Option.isSome_iff_exists.1 ((h u hmem).find? hku)
    -- the scan has stopped at `u`
    have hstays : isReleasedBy operators incoming u = false := by
      simp only [keptBy, hfind, if_neg harity] at hu
      have hhead := List.head?_dropWhile_not (isReleasedBy operators incoming) stack
      rw [Option.mem_def.1 hu] at hhead
      simpa using hhead
    have hleft := hoperators.leftAssociative _ _ hfind harity
    have hlt : waiting.precedence < incoming.precedence := by
      simp only [isReleasedBy, hku, hwaiting, Operator.precedes, hleft, beq_self_eq_true,
        Bool.true_and, Option.any_some, Bool.and_true, Bool.or_eq_false_iff,
        decide_eq_false_iff_not, beq_eq_false_iff_ne] at hstays
      omega
    have hbetween : waiting.arity ≠ 1 := fun hfront =>
      Nat.lt_asymm hlt (hoperators.precedence_lt _ _ _ _ hwaiting hfront hfind harity)
    refine .inr ⟨Operators.isBetween_iff.2 ⟨hk, incoming, hfind, harity⟩,
      Operators.isBetween_iff.2 ⟨hku, waiting, hwaiting, hbetween⟩, ?_⟩
    rwa [Operators.binding_eq hwaiting, Operators.binding_eq hfind]

/-- One token. A closing bracket uncovers what lay below an open one. -/
theorem Terraced.stackAfter (h : Terraced operators stack) (hoperators : operators.IsLayered)
    (ht : t.kind = .operator → MayWait operators t) :
    Terraced operators (stackAfter operators stack t) := by
  unfold Formula.stackAfter
  split
  · next hk => exact h.cons (.inr (.inl hk)) fun u _ => sits_of_ne_operator (by simp [hk]) u
  · next hk => exact h.cons (.inr (.inr hk)) fun u _ => sits_of_ne_operator (by simp [hk]) u
  · next hk =>
    exact (h.suffix (suffix_keptBy operators stack t)).cons (ht hk) fun u hu =>
      sits_keptBy hoperators h.orderly hk (ht hk) hu
  · exact h.suffix (suffix_fromOpen stack)
  · exact h.suffix (suffix_belowOpen stack)
  · exact h

/-- Operators in a row ascend. -/
theorem Terraced.ascends (h : Terraced operators stack) (hrun : run <:+: stack)
    (hk : ∀ t ∈ run, t.kind = .operator) : operators.Ascends run := by
  have horderly := h.orderly.sublist hrun.sublist
  have hchain := h.chain.infix hrun
  clear h hrun
  induction run with
  | nil => exact ⟨[], [], rfl, List.forall_mem_nil _, List.forall_mem_nil _, .nil⟩
  | cons t run ih =>
    obtain ⟨ht, hk⟩ := List.forall_mem_cons.1 hk
    obtain ⟨hsits, hchain⟩ := List.isChain_cons.1 hchain
    obtain ⟨fronts, betweens, rfl, hfronts, hbetweens, hpairwise⟩ :=
      ih hk (horderly.sublist (List.sublist_cons_self t run)) hchain
    cases hfront : operators.isFront t with
    | true =>
      exact ⟨t :: fronts, betweens, rfl, List.forall_mem_cons.2 ⟨hfront, hfronts⟩, hbetweens,
        hpairwise⟩
    | false =>
      have hbetween : operators.isBetween t = true := by
        obtain ⟨spec, hfind⟩ := Option.isSome_iff_exists.1 ((horderly t (by simp)).find? ht)
        simpa [Operators.isFront, Operators.isBetween, ht, hfind] using hfront
      -- nothing that stands in front of its operand lies below `t`
      cases fronts with
      | cons u fronts =>
        have hu := hfronts u (by simp)
        rcases hsits u rfl ht (hk u (by simp)) with h | ⟨-, h, -⟩
        · rw [h] at hfront
          cases hfront
        · rw [Operators.isBetween_eq_false hu] at h
          cases h
      | nil =>
        refine ⟨[], t :: betweens, rfl, List.forall_mem_nil _,
          List.forall_mem_cons.2 ⟨hbetween, hbetweens⟩, List.pairwise_cons.2 ⟨?_, hpairwise⟩⟩
        -- Each binds tighter than the next one below, and so than all below.
        cases betweens with
        | nil => exact List.forall_mem_nil _
        | cons u betweens =>
          have hlt : operators.binding u < operators.binding t := by
            rcases hsits u rfl ht (hk u (by simp)) with h | ⟨-, -, h⟩
            · rw [h] at hfront
              cases hfront
            · exact h
          refine List.forall_mem_cons.2 ⟨hlt, fun v hv => ?_⟩
          exact Nat.lt_trans (List.rel_of_pairwise_cons hpairwise hv) hlt

/-- The operators on the top of a stack. -/
abbrev topRun (stack : List Token) : List Token := stack.takeWhile (·.kind == .operator)

theorem Terraced.countP_topRun_le (h : Terraced operators stack) :
    (topRun stack).countP operators.isBetween ≤ operators.levels.card := by
  refine (h.ascends (List.takeWhile_prefix _).isInfix fun t ht => ?_).countP_isBetween_le
  simpa using List.all_eq_true.1 List.all_takeWhile t ht

theorem MayWait.cases (h : MayWait operators t) :
    t.isBarrier = true ∧ t.kind ≠ .operator ∧ operators.isFront t = false ∨
      t.isBarrier = false ∧ t.kind = .operator ∧
        (operators.isFront t = true ∨
          operators.isFront t = false ∧ operators.isBetween t = true) := by
  rcases h with ⟨hk, hfind⟩ | hk | hk
  · obtain ⟨spec, hfind⟩ := Option.isSome_iff_exists.1 hfind
    by_cases harity : spec.arity = 1 <;>
      simp [Token.isBarrier, Operators.isFront, Operators.isBetween, hk, hfind, harity]
  · simp [Token.isBarrier, Operators.isFront, hk]
  · simp [Token.isBarrier, Operators.isFront, hk]

/-- What waits is bounded by the brackets and names among it, and by the operators in front of
their operand. -/
theorem Terraced.length_le (h : Terraced operators stack) :
    stack.length ≤ (operators.levels.card + 1) * stack.countP Token.isBarrier
      + operators.levels.card + stack.countP operators.isFront := by
  -- Only the run on the top grows, so the induction counts what is in it.
  have hexact : stack.length ≤ (operators.levels.card + 1) * stack.countP Token.isBarrier
      + (topRun stack).countP operators.isBetween + stack.countP operators.isFront := by
    induction stack with
    | nil => exact Nat.zero_le _
    | cons t stack ih =>
      have hbelow := h.suffix (List.suffix_cons t stack)
      have hlength := ih hbelow
      have htop := hbelow.countP_topRun_le
      simp only [topRun, List.length_cons, List.countP_cons, List.takeWhile_cons] at hlength htop ⊢
      rcases (h.orderly t List.mem_cons_self).cases with
        ⟨hbarrier, hk, hfront⟩ | ⟨hbarrier, hk, hfront | ⟨hfront, hbetween⟩⟩
      · -- a bracket or a name ends the run below it, which its factor covers
        simp only [hbarrier, hk, hfront, beq_iff_eq, if_true, if_false, List.countP_nil,
          Bool.false_eq_true, Nat.mul_add, Nat.add_zero]
        omega
      · simp only [hbarrier, hk, hfront, beq_self_eq_true, if_true, if_false, List.countP_cons,
          Bool.false_eq_true, Nat.add_zero]
        omega
      · simp only [hbarrier, hk, hfront, hbetween, beq_self_eq_true, if_true, if_false,
          List.countP_cons, Bool.false_eq_true, Nat.add_zero]
        omega
  have htop := h.countP_topRun_le
  omega

end Stacks

/-! ## Conversions -/

section Conversions

variable {operators : Operators} {input ts before : List Token} {c : Converter} {t : Token}

/-- The end of the input leaves nothing waiting. -/
theorem convertEnd_ne_waiting (stack stack' : List Token) :
    (convertEnd stack).progress ≠ .waiting stack' := by
  unfold convertEnd
  split <;> exact Progress.noConfusion

/-- One token, or the end of the input. -/
theorem waiting_accept (h : Orderly operators c.waiting) (t? : Option Token) :
    (c.accept operators t?).waiting = [] ∨
      ∃ t, t? = some t ∧ (t.kind = .operator → MayWait operators t) ∧
        (c.accept operators t?).waiting = stackAfter operators c.waiting t := by
  obtain ⟨progress, queue⟩ := c
  cases progress with
  | done | failed => exact .inl rfl
  | waiting stack =>
    cases t? with
    | none =>
      show Converter.waiting ⟨(convertEnd stack).progress, _⟩ = [] ∨ _
      cases hp : (convertEnd stack).progress with
      | waiting stack' => exact absurd hp (convertEnd_ne_waiting stack stack')
      | done | failed => exact .inl rfl
    | some t =>
      show Converter.waiting ⟨(convertToken operators stack t).progress, _⟩ = [] ∨
        ∃ u, some t = some u ∧ (u.kind = .operator → MayWait operators u) ∧
          Converter.waiting ⟨(convertToken operators stack t).progress, _⟩
            = stackAfter operators stack u
      cases hp : (convertToken operators stack t).progress with
      | waiting stack' =>
        obtain ⟨hafter, ht⟩ := of_convertToken_waiting h hp
        exact .inr ⟨t, rfl, ht, hafter⟩
      | done | failed => exact .inl rfl

theorem Orderly.accept (h : Orderly operators c.waiting) (t? : Option Token) :
    Orderly operators (c.accept operators t?).waiting := by
  rcases waiting_accept h t? with hnone | ⟨t, -, ht, hafter⟩
  · rw [hnone]
    exact orderly_nil
  · rw [hafter]
    exact h.stackAfter ht

theorem Terraced.accept (h : Terraced operators c.waiting) (hoperators : operators.IsLayered)
    (t? : Option Token) : Terraced operators (c.accept operators t?).waiting := by
  rcases waiting_accept h.orderly t? with hnone | ⟨t, -, ht, hafter⟩
  · rw [hnone]
    exact terraced_nil operators
  · rw [hafter]
    exact h.stackAfter hoperators ht

/-- Every reachable conversion. -/
theorem Converter.Reachable.terraced (hoperators : operators.IsLayered)
    (h : c.Reachable operators) : Terraced operators c.waiting := by
  induction h with
  | start => exact terraced_nil operators
  | accept t? _ _ ih => exact ih.accept hoperators t?
  | take _ ih => exact ih

namespace Conversion

/-- What waits behind some attempts to read. -/
abbrev waitingAfter (operators : Operators) (input : List Token) (n : Nat) : List Token :=
  (reading operators input n).converter.waiting

theorem terraced_waitingAfter (hoperators : operators.IsLayered) (input : List Token) (n : Nat) :
    Terraced operators (waitingAfter operators input n) := by
  induction n with
  | zero => exact terraced_nil operators
  | succ n ih =>
    rw [waitingAfter, converter_reading_succ]
    exact ih.accept hoperators input[n]?

theorem orderly_waitingAfter (operators : Operators) (input : List Token) (n : Nat) :
    Orderly operators (waitingAfter operators input n) := by
  induction n with
  | zero => exact orderly_nil
  | succ n ih =>
    rw [waitingAfter, converter_reading_succ]
    exact ih.accept input[n]?

end Conversion

theorem sublist_stackAfter (operators : Operators) (stack : List Token) (t : Token) :
    (stackAfter operators stack t).Sublist (t :: stack) := by
  unfold stackAfter
  split
  · exact .refl _
  · exact .refl _
  · exact (suffix_keptBy operators stack t).sublist.cons_cons t
  · exact (suffix_fromOpen stack).sublist.cons t
  · exact (suffix_belowOpen stack).sublist.cons t
  · exact List.sublist_cons_self t stack

/-- What waits has been read, the last token last. -/
theorem sublist_waitingAfter (operators : Operators) (input : List Token) (n : Nat) :
    (Conversion.waitingAfter operators input n).Sublist (input.take n).reverse := by
  induction n with
  | zero => exact List.nil_sublist _
  | succ n ih =>
    rw [Conversion.waitingAfter, Conversion.converter_reading_succ]
    rcases waiting_accept (Conversion.orderly_waitingAfter operators input n) input[n]? with
      hnone | ⟨t, ht, -, hafter⟩
    · rw [hnone]
      exact List.nil_sublist _
    · rw [hafter, List.take_add_one, ht, Option.toList_some, List.reverse_append,
        List.reverse_singleton, List.singleton_append]
      exact (sublist_stackAfter operators _ t).trans (ih.cons_cons t)

/-! ## No room -/

/-- Behind tokens of which none offends, a conversion has come to what waits behind them. -/
theorem progress_reading (h : Inoffensive operators ts) (hend : ∀ t ∈ ts, t.kind ≠ .endOfInput)
    (rest : List Token) :
    (Conversion.reading operators (ts ++ rest) ts.length).converter.progress
      = .waiting (waitingBehind operators ts) := by
  induction ts using List.reverseRecOn generalizing rest with
  | nil => rfl
  | append_singleton ts t ih =>
    obtain ⟨hts, ht⟩ := inoffensive_concat.1 h
    obtain ⟨hend, htend⟩ := List.forall_mem_append.1 hend
    have hlegal : t.kind ≠ .illegal := fun hk => by simp [offence?, hk] at ht
    obtain ⟨out, -, hconv⟩ :=
      convertToken_eq (orderly_waitingBehind hts) (htend t List.mem_cons_self) hlegal
    have hnext : (ts ++ (t :: rest))[ts.length]? = some t := by simp
    rw [List.append_assoc, List.singleton_append, List.length_append, List.length_singleton,
      Conversion.converter_reading_succ, hnext, Converter.accept, ih hts hend]
    show (convertToken operators (waitingBehind operators ts) t).progress = _
    rw [hconv, progressBehind, ht]
    rfl

/-- There is room for a token unless as many wait as may wait. -/
theorem le_of_offence (h : offence? operators before t = some tooManyWait) :
    waitingCapacity ≤ (waitingBehind operators before).length := by
  have hover : overflow? operators before t = some tooManyWait →
      waitingCapacity ≤ (waitingBehind operators before).length := by
    intro h
    unfold overflow? at h
    split at h
    · next hlt =>
      rw [waitingBehind_concat] at hlt
      have hle := (sublist_stackAfter operators (waitingBehind operators before) t).length_le
      exact Nat.le_of_lt_succ (Nat.lt_of_lt_of_le hlt hle)
    · cases h
  cases hk : t.kind with
  | identifier | openParen =>
    simp only [offence?, hk] at h
    exact hover h
  | operator =>
    simp only [offence?, hk] at h
    split at h
    · cases h
    · exact hover h
  | separator | closeParen =>
    simp only [offence?, hk] at h
    split at h <;> cases h
  | integer | float | string | endOfInput | illegal =>
    simp only [offence?, hk] at h
    cases h

/-- **A conversion that finds no room** has come to a point at which as many tokens wait as may
wait. -/
theorem exists_full_of_convertTokens (h : convertTokens operators input = .error tooManyWait) :
    ∃ n, waitingCapacity ≤ (Conversion.waitingAfter operators input n).length := by
  have hoffends : ¬Inoffensive operators (beforeEnd input) := by
    intro hin
    cases hopen : unclosed (beforeEnd input) with
    | nil =>
      obtain ⟨out, hout⟩ := convertTokens_of_closed hin hopen
      rw [hout] at h
      cases h
    | cons opening below =>
      rw [convertTokens_of_unclosed hin hopen] at h
      cases h
  obtain ⟨before, t, after, e, hbefore, hin, ho⟩ := exists_first_offence hoffends
  obtain rfl : e = tooManyWait := by
    rw [convertTokens_of_offence hbefore hin ho] at h
    cases h
    rfl
  have hend : ∀ u ∈ before, u.kind ≠ .endOfInput := by
    intro u hu
    apply ne_endOfInput_of_mem_beforeEnd
    rw [hbefore]
    exact List.mem_append_left _ hu
  obtain ⟨tail, hinput, -⟩ := exists_beforeEnd input
  rw [hbefore, List.append_assoc] at hinput
  refine ⟨before.length, ?_⟩
  rw [hinput, Conversion.waitingAfter, Converter.waiting, progress_reading hin hend]
  exact le_of_offence ho

end Conversions

end Formula
