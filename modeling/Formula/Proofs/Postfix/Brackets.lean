import Formula.Builtin
import Formula.Proofs.Postfix.Permutation
import Mathlib.Data.List.Infix
import Mathlib.Data.List.TakeWhile

/-!
# Brackets around brackets

What waits above an open bracket is converted without a look at the bracket or at what waits below
it. So it makes no difference whether one bracket is open there, or two, or none.

* `IsFloor`: what waits below, with an open bracket on its top. `convertToken_floor`: one token
  above a floor.
* `Balances`: brackets that have their partners, by counting.
* `Yields`: an output that may break off because too many tokens wait.
* `yields_above`: the same tokens above two floors. `yields_behind`: the same tokens in front.
* `convertTokens_brackets`: brackets around a whole input, and around brackets.
  `convertTokens_brackets_full`: where there is no room for them.
-/

namespace Formula

/-- A part of a stack that begins with an open bracket, or is empty. -/
def IsFloor (floor : List Token) : Prop := ∀ t ∈ floor.head?, t.kind = .openParen

/-- How a conversion stands that has a floor below what waits. -/
def Progress.above (floor : List Token) : Progress → Progress
  | .waiting stack => .waiting (stack ++ floor)
  | .done => .done
  | .failed e => .failed e

/-- The name on the top of a stack, if there is one. -/
def nameOnTop : List Token → List Token
  | [] => []
  | top :: _ => if top.kind = .identifier then [top] else []

/-! ## Stacks with a floor -/

section Floor

variable {operators : Operators} {stack floor below released : List Token} {opening t : Token}

theorem isFloor_nil : IsFloor [] := by
  intro t ht
  cases ht

theorem isFloor_cons (h : opening.kind = .openParen) : IsFloor (opening :: below) := by
  intro t ht
  cases ht
  exact h

theorem brackets_append (stack below : List Token) :
    brackets (stack ++ below) = brackets stack ++ brackets below :=
  List.filter_append ..

theorem notOpen_of_brackets_eq_nil (h : brackets stack = []) : ∀ t ∈ stack, notOpen t = true := by
  intro t ht
  have hnot := List.filter_eq_nil_iff.1 h t ht
  simpa using hnot

theorem IsFloor.brackets_ne_nil (h : IsFloor floor) (hne : floor ≠ []) : brackets floor ≠ [] := by
  obtain ⟨opening, below, rfl⟩ := List.exists_cons_of_ne_nil hne
  rw [brackets_cons_of_open (h opening rfl)]
  exact List.cons_ne_nil _ _

theorem IsFloor.aboveOpen (h : IsFloor floor) : aboveOpen floor = [] := by
  cases floor with
  | nil => rfl
  | cons opening below => simp [Formula.aboveOpen, notOpen, h opening rfl]

theorem IsFloor.fromOpen (h : IsFloor floor) : fromOpen floor = floor := by
  cases floor with
  | nil => rfl
  | cons opening below => simp [Formula.fromOpen, notOpen, h opening rfl]

theorem aboveOpen_append_floor (h : IsFloor floor) :
    aboveOpen (stack ++ floor) = aboveOpen stack := by
  induction stack with
  | nil => exact h.aboveOpen
  | cons top stack ih =>
    unfold aboveOpen at ih ⊢
    rw [List.cons_append, List.takeWhile_cons, List.takeWhile_cons, ih]

theorem fromOpen_append_floor (h : IsFloor floor) :
    fromOpen (stack ++ floor) = fromOpen stack ++ floor := by
  induction stack with
  | nil => exact h.fromOpen
  | cons top stack ih =>
    unfold fromOpen at ih ⊢
    rw [List.cons_append, List.dropWhile_cons, List.dropWhile_cons, ih]
    split <;> rfl

theorem fromOpen_append_floor_of_eq (h : IsFloor floor)
    (hfrom : fromOpen stack = opening :: below) :
    fromOpen (stack ++ floor) = opening :: (below ++ floor) := by
  rw [fromOpen_append_floor h, hfrom, List.cons_append]

theorem aboveOpen_of_brackets_eq_nil (h : brackets stack = []) : aboveOpen stack = stack :=
  List.takeWhile_eq_self_iff.2 (notOpen_of_brackets_eq_nil h)

theorem fromOpen_of_brackets_eq_nil (h : brackets stack = []) : fromOpen stack = [] :=
  List.dropWhile_eq_nil_iff.2 (notOpen_of_brackets_eq_nil h)

/-- Above a bracket in which none is open, it is the innermost one, and all lies above it. -/
theorem innermost_append (hopening : opening.kind = .openParen) (hnone : brackets stack = [])
    (below : List Token) :
    fromOpen (stack ++ opening :: below) = opening :: below ∧
      aboveOpen (stack ++ opening :: below) = stack := by
  have hfloor : IsFloor (opening :: below) := isFloor_cons hopening
  rw [fromOpen_append_floor hfloor, aboveOpen_append_floor hfloor,
    fromOpen_of_brackets_eq_nil hnone, aboveOpen_of_brackets_eq_nil hnone]
  exact ⟨rfl, rfl⟩

theorem nameOnTop_append_floor (h : IsFloor floor) :
    nameOnTop (stack ++ floor) = nameOnTop stack := by
  cases stack with
  | nil =>
    cases floor with
    | nil => rfl
    | cons opening below => simp [nameOnTop, h opening rfl]
  | cons top stack => rfl

theorem withoutName_append_floor (h : IsFloor floor) :
    withoutName (stack ++ floor) = withoutName stack ++ floor := by
  cases stack with
  | nil =>
    cases floor with
    | nil => rfl
    | cons opening below => simp [withoutName, h opening rfl]
  | cons top stack =>
    simp only [List.cons_append, withoutName]
    split <;> rfl

/-- The scan for operators does not come to a floor. -/
theorem releaseOperators_floor (incoming : Operator) (h : IsFloor floor) :
    releaseOperators operators incoming (stack ++ floor)
      = ((releaseOperators operators incoming stack).1,
          (releaseOperators operators incoming stack).2.map (· ++ floor)) := by
  induction stack with
  | nil =>
    cases floor with
    | nil => rfl
    | cons opening below => simp [releaseOperators, h opening rfl, Except.map]
  | cons top stack ih =>
    rw [List.cons_append, releaseOperators, releaseOperators, ih]
    split
    · split
      · rfl
      · split <;> rfl
    · rfl

theorem brackets_of_releaseOperators {incoming : Operator}
    (h : (releaseOperators operators incoming stack).2 = .ok below) :
    brackets below = brackets stack := by
  induction stack with
  | nil =>
    cases h
    rfl
  | cons top stack ih =>
    rw [releaseOperators] at h
    split at h
    · next hk =>
      split at h
      · cases h
      · split at h
        · rw [ih h, brackets_cons_of_ne (by simp [hk])]
        · cases h
          rfl
    · cases h
      rfl

theorem wait_eq (released : List Token) (t : Token) (stack : List Token) :
    wait released t stack = ⟨released, .waiting (t :: stack)⟩ ∨
      wait released t stack = ⟨released, .failed tooManyWait⟩ := by
  unfold wait
  split
  · exact .inr rfl
  · exact .inl rfl

theorem convertSeparator_eq (h : fromOpen stack = opening :: below) :
    convertSeparator stack t = ⟨aboveOpen stack, .waiting (opening :: below)⟩ := by
  simp only [convertSeparator, h]

theorem convertClose_eq (h : fromOpen stack = opening :: below) :
    convertClose stack t
      = ⟨aboveOpen stack ++ nameOnTop below, .waiting (withoutName below)⟩ := by
  cases below with
  | nil => simp only [convertClose, h, nameOnTop, withoutName, List.append_nil]
  | cons top below =>
    simp only [convertClose, h, nameOnTop, withoutName]
    split
    · rfl
    · rw [List.append_nil]

/-- What an operator releases above a floor, and what then waits there. -/
theorem convertOperator_floor (operators : Operators) (stack : List Token) (t : Token) :
    ∃ (released : List Token) (progress : Progress),
      (∀ above, progress = .waiting above →
        ∃ kept, above = t :: kept ∧ brackets kept = brackets stack) ∧
      ∀ floor, IsFloor floor →
        convertOperator operators (stack ++ floor) t = ⟨released, progress.above floor⟩ ∨
          convertOperator operators (stack ++ floor) t = ⟨released, .failed tooManyWait⟩ := by
  unfold convertOperator
  cases operators.find? t.text with
  | none =>
    exact ⟨[], .failed (undefinedOperator t), fun _ h => (by cases h), fun floor _ => .inl rfl⟩
  | some incoming =>
    -- An operator with one operand releases nothing; any other releases what goes before it, and
    -- stops at the bracket of the floor at the latest.
    by_cases harity : incoming.arity = 1
    · refine ⟨[], .waiting (t :: stack), ?_, fun floor _ => ?_⟩
      · rintro _ ⟨⟩
        exact ⟨stack, rfl, rfl⟩
      · simp only [harity, if_true]
        exact wait_eq [] t (stack ++ floor)
    · simp only [harity, if_false]
      rcases hrelease : releaseOperators operators incoming stack with ⟨released, top | kept⟩
      · refine ⟨released, .failed (undefinedOperator top), fun _ h => (by cases h),
          fun floor hfloor => .inl ?_⟩
        rw [releaseOperators_floor incoming hfloor, hrelease]
        rfl
      · refine ⟨released, .waiting (t :: kept), ?_, fun floor hfloor => ?_⟩
        · rintro _ ⟨⟩
          exact ⟨kept, rfl, brackets_of_releaseOperators (congrArg Prod.snd hrelease)⟩
        · rw [releaseOperators_floor incoming hfloor, hrelease]
          exact wait_eq released t (kept ++ floor)

/-- What a token releases above a floor, and what then waits there, does not depend on the floor, as
long as there is room. -/
theorem convertToken_floor (operators : Operators) (hend : t.kind ≠ .endOfInput)
    (hopen : t.kind = .separator ∨ t.kind = .closeParen → brackets stack ≠ []) :
    ∃ (released : List Token) (progress : Progress),
      (∀ above, progress = .waiting above →
        brackets above = unclosedAfter (brackets stack) t) ∧
      ∀ floor, IsFloor floor →
        convertToken operators (stack ++ floor) t = ⟨released, progress.above floor⟩ ∨
          convertToken operators (stack ++ floor) t = ⟨released, .failed tooManyWait⟩ := by
  have hbrackets := brackets_stackAfter operators stack t
  -- By the kind of the token: all that it releases lies above the floor. Only a token that then
  -- waits itself meets the limit, which is the one thing that depends on the floor.
  cases hk : t.kind with
  | integer | float | string =>
    refine ⟨[t], .waiting stack, ?_, fun floor _ => .inl (by simp only [convertToken, hk]; rfl)⟩
    rintro _ ⟨⟩
    simp only [unclosedAfter, hk]
  | illegal =>
    refine ⟨[t], .done, fun _ h => (by cases h), fun floor _ => .inl ?_⟩
    simp only [convertToken, hk]
    rfl
  | identifier | openParen =>
    simp only [stackAfter, hk] at hbrackets
    refine ⟨[], .waiting (t :: stack), ?_, fun floor _ => ?_⟩
    · rintro _ ⟨⟩
      exact hbrackets
    · simp only [convertToken, hk]
      exact wait_eq [] t (stack ++ floor)
  | operator =>
    obtain ⟨released, progress, habove, hconv⟩ := convertOperator_floor operators stack t
    refine ⟨released, progress, fun above hprogress => ?_, fun floor hfloor => ?_⟩
    · obtain ⟨kept, rfl, hkept⟩ := habove above hprogress
      rw [brackets_cons_of_ne (by simp [hk]), hkept]
      simp only [unclosedAfter, hk]
    · simp only [convertToken, hk]
      exact hconv floor hfloor
  | separator =>
    rcases fromOpen_eq stack with ⟨-, hnone⟩ | ⟨opening, below, hfrom, -, -⟩
    · exact absurd hnone (hopen (.inl hk))
    · simp only [stackAfter, hk, hfrom] at hbrackets
      refine ⟨aboveOpen stack, .waiting (opening :: below), ?_, fun floor hfloor => .inl ?_⟩
      · rintro _ ⟨⟩
        exact hbrackets
      · simp only [convertToken, hk]
        rw [convertSeparator_eq (fromOpen_append_floor_of_eq hfloor hfrom),
          aboveOpen_append_floor hfloor]
        rfl
  | closeParen =>
    rcases fromOpen_eq stack with ⟨-, hnone⟩ | ⟨opening, below, hfrom, -, -⟩
    · exact absurd hnone (hopen (.inr hk))
    · simp only [stackAfter, hk, hfrom, List.tail_cons] at hbrackets
      refine ⟨aboveOpen stack ++ nameOnTop below, .waiting (withoutName below), ?_,
        fun floor hfloor => .inl ?_⟩
      · rintro _ ⟨⟩
        exact hbrackets
      · simp only [convertToken, hk]
        rw [convertClose_eq (fromOpen_append_floor_of_eq hfloor hfrom),
          aboveOpen_append_floor hfloor, nameOnTop_append_floor hfloor,
          withoutName_append_floor hfloor]
        rfl
  | endOfInput => exact absurd hk hend

/-- One token above two floors, the second of which may be higher. -/
theorem convertToken_floors {floor' rest : List Token} (hfloor : IsFloor floor)
    (hfloor' : IsFloor floor') (hboth : floor ≠ [] → floor' ≠ []) (hend : t.kind ≠ .endOfInput)
    (hclose : t.kind = .closeParen → floor ≠ [] → brackets stack ≠ [])
    (h : convertToken operators (stack ++ floor) t = ⟨released, .waiting rest⟩) :
    ∃ above, rest = above ++ floor ∧ brackets above = unclosedAfter (brackets stack) t ∧
      (convertToken operators (stack ++ floor') t = ⟨released, .waiting (above ++ floor')⟩ ∨
        convertToken operators (stack ++ floor') t = ⟨released, .failed tooManyWait⟩) := by
  by_cases hopen : t.kind = .separator ∨ t.kind = .closeParen → brackets stack ≠ []
  · obtain ⟨out, progress, habove, hconv⟩ := convertToken_floor operators hend hopen
    rcases hconv floor hfloor with heq | heq
    · rw [h] at heq
      cases progress with
      | waiting above =>
        cases heq
        exact ⟨above, rfl, habove above rfl, hconv floor' hfloor'⟩
      | done => cases heq
      | failed e => cases heq
    · rw [h] at heq
      cases heq
  · -- a comma that stands in no bracket but that of the floor
    obtain ⟨hk, hnone⟩ := Classical.not_imp.1 hopen
    have hnone : brackets stack = [] := Classical.not_not.1 hnone
    cases floor with
    | nil =>
      have hfrom : fromOpen (stack ++ []) = [] := by
        rw [List.append_nil, fromOpen_of_brackets_eq_nil hnone]
      rcases hk with hk | hk <;>
        simp only [convertToken, hk, convertSeparator, convertClose, hfrom] at h <;> cases h
    | cons opening below =>
      have hne : opening :: below ≠ [] := List.cons_ne_nil _ _
      have hsep : t.kind = .separator := hk.resolve_right fun hk => hclose hk hne hnone
      obtain ⟨opening', below', rfl⟩ := List.exists_cons_of_ne_nil (hboth hne)
      have hconv : ∀ opening below, IsFloor (opening :: below) →
          convertToken operators (stack ++ opening :: below) t
            = ⟨stack, .waiting (opening :: below)⟩ := by
        intro opening below hfloor
        obtain ⟨hfrom, habove⟩ := innermost_append (hfloor opening rfl) hnone below
        simp only [convertToken, hsep]
        rw [convertSeparator_eq hfrom, habove]
      rw [hconv opening below hfloor] at h
      cases h
      refine ⟨[], rfl, ?_, .inl (hconv opening' below' hfloor')⟩
      simp only [unclosedAfter, hsep, hnone]
      rfl

end Floor

/-! ## Brackets with their partners -/

/-- How many brackets some tokens open. -/
def opened (ts : List Token) : Nat := ts.countP (·.kind == .openParen)

/-- How many brackets some tokens close. -/
def closed (ts : List Token) : Nat := ts.countP (·.kind == .closeParen)

/-- Behind `n` open brackets: no first part closes more than is open, and nothing is left open. -/
def Balances (n : Nat) (ts : List Token) : Prop :=
  (∀ p ∈ ts.inits, closed p ≤ n + opened p) ∧ closed ts = n + opened ts

instance (n : Nat) : DecidablePred (Balances n) := fun _ => inferInstanceAs (Decidable (_ ∧ _))

section Balances

variable {opens ts : List Token} {t : Token}

theorem opened_cons (t : Token) (ts : List Token) :
    opened (t :: ts) = opened ts + if t.kind = .openParen then 1 else 0 := by
  simp only [opened, List.countP_cons, beq_iff_eq]

theorem closed_cons (t : Token) (ts : List Token) :
    closed (t :: ts) = closed ts + if t.kind = .closeParen then 1 else 0 := by
  simp only [closed, List.countP_cons, beq_iff_eq]

/-- The brackets that are open behind a token, by counting. -/
theorem length_unclosedAfter (hclose : t.kind = .closeParen → opens ≠ []) (ts : List Token) :
    (unclosedAfter opens t).length + closed (t :: ts) + opened ts
      = opens.length + opened (t :: ts) + closed ts := by
  rw [opened_cons, closed_cons]
  unfold unclosedAfter
  split
  · next hk =>
    rw [if_pos hk, if_neg (by simp [hk]), List.length_cons]
    omega
  · next hk =>
    have hpos := List.length_pos_iff.2 (hclose hk)
    rw [if_pos hk, if_neg (by simp [hk]), List.length_tail]
    omega
  · next hopen hclose =>
    rw [if_neg hopen, if_neg hclose]
    omega

/-- What is open behind a token balances with what follows. -/
theorem balances_of_cons (h : Balances opens.length (t :: ts)) :
    (t.kind = .closeParen → opens ≠ []) ∧ Balances (unclosedAfter opens t).length ts := by
  obtain ⟨hparts, hwhole⟩ := h
  rw [List.inits_cons, List.forall_mem_cons, List.forall_mem_map] at hparts
  have hclose : t.kind = .closeParen → opens ≠ [] := by
    rintro hk rfl
    have hfirst := hparts.2 [] (by simp)
    rw [opened_cons, closed_cons] at hfirst
    simp [hk, opened, closed] at hfirst
  refine ⟨hclose, And.intro (fun p hp => ?_) ?_⟩
  · have hpart := hparts.2 p hp
    have hlength := length_unclosedAfter hclose p
    omega
  · have hlength := length_unclosedAfter hclose ts
    omega

end Balances

/-! ## Outputs that may break off -/

/-- The items are those tokens, or they break off because too many tokens wait. -/
def Yields (items : List Item) (out : List Token) : Prop :=
  items = out.map .ok ∨ ∃ p, p <+: out ∧ items = p.map .ok ++ [.error tooManyWait]

section Yields

variable {items : List Item} {out : List Token}

theorem Yields.append (released : List Token) (h : Yields items out) :
    Yields (released.map .ok ++ items) (released ++ out) := by
  rcases h with rfl | ⟨p, hp, rfl⟩
  · exact .inl List.map_append.symm
  · refine .inr ⟨released ++ p, (List.prefix_append_right_inj released).2 hp, ?_⟩
    rw [List.map_append, List.append_assoc]

theorem yields_of_full (released out : List Token) :
    Yields (released.map .ok ++ [.error tooManyWait]) (released ++ out) :=
  .inr ⟨released, List.prefix_append released out, rfl⟩

theorem Yields.collect (h : Yields items out) (hlegal : Legal out) :
    collect items = .ok out ∨
      collect items = .error tooManyWait ∧ .error tooManyWait ∈ items := by
  rcases h with rfl | ⟨p, hp, rfl⟩
  · exact .inl (collect_map_ok hlegal)
  · right
    rw [collect_map_ok_append fun t ht => hlegal t (hp.subset ht)]
    exact ⟨rfl, by simp⟩

end Yields

/-! ## Two conversions -/

section Above

variable {operators : Operators} {stack floor floor' input input' middle out : List Token}
  {opening closing : Token}

/-- The same tokens in front of what two conversions have in common. -/
theorem yields_behind (front : List Token)
    (hinput : ∀ stack out, itemsFrom operators stack input = out.map .ok →
      Yields (itemsFrom operators stack input') out)
    (h : itemsFrom operators stack (front ++ input) = out.map .ok) :
    Yields (itemsFrom operators stack (front ++ input')) out := by
  induction front generalizing stack out with
  | nil => exact hinput stack out h
  | cons t front ih =>
    rcases of_itemsFrom_cons_eq_map_ok h with ⟨released, stack', rest, hconv, hrest, rfl⟩ | hconv
    · rw [List.cons_append, itemsFrom_cons, hconv]
      simpa [Release.items] using (ih hrest).append released
    · rw [List.cons_append, itemsFrom_cons, hconv]
      exact .inl (by simp [Release.items])

/-- The same tokens above two floors, the second of which may be higher. -/
theorem yields_above (stack : List Token) (hfloor : IsFloor floor) (hfloor' : IsFloor floor')
    (hboth : floor ≠ [] → floor' ≠ []) (hend : floor = [] → ∀ t ∈ middle, t.kind ≠ .endOfInput)
    (hbalance : floor ≠ [] → Balances (brackets stack).length middle)
    (hinput : ∀ stack out, (floor ≠ [] → brackets stack = []) →
      itemsFrom operators (stack ++ floor) input = out.map .ok →
        Yields (itemsFrom operators (stack ++ floor') input') out)
    (h : itemsFrom operators (stack ++ floor) (middle ++ input) = out.map .ok) :
    Yields (itemsFrom operators (stack ++ floor') (middle ++ input')) out := by
  induction middle generalizing stack out with
  | nil =>
    refine hinput stack out (fun hne => List.length_eq_zero_iff.1 ?_) h
    simpa [opened, closed] using (hbalance hne).2.symm
  | cons t middle ih =>
    rw [List.cons_append] at h ⊢
    -- the end of the input would leave the bracket of the floor open
    have htend : t.kind ≠ .endOfInput := by
      intro hk
      have hne : floor ≠ [] := fun hnil => hend hnil t (List.mem_cons_self ..) hk
      rw [itemsFrom_end hk] at h
      have hclosed := (of_itemsFrom_nil_eq_map_ok h).1
      rw [brackets_append] at hclosed
      exact hfloor.brackets_ne_nil hne (List.append_eq_nil_iff.1 hclosed).2
    rcases of_itemsFrom_cons_eq_map_ok h with ⟨released, next, rest, hconv, hrest, rfl⟩ | hconv
    · obtain ⟨above, rfl, habove, hconv' | hconv'⟩ := convertToken_floors hfloor hfloor' hboth htend
        (fun hk hne => (balances_of_cons (hbalance hne)).1 hk) hconv
      · have hyields := ih above (fun hnil => (List.forall_mem_cons.1 (hend hnil)).2)
          (fun hne => by rw [habove]; exact (balances_of_cons (hbalance hne)).2) hrest
        rw [itemsFrom_cons, hconv']
        simpa [Release.items] using hyields.append released
      · rw [itemsFrom_cons, hconv']
        simpa [Release.items] using yields_of_full released rest
    · obtain ⟨hk, rfl⟩ := illegal_of_done htend hconv
      left
      simp [itemsFrom_cons, convertToken, hk, Release.items]

/-- A bracket is opened if there is room. -/
theorem itemsFrom_open (hopening : opening.kind = .openParen) :
    itemsFrom operators stack (opening :: input)
      = if waitingCapacity ≤ stack.length then [.error tooManyWait]
        else itemsFrom operators (opening :: stack) input := by
  rw [itemsFrom_cons]
  simp only [convertToken, hopening, wait]
  split <;> simp [Release.items]

/-- A bracket is closed that is open below `stack`. -/
theorem itemsFrom_close {below : List Token} (hopening : opening.kind = .openParen)
    (hclosing : closing.kind = .closeParen) (hnone : brackets stack = []) :
    itemsFrom operators (stack ++ opening :: below) (closing :: input)
      = (stack ++ nameOnTop below).map .ok ++ itemsFrom operators (withoutName below) input := by
  obtain ⟨hfrom, habove⟩ := innermost_append hopening hnone below
  rw [itemsFrom_cons]
  simp only [convertToken, hclosing]
  rw [convertClose_eq hfrom, habove]
  simp [Release.items]

/-- Brackets around a whole input. -/
theorem yields_bracketed (hopening : opening.kind = .openParen)
    (hclosing : closing.kind = .closeParen) (hend : ∀ t ∈ middle, t.kind ≠ .endOfInput)
    (h : itemsFrom operators [] middle = out.map .ok) :
    Yields (itemsFrom operators [] (opening :: (middle ++ [closing]))) out := by
  have hwhole : itemsFrom operators ([] ++ []) (middle ++ []) = out.map .ok := by simpa using h
  rw [itemsFrom_open hopening, if_neg (by decide)]
  refine yields_above [] isFloor_nil (isFloor_cons hopening) (absurd rfl) (fun _ => hend)
    (absurd rfl) (fun above out _ habove => .inl ?_) hwhole
  rw [List.append_nil] at habove
  obtain ⟨hnone, rfl⟩ := of_itemsFrom_nil_eq_map_ok habove
  rw [itemsFrom_close hopening hclosing hnone]
  simp [nameOnTop, withoutName, itemsFrom_nil, convertEnd, Release.items]

/-- Brackets around brackets. -/
theorem yields_rebracketed {opening₁ opening₂ closing₁ closing₂ : Token}
    (hopening : opening.kind = .openParen) (hclosing : closing.kind = .closeParen)
    (hopening₁ : opening₁.kind = .openParen) (hopening₂ : opening₂.kind = .openParen)
    (hclosing₁ : closing₁.kind = .closeParen) (hclosing₂ : closing₂.kind = .closeParen)
    (hmiddle : Balances 0 middle)
    (h : itemsFrom operators stack (opening :: (middle ++ closing :: input)) = out.map .ok) :
    Yields (itemsFrom operators stack
      (opening₁ :: opening₂ :: (middle ++ closing₂ :: closing₁ :: input))) out := by
  rw [itemsFrom_open hopening] at h
  rw [itemsFrom_open hopening₁, itemsFrom_open hopening₂]
  split at h
  · refine absurd ?_ (notMem_error_map_ok tooManyWait out)
    rw [← h]
    exact List.mem_singleton_self _
  · next hroom =>
    rw [if_neg hroom]
    split
    · exact .inr ⟨[], List.nil_prefix, rfl⟩
    · have hne : opening :: stack ≠ [] := List.cons_ne_nil _ _
      refine yields_above [] (isFloor_cons hopening) (isFloor_cons hopening₂)
        (fun _ => List.cons_ne_nil _ _) (fun hnil => absurd hnil hne) (fun _ => hmiddle)
        (fun above out hnone habove => .inl ?_) h
      have hnone := hnone hne
      rw [itemsFrom_close hopening hclosing hnone] at habove
      -- the inner bracket has no name in front of it, so it passes on only what stands inside
      have hone : nameOnTop (opening₁ :: stack) = [] := by simp [nameOnTop, hopening₁]
      have hstays : withoutName (opening₁ :: stack) = [] ++ opening₁ :: stack := by
        simp [withoutName, hopening₁]
      rw [itemsFrom_close hopening₂ hclosing₂ hnone, hone, hstays,
        itemsFrom_close hopening₁ hclosing₁ rfl, ← habove]
      simp

end Above

/-- What is put out is converted, or too many tokens wait, which only a long input brings about. -/
theorem Yields.convertTokens {operators : Operators} {input out : List Token}
    (h : Yields (itemsFrom operators [] input) out) (hlegal : Legal out) :
    convertTokens operators input = .ok out ∨
      convertTokens operators input = .error tooManyWait ∧ waitingCapacity < input.length := by
  refine (h.collect hlegal).imp_right fun ⟨herror, hmem⟩ => ⟨herror, ?_⟩
  simpa using lt_of_capacityExceeded hmem

/-- **Brackets that are not needed change nothing**: neither around a whole input, nor around
brackets, be they those of a call or of a group, whatever stands in front, behind and inside of
them. Only when too many tokens wait do they make a difference. -/
theorem convertTokens_brackets (operators : Operators) :
    (∀ (opening closing : Token) (middle out : List Token),
      opening.kind = .openParen → closing.kind = .closeParen →
      (∀ t ∈ middle, t.kind ≠ .endOfInput) → convertTokens operators middle = .ok out →
        let input := opening :: (middle ++ [closing])
        convertTokens operators input = .ok out ∨
          convertTokens operators input = .error (.capacityExceeded .operatorStack) ∧
            waitingCapacity < input.length) ∧
    (∀ (opening closing opening₁ opening₂ closing₁ closing₂ : Token)
        (front middle behind out : List Token),
      (∀ t ∈ [opening, opening₁, opening₂], t.kind = .openParen) →
      (∀ t ∈ [closing, closing₁, closing₂], t.kind = .closeParen) → Balances 0 middle →
      convertTokens operators (front ++ opening :: (middle ++ closing :: behind)) = .ok out →
        let input := front ++ opening₁ :: opening₂ :: (middle ++ closing₂ :: closing₁ :: behind)
        convertTokens operators input = .ok out ∨
          convertTokens operators input = .error (.capacityExceeded .operatorStack) ∧
            waitingCapacity < input.length) := by
  constructor
  · intro opening closing middle out hopening hclosing hend h
    exact (yields_bracketed hopening hclosing hend (collect_eq_ok h)).convertTokens
      (legal_of_collect h)
  · intro opening closing opening₁ opening₂ closing₁ closing₂ front middle behind out hopening
      hclosing hmiddle h
    simp only [List.forall_mem_cons] at hopening hclosing
    obtain ⟨hopening, hopening₁, hopening₂, -⟩ := hopening
    obtain ⟨hclosing, hclosing₁, hclosing₂, -⟩ := hclosing
    have hyields := yields_behind front (fun stack out => yields_rebracketed hopening hclosing
      hopening₁ hopening₂ hclosing₁ hclosing₂ hmiddle) (collect_eq_ok h)
    exact hyields.convertTokens (legal_of_collect h)

/-- The brackets of a call with two arguments, one of which is in brackets, and brackets around all
of it. -/
theorem convertTokens_brackets_call :
    let opening : Token := ⟨.openParen, "(", 0⟩
    let closing : Token := ⟨.closeParen, ")", 0⟩
    let front : List Token := [⟨.identifier, "max", 0⟩]
    let middle : List Token := [opening, ⟨.integer, "1", 5⟩, closing, ⟨.separator, ",", 7⟩,
      ⟨.integer, "2", 9⟩]
    let out : List Token := [⟨.integer, "1", 5⟩, ⟨.integer, "2", 9⟩, ⟨.identifier, "max", 0⟩]
    let call := front ++ opening :: (middle ++ [closing])
    Balances 0 middle ∧ convertTokens Context.default.operators call = .ok out ∧
      convertTokens Context.default.operators (opening :: (call ++ [closing])) = .ok out ∧
      convertTokens Context.default.operators
        (front ++ opening :: opening :: (middle ++ [closing, closing])) = .ok out := by
  intro opening closing front middle out call
  have hmiddle : Balances 0 middle := by decide +kernel
  have h : convertTokens Context.default.operators call = .ok out := by decide +kernel
  obtain ⟨hwhole, hinner⟩ := convertTokens_brackets Context.default.operators
  refine ⟨hmiddle, h, ?_, ?_⟩
  · rcases hwhole opening closing call out rfl rfl (by decide) h with hout | ⟨-, hlong⟩
    · exact hout
    · exact absurd hlong (by decide)
  · rcases hinner opening closing opening opening closing closing front middle [] out (by decide)
      (by decide) hmiddle h with hout | ⟨-, hlong⟩
    · exact hout
    · exact absurd hlong (by decide)

/-! ## When there is no room -/

section Room

variable {operators : Operators} {stack input : List Token} {name opening : Token} {n : Nat}

/-- Names wait as long as there is room. -/
theorem itemsFrom_names (hname : name.kind = .identifier)
    (hroom : stack.length + n ≤ waitingCapacity) :
    itemsFrom operators stack (List.replicate n name ++ input)
      = itemsFrom operators (List.replicate n name ++ stack) input := by
  induction n generalizing stack with
  | zero => rfl
  | succ n ih =>
    have hlt : ¬waitingCapacity ≤ stack.length := by omega
    have hbelow : (name :: stack).length + n ≤ waitingCapacity := by
      rw [List.length_cons]
      omega
    have hnames : List.replicate n name ++ name :: stack
        = List.replicate (n + 1) name ++ stack := by
      rw [List.replicate_succ', List.append_assoc, List.singleton_append]
    rw [← hnames, ← ih hbelow, List.replicate_succ, List.cons_append, itemsFrom_cons]
    simp only [convertToken, hname, wait, if_neg hlt]
    rfl

/-- Brackets around as many names as may wait. -/
theorem convertTokens_brackets_full (operators : Operators) (hname : name.kind = .identifier)
    (hopening : opening.kind = .openParen) (behind : List Token) :
    let names := List.replicate waitingCapacity name
    convertTokens operators names = .ok names ∧
      convertTokens operators (opening :: (names ++ behind))
        = .error (.capacityExceeded .operatorStack) := by
  intro names
  constructor
  · have hwhole : itemsFrom operators [] (names ++ []) = itemsFrom operators (names ++ []) [] :=
      itemsFrom_names hname (Nat.le_of_eq (Nat.zero_add _))
    have hclosed : brackets names = [] := by
      refine List.filter_eq_nil_iff.2 fun t ht => ?_
      simp [notOpen, List.eq_of_mem_replicate ht, hname]
    have hitems : itemsFrom operators [] names = names.map .ok := by
      rw [List.append_nil, itemsFrom_nil, convertEnd_of_closed hclosed] at hwhole
      simpa [Release.items] using hwhole
    show collect (itemsFrom operators [] names) = .ok names
    rw [hitems, collect_map_ok fun t ht => by simp [List.eq_of_mem_replicate ht, hname]]
  · -- the last name finds the others and the bracket
    obtain ⟨n, hn⟩ : ∃ n, waitingCapacity = n + 1 := ⟨999, rfl⟩
    have hlast : names ++ behind = List.replicate n name ++ name :: behind := by
      simp only [names, hn, List.replicate_succ', List.append_assoc, List.singleton_append]
    have hfull : waitingCapacity ≤ (List.replicate n name ++ [opening]).length := by
      simp [hn]
    show collect (itemsFrom operators [] (opening :: (names ++ behind))) = _
    rw [itemsFrom_open hopening, if_neg (by simp [hn]), hlast,
      itemsFrom_names hname (by simp [hn, Nat.add_comm]), itemsFrom_cons]
    simp only [convertToken, hname, wait, if_pos hfull]
    rfl

end Room

end Formula
