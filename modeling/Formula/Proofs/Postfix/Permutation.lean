import Formula.Proofs.Postfix.Origin

/-!
# A conversion changes the order only

What is put out are the tokens of the input without brackets and commas, each as often as it was
there.

* `passedOn`: tokens without brackets and commas.
* `perm_of_convertToken`: one step; what is put out and what then waits are what was waiting before
  and the token itself.
* `perm_of_itemsFrom`, `perm_of_convertTokens`: a whole conversion that succeeds.
-/

namespace Formula

open scoped List

/-- A bracket or a comma. -/
def Token.isStructural (t : Token) : Bool :=
  t.kind == .openParen || t.kind == .closeParen || t.kind == .separator

/-- Tokens without brackets and commas. -/
def passedOn (ts : List Token) : List Token := ts.filter (!·.isStructural)

section PassedOn

variable {t : Token} {ts us : List Token}

theorem passedOn_append (ts us : List Token) : passedOn (ts ++ us) = passedOn ts ++ passedOn us :=
  List.filter_append ..

theorem passedOn_cons_of_isStructural (h : t.isStructural = true) :
    passedOn (t :: ts) = passedOn ts := by
  simp [passedOn, h]

theorem passedOn_perm (h : ts.Perm us) : (passedOn ts).Perm (passedOn us) := h.filter _

theorem Token.IsReleased.isStructural (h : t.IsReleased) : t.isStructural = false := by
  rcases h with h | (h | h) | h
  · simp only [Token.isLiteral, Bool.or_eq_true, beq_iff_eq] at h
    rcases h with (h | h) | h <;> simp [Token.isStructural, h]
  all_goals simp [Token.isStructural, h]

theorem passedOn_of_isReleased (h : ∀ t ∈ ts, t.IsReleased) : passedOn ts = ts := by
  refine List.filter_eq_self.2 fun t ht => ?_
  rw [(h t ht).isStructural, Bool.not_false]

end PassedOn

section Steps

variable {operators : Operators} {incoming : Operator}
  {stack stack' released kept rest input out : List Token} {t : Token}

theorem eq_of_wait (h : wait released t kept = ⟨out, .waiting stack'⟩) :
    out = released ∧ stack' = t :: kept := by
  unfold wait at h
  split at h <;> cases h
  exact ⟨rfl, rfl⟩

/-- What is released lay above what is kept. -/
theorem releaseOperators_append (h : (releaseOperators operators incoming stack).2 = .ok rest) :
    (releaseOperators operators incoming stack).1 ++ rest = stack := by
  induction stack generalizing rest with
  | nil =>
    cases h
    rfl
  | cons top below ih =>
    unfold releaseOperators at h ⊢
    split at h
    · next hk =>
      split at h
      · cases h
      · split at h
        · next hprecedes =>
          simp only [hk, hprecedes, if_true]
          exact congrArg _ (ih h)
        · next hprecedes =>
          cases h
          simp only [hk, hprecedes, if_true]
          rfl
    · next hk =>
      cases h
      rw [if_neg hk]
      rfl

theorem perm_of_convertOperator (h : convertOperator operators stack t = ⟨out, .waiting stack'⟩) :
    (out ++ stack').Perm (t :: stack) := by
  unfold convertOperator at h
  split at h
  · cases h
  · next incoming _ =>
    split at h
    · obtain ⟨rfl, rfl⟩ := eq_of_wait h
      exact .refl _
    · split at h
      · cases h
      · next released rest hrelease =>
        have happend : released ++ rest = stack := by
          have happend := releaseOperators_append (congrArg Prod.snd hrelease)
          rwa [hrelease] at happend
        obtain ⟨rfl, rfl⟩ := eq_of_wait h
        exact happend ▸ List.perm_middle

theorem aboveOpen_append_fromOpen (stack : List Token) :
    aboveOpen stack ++ fromOpen stack = stack :=
  List.takeWhile_append_dropWhile

theorem passedOn_fromOpen {opening : Token} (h : fromOpen stack = opening :: rest) :
    passedOn stack = passedOn (aboveOpen stack ++ rest) := by
  have ho : opening.isStructural = true := by
    rcases fromOpen_eq stack with ⟨hf, -⟩ | ⟨_, _, hf, hk, -⟩
    · rw [hf] at h
      cases h
    · rw [hf] at h
      cases h
      simp [Token.isStructural, hk]
  conv => lhs; rw [← aboveOpen_append_fromOpen stack, h]
  rw [passedOn_append, passedOn_cons_of_isStructural ho, ← passedOn_append]

/-- One step of a conversion neither adds nor loses what is no bracket and no comma. -/
theorem perm_of_convertToken (h : convertToken operators stack t = ⟨out, .waiting stack'⟩) :
    (passedOn (out ++ stack')).Perm (passedOn (t :: stack)) := by
  unfold convertToken at h
  cases hk : t.kind <;> simp only [hk] at h
  case integer | float | string =>
    cases h
    exact .refl _
  case identifier | openParen =>
    obtain ⟨rfl, rfl⟩ := eq_of_wait h
    exact .refl _
  case operator => exact passedOn_perm (perm_of_convertOperator h)
  case separator =>
    rw [passedOn_cons_of_isStructural (by simp [Token.isStructural, hk])]
    unfold convertSeparator at h
    split at h
    · cases h
    · next hfrom =>
      cases h
      rw [← hfrom, aboveOpen_append_fromOpen]
  case closeParen =>
    -- the bracket is gone, and a name in front of it is put out too
    rw [passedOn_cons_of_isStructural (by simp [Token.isStructural, hk])]
    unfold convertClose at h
    split at h
    · cases h
    · next hfrom =>
      cases h
      rw [passedOn_fromOpen hfrom]
    · next hfrom =>
      rw [passedOn_fromOpen hfrom]
      split at h <;> cases h
      · rw [List.append_assoc, List.singleton_append]
      · exact .refl _
  case endOfInput =>
    unfold convertEnd at h
    split at h <;> cases h
  case illegal => cases h

theorem map_ok_inj {ts us : List Token} (h : ts.map (.ok : Token → Item) = us.map .ok) : ts = us :=
  (List.map_inj_right fun _ _ => Except.ok.inj).1 h

theorem notMem_error_map_ok (e : EvalError) (ts : List Token) :
    (.error e : Item) ∉ ts.map (.ok : Token → Item) := by
  simp

/-- Without an error, the end of the input puts out what waits, and no bracket is open. -/
theorem of_itemsFrom_nil_eq_map_ok (h : itemsFrom operators stack [] = out.map .ok) :
    brackets stack = [] ∧ out = stack := by
  rw [itemsFrom_nil] at h
  cases hopen : brackets stack with
  | nil =>
    rw [convertEnd_of_closed hopen] at h
    exact ⟨rfl, map_ok_inj (by simpa [Release.items] using h.symm)⟩
  | cons opening below =>
    rw [convertEnd_of_unclosed hopen] at h
    refine absurd ?_ (notMem_error_map_ok (unpaired opening) out)
    rw [← h]
    simp [Release.items]

/-- Without an error, a token releases a first part of what is put out, and the conversion goes on
from what waits then; or it ends with this token. -/
theorem of_itemsFrom_cons_eq_map_ok (h : itemsFrom operators stack (t :: input) = out.map .ok) :
    (∃ released stack' rest, convertToken operators stack t = ⟨released, .waiting stack'⟩ ∧
      itemsFrom operators stack' input = rest.map .ok ∧ out = released ++ rest) ∨
    convertToken operators stack t = ⟨out, .done⟩ := by
  rw [itemsFrom_cons] at h
  rcases hconv : convertToken operators stack t with ⟨released, stack' | _ | e⟩
  · rw [hconv] at h
    have hsplit : out.map .ok = released.map .ok ++ itemsFrom operators stack' input := by
      simpa [Release.items] using h.symm
    obtain ⟨first, rest, rfl, hfirst, hrest⟩ := List.map_eq_append_iff.1 hsplit
    obtain rfl : first = released := map_ok_inj hfirst
    exact .inl ⟨first, stack', rest, rfl, hrest.symm, rfl⟩
  · rw [hconv] at h
    obtain rfl : released = out := map_ok_inj (by simpa [Release.items] using h)
    exact .inr rfl
  · rw [hconv] at h
    refine absurd ?_ (notMem_error_map_ok e out)
    rw [← h]
    simp [Release.items]

/-- Text that is no token ends a conversion, and no other token in front of the end does. -/
theorem illegal_of_done (hend : t.kind ≠ .endOfInput)
    (h : convertToken operators stack t = ⟨out, .done⟩) : t.kind = .illegal ∧ out = [t] := by
  unfold convertToken at h
  cases hk : t.kind <;> simp only [hk] at h
  case integer | float | string => cases h
  case identifier | openParen =>
    unfold wait at h
    split at h <;> cases h
  case operator =>
    unfold convertOperator wait at h
    repeat' split at h
    all_goals cases h
  case separator =>
    unfold convertSeparator at h
    split at h <;> cases h
  case closeParen =>
    unfold convertClose at h
    repeat' split at h
    all_goals cases h
  case endOfInput => exact absurd hk hend
  case illegal =>
    cases h
    exact ⟨rfl, rfl⟩

theorem perm_of_itemsFrom (hend : ∀ t ∈ input, t.kind ≠ .endOfInput) (hlegal : Legal out)
    (h : itemsFrom operators stack input = out.map .ok) :
    (passedOn out).Perm (passedOn (stack ++ input)) := by
  induction input generalizing stack out with
  | nil =>
    obtain ⟨-, rfl⟩ := of_itemsFrom_nil_eq_map_ok h
    rw [List.append_nil]
  | cons t input ih =>
    obtain ⟨ht, hend⟩ := List.forall_mem_cons.1 hend
    rcases of_itemsFrom_cons_eq_map_ok h with ⟨released, stack', rest, hconv, hrest, rfl⟩ | hconv
    · have hih := ih hend (List.forall_mem_append.1 hlegal).2 hrest
      have hstep := perm_of_convertToken hconv
      calc
        passedOn (released ++ rest) = passedOn released ++ passedOn rest := passedOn_append ..
        _ ~ passedOn released ++ passedOn (stack' ++ input) := hih.append_left _
        _ = passedOn (released ++ stack') ++ passedOn input := by
          simp only [passedOn_append, List.append_assoc]
        _ ~ passedOn (t :: stack) ++ passedOn input := hstep.append_right _
        _ = passedOn (t :: stack ++ input) := (passedOn_append ..).symm
        _ ~ passedOn (stack ++ t :: input) := passedOn_perm List.perm_middle.symm
    · obtain ⟨hk, rfl⟩ := illegal_of_done ht hconv
      exact absurd hk (hlegal t (by simp))

theorem legal_of_collect {items : List Item} (h : collect items = .ok out) : Legal out := by
  induction items generalizing out with
  | nil =>
    cases h
    exact List.forall_mem_nil _
  | cons item items ih =>
    cases item with
    | error e => cases h
    | ok t =>
      rw [collect] at h
      split at h
      · cases h
      · next ht =>
        cases hc : collect items with
        | error e =>
          rw [hc] at h
          cases h
        | ok ts =>
          rw [hc] at h
          cases h
          exact List.forall_mem_cons.2 ⟨ht, ih hc⟩

/-- A conversion that succeeds puts out the tokens of its input, up to the mark of the end, without
brackets and commas. -/
theorem perm_of_convertTokens (h : convertTokens operators input = .ok out) :
    out.Perm (passedOn (beforeEnd input)) := by
  have hreleased : ∀ t ∈ out, t.IsReleased := fun t ht => (mem_convertTokens h ht).2
  rw [convertTokens_eq] at h
  have hperm := perm_of_itemsFrom (fun t => ne_endOfInput_of_mem_beforeEnd) (legal_of_collect h)
    (collect_eq_ok h)
  rwa [passedOn_of_isReleased hreleased, List.nil_append] at hperm

end Steps

end Formula
