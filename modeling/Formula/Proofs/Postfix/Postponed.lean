import Formula.Proofs.Postfix.Permutation
import Formula.Proofs.Postfix.Relabel
import Mathlib.Data.List.NodupEquivFin

/-!
# A conversion only postpones

Literals are put out at once, and all else that is put out waits until it is known where it goes. So
nothing is put out in front of a literal that it followed.

* `pairwise_itemsFrom`, `pairwise_convertTokens`: a relation that holds of all tokens of an input,
  in their order, holds of what is put out and of each literal behind it.
* `Postpones ts us`: tokens in another order in which no token comes before a literal that it
  followed. Each occurrence of a token has its place, also where a token occurs more than once.
* `postpones_of_perm`: where the tokens are numbered, this is seen from their numbers.
* `convertTokens_postpones`: all that a conversion that succeeds does to its input.
-/

namespace Formula

open scoped List

/-- A token that is executed in postfix order: a literal, an operator or a name. -/
def Token.isExecuted (t : Token) : Bool :=
  t.isLiteral || t.kind == .operator || t.kind == .identifier

theorem Token.Waits.isLiteral_eq_false {t : Token} (h : t.Waits) : t.isLiteral = false := by
  rcases h with h | h | h <;> simp [Token.isLiteral, h]

/-! ## What is put out behind what -/

section Order

variable {R : Token → Token → Prop} {operators : Operators} {stack input out : List Token}
  {t : Token}

theorem pairwise_of_forall_isLiteral_eq_false {ts : List Token}
    (h : ∀ u ∈ ts, u.isLiteral = false) :
    ts.Pairwise fun a b => b.isLiteral = true → R a b := by
  refine List.pairwise_of_forall_mem_list fun a _ b hb hlit => ?_
  rw [h b hb] at hlit
  cases hlit

/-- A token puts out itself, or what was waiting, which is no literal. -/
theorem pairwise_convertToken (R : Token → Token → Prop) (operators : Operators) (t : Token)
    (hstack : ∀ u ∈ stack, u.Waits) :
    (convertToken operators stack t).tokens.Pairwise fun a b => b.isLiteral = true → R a b := by
  cases hlit : t.isLiteral with
  | true =>
    have hone : (convertToken operators stack t).tokens = [t] := by
      simp only [Token.isLiteral, Bool.or_eq_true, beq_iff_eq] at hlit
      rcases hlit with (hk | hk) | hk <;> simp only [convertToken, hk]
    rw [hone]
    exact List.pairwise_singleton _ t
  | false =>
    have hfrom : (convertToken operators stack t).From fun u => u.isLiteral = false :=
      convertToken_from (fun u hu => ⟨(hstack u hu).isLiteral_eq_false, hstack u hu⟩) hlit
    exact pairwise_of_forall_isLiteral_eq_false fun u hu => (hfrom.tokens u hu).1

/-- The literals that are put out behind a token come from the input, and all else that is put out
was read before. -/
theorem pairwise_itemsFrom (hstack : ∀ u ∈ stack, (∀ b ∈ input, R u b) ∧ u.Waits)
    (hinput : input.Pairwise R) (h : itemsFrom operators stack input = out.map .ok) :
    out.Pairwise fun a b => b.isLiteral = true → R a b := by
  have hwaits : ∀ u ∈ stack, u.Waits := fun u hu => (hstack u hu).2
  induction input generalizing stack out with
  | nil =>
    rw [(of_itemsFrom_nil_eq_map_ok h).2]
    exact pairwise_of_forall_isLiteral_eq_false fun u hu => (hwaits u hu).isLiteral_eq_false
  | cons t input ih =>
    obtain ⟨ht, hinput⟩ := List.pairwise_cons.1 hinput
    have hstack' : ∀ u ∈ stack, (∀ b ∈ input, R u b) ∧ u.Waits := fun u hu =>
      ⟨(List.forall_mem_cons.1 (hstack u hu).1).2, (hstack u hu).2⟩
    have hfrom : (convertToken operators stack t).From fun u => ∀ b ∈ input, R u b :=
      convertToken_from hstack' ht
    have hreleased := pairwise_convertToken R operators t hwaits
    rcases of_itemsFrom_cons_eq_map_ok h with ⟨released, stack', rest, hconv, hrest, rfl⟩ | hconv
    · rw [hconv] at hfrom hreleased
      have hnext := hfrom.waiting stack' rfl
      rw [List.pairwise_append]
      refine ⟨hreleased, ih hnext hinput hrest fun u hu => (hnext u hu).2, ?_⟩
      intro a ha b hb hlit
      -- what waits is no literal, so a literal behind `t` has not been read yet
      have hmem : b.isLiteral = true → b ∈ input :=
        (mem_itemsFrom (P := fun u => u.isLiteral = true → u ∈ input)
          (fun u hu => ⟨fun hlit => by simp [(hnext u hu).2.isLiteral_eq_false] at hlit,
            (hnext u hu).2⟩) (fun u hu _ => hu)
          (by rw [hrest]; exact List.mem_map_of_mem hb)).1
      exact (hfrom.tokens a ha).1 b (hmem hlit)
    · rw [hconv] at hreleased
      exact hreleased

theorem pairwise_convertTokens (hinput : (beforeEnd input).Pairwise R)
    (h : convertTokens operators input = .ok out) :
    out.Pairwise fun a b => b.isLiteral = true → R a b := by
  rw [convertTokens_eq] at h
  exact pairwise_itemsFrom (List.forall_mem_nil _) hinput (collect_eq_ok h)

/-- Tokens that are converted are legal. -/
theorem legal_of_convertTokens (h : convertTokens operators input = .ok out) :
    Legal (beforeEnd input) := by
  obtain ⟨hin, -⟩ := of_convertTokens_eq_ok h
  intro t ht hk
  obtain ⟨before, after, heq⟩ := List.append_of_mem ht
  have hoffence := hin before t after heq
  simp [offence?, hk] at hoffence

/-- Of tokens that are converted, those that are no brackets and no commas are executed. -/
theorem passedOn_beforeEnd (h : convertTokens operators input = .ok out) :
    passedOn (beforeEnd input) = (beforeEnd input).filter Token.isExecuted := by
  refine List.filter_congr fun t ht => ?_
  have hend := ne_endOfInput_of_mem_beforeEnd ht
  have hlegal := legal_of_convertTokens h t ht
  cases hk : t.kind <;> simp_all [Token.isStructural, Token.isExecuted, Token.isLiteral]

end Order

/-! ## Places -/

/-- The second tokens are the first ones in another order: each occurrence of a token has its place,
and a literal stays in front of all that it stood in front of. -/
def Postpones (ts us : List Token) : Prop :=
  ∃ place : Fin ts.length ≃ Fin us.length, (∀ i, us[place i] = ts[i]) ∧
    ∀ i j, i < j → ts[i].isLiteral = true → place i < place j

section Places

variable {ts us : List Token}

/-- Where positions increase, a token is found by its position. -/
theorem postpones_of_perm (hts : ts.Pairwise fun a b => a.position < b.position)
    (hus : us.Pairwise fun a b => b.isLiteral = true → a.position < b.position)
    (hperm : us.Perm ts) : Postpones ts us := by
  have hnodup : ts.Nodup := hts.imp fun hlt heq => Nat.ne_of_lt hlt (congrArg Token.position heq)
  have hnodup' : us.Nodup := hperm.nodup_iff.2 hnodup
  let place : Fin ts.length ≃ Fin us.length := (hnodup.getEquiv ts).trans
    ((Equiv.subtypeEquivRight fun t => hperm.mem_iff.symm).trans (hnodup'.getEquiv us).symm)
  have hplace : ∀ i, us[place i] = ts[i] := fun i =>
    congrArg Subtype.val ((hnodup'.getEquiv us).apply_symm_apply _)
  refine ⟨place, hplace, fun i j hij hlit => ?_⟩
  rcases lt_trichotomy (place i) (place j) with hlt | heq | hgt
  · exact hlt
  · exact absurd (place.injective heq) (ne_of_lt hij)
  · have hback := List.pairwise_iff_getElem.1 hus _ _ (place j).isLt (place i).isLt hgt
    have hforth := List.pairwise_iff_getElem.1 hts _ _ i.isLt j.isLt hij
    have hi : us[(place i : Nat)] = ts[i] := hplace i
    have hj : us[(place j : Nat)] = ts[j] := hplace j
    rw [hi, hj] at hback
    exact absurd (hback hlit) (Nat.not_lt.2 (Nat.le_of_lt hforth))

/-- Places stay when all tokens are changed in one way that keeps literals. -/
theorem Postpones.map {g : Token → Token} (h : Postpones ts us)
    (hg : ∀ t, (g t).isLiteral = t.isLiteral) : Postpones (ts.map g) (us.map g) := by
  obtain ⟨place, hplace, horder⟩ := h
  refine ⟨(finCongr (List.length_map g)).trans (place.trans (finCongr (List.length_map g).symm)),
    fun i => ?_, fun i j hij hlit => ?_⟩
  · have hi := hplace (finCongr (List.length_map g) i)
    simpa using congrArg g hi
  · refine horder (finCongr (List.length_map g) i) (finCongr (List.length_map g) j) hij ?_
    simpa [hg] using hlit

end Places

/-! ## Numbered tokens -/

section Numbered

variable {operators : Operators} {input out : List Token}

/-- All tokens come from numbered ones by a change of their positions. -/
theorem exists_numbered (ts : List Token) :
    ∃ (us : List Token) (f : Nat → Nat), ts = us.map (Token.relabel f) ∧
      us.Pairwise fun a b => a.position < b.position := by
  refine ⟨ts.mapIdx fun i t => { t with position := i },
    fun i => (ts[i]?.map Token.position).getD 0, ?_, ?_⟩
  · refine List.ext_getElem (by simp) fun i hi _ => ?_
    simp [Token.relabel, hi]
  · rw [List.pairwise_iff_getElem]
    intro i j _ _ hij
    simpa using hij

theorem beforeEnd_relabel (f : Nat → Nat) (ts : List Token) :
    beforeEnd (ts.map (Token.relabel f)) = (beforeEnd ts).map (Token.relabel f) := by
  rw [beforeEnd, List.takeWhile_map]
  rfl

theorem filter_relabel {p : Token → Bool} (f : Nat → Nat) (hp : ∀ t, p (t.relabel f) = p t)
    (ts : List Token) :
    (ts.map (Token.relabel f)).filter p = (ts.filter p).map (Token.relabel f) := by
  rw [List.filter_map]
  exact congrArg _ (List.filter_congr fun t _ => hp t)

/-- The literals of numbered tokens keep their order. -/
theorem filter_isLiteral_of_pairwise {ts us : List Token}
    (hts : ts.Pairwise fun a b => a.position < b.position)
    (hus : us.Pairwise fun a b => b.isLiteral = true → a.position < b.position)
    (hperm : us.Perm ts) : us.filter Token.isLiteral = ts.filter Token.isLiteral := by
  have hus' : (us.filter Token.isLiteral).Pairwise fun a b => a.position < b.position :=
    (List.Pairwise.sublist List.filter_sublist hus).imp_of_mem fun _ hb h =>
      h (List.mem_filter.1 hb).2
  refine List.Perm.eq_of_pairwise ?_ hus' (hts.sublist List.filter_sublist) (hperm.filter _)
  intro a b _ _ hab hba
  exact absurd hab (Nat.lt_asymm hba)

/-- **A conversion neither loses nor adds nor changes tokens, and it only postpones.** What is put
out are the literals, operators and names of the input in front of its end, each as often and as it
was; nothing else is. The literals keep their order, and whatever a literal stood in front of comes
out behind it. -/
theorem convertTokens_postpones (h : convertTokens operators input = .ok out) :
    out.Perm ((beforeEnd input).filter Token.isExecuted) ∧
      (∀ t ∈ out, t.kind ∉ [.openParen, .closeParen, .separator, .endOfInput, .illegal]) ∧
      out.filter Token.isLiteral = (beforeEnd input).filter Token.isLiteral ∧
      Postpones ((beforeEnd input).filter Token.isExecuted) out := by
  -- The tokens are numbered, so that equal ones are told apart by their positions; a conversion
  -- does not look at these.
  obtain ⟨numbered, f, rfl, hnumbered⟩ := exists_numbered input
  rw [convertTokens_relabel] at h
  cases hconv : convertTokens operators numbered with
  | error e =>
    rw [hconv] at h
    cases h
  | ok us =>
    rw [hconv] at h
    obtain rfl : us.map (Token.relabel f) = out := Except.ok.inj h
    have hfront : (beforeEnd numbered).Pairwise fun a b => a.position < b.position :=
      hnumbered.sublist (List.takeWhile_sublist _)
    have horder := pairwise_convertTokens hfront hconv
    have hperm := perm_of_convertTokens hconv
    rw [passedOn_beforeEnd hconv] at hperm
    have hexecuted : ((beforeEnd numbered).filter Token.isExecuted).Pairwise
        fun a b => a.position < b.position := hfront.sublist List.filter_sublist
    have hliterals : ((beforeEnd numbered).filter Token.isExecuted).filter Token.isLiteral
        = (beforeEnd numbered).filter Token.isLiteral := by
      rw [List.filter_filter]
      refine List.filter_congr fun t _ => ?_
      cases hlit : t.isLiteral <;> simp [Token.isExecuted, hlit]
    rw [beforeEnd_relabel, filter_relabel f (fun _ => rfl), filter_relabel f (fun _ => rfl),
      filter_relabel f (fun _ => rfl), filter_isLiteral_of_pairwise hexecuted horder hperm,
      hliterals]
    refine ⟨hperm.map _, List.forall_mem_map.2 fun t ht => ?_, rfl,
      (postpones_of_perm hexecuted horder hperm).map fun _ => rfl⟩
    have hmem := (List.mem_filter.1 (hperm.subset ht)).2
    cases hk : t.kind <;> simp_all [Token.isExecuted, Token.isLiteral]

/-- A call in brackets with an operator that waits and tokens that occur twice, at one position. -/
theorem convertTokens_postpones_call :
    let one : Token := ⟨.integer, "1", 0⟩
    let plus : Token := ⟨.operator, "+", 0⟩
    let input : List Token := [⟨.identifier, "max", 7⟩, ⟨.openParen, "(", 0⟩, one, plus, one,
      ⟨.separator, ",", 0⟩, one, plus, ⟨.operator, "!", 0⟩, one, ⟨.closeParen, ")", 0⟩,
      ⟨.endOfInput, "", 0⟩, one]
    let out : List Token := [one, one, plus, one, one, ⟨.operator, "!", 0⟩, plus,
      ⟨.identifier, "max", 7⟩]
    convertTokens Context.default.operators input = .ok out ∧
      Postpones ((beforeEnd input).filter Token.isExecuted) out := by
  intro one plus input out
  have h : convertTokens Context.default.operators input = .ok out := by decide +kernel
  exact ⟨h, (convertTokens_postpones h).2.2.2⟩

end Numbered

end Formula
