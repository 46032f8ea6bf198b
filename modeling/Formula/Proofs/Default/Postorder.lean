import Formula.Proofs.Default.Term
import Formula.Proofs.Default.Token

/-!
# Execution in postfix order is evaluation of a tree

In the default context every token takes a fixed number of operands. So tokens in postfix order
group in one way only, and executing them is evaluating the tree that they group into.

* `pendingOperands`: how many more operands wait behind tokens than in front of them
  (`length_of_executeTokens`). `Fits`: there is room for them on the way (`fits_of_executeTokens`,
  `not_fits_of_executeTokens`).
* `forest?`: the trees that tokens group into, the last one first.
* `Covers`: tokens are the postorder of some trees. `Tree.IsReading`: they are the postorder of one
  tree; `isReading_iff`: grouping finds it.
* `exists_forest?_of_executeTokens`: what executes groups into as many trees as there are operands.
* `valueOfTokens_iff_isReading`: execution and evaluation agree.
-/

namespace Formula

/-! ## Pending operands -/

/-- How many more operands wait behind a token than in front of it. -/
def Token.balance (t : Token) : Int := t.arity?.elim 0 fun n => 1 - n

/-- How many more operands wait behind tokens than in front of them. -/
def pendingOperands : List Token → Int
  | [] => 0
  | t :: ts => t.balance + pendingOperands ts

@[simp] theorem pendingOperands_nil : pendingOperands [] = 0 := rfl

@[simp] theorem pendingOperands_cons (t : Token) (ts : List Token) :
    pendingOperands (t :: ts) = t.balance + pendingOperands ts := rfl

/-- Behind no part of the tokens more operands wait than a stack holds, if `waiting` operands wait
in front of them. -/
def Fits (waiting : Int) (ts : List Token) : Prop :=
  ∀ before, before <+: ts → waiting + pendingOperands before ≤ stackCapacity

theorem fits_nil {n : Int} : Fits n [] ↔ n ≤ stackCapacity := by
  simp [Fits]

theorem fits_cons {n : Int} {t : Token} {ts : List Token} :
    Fits n (t :: ts) ↔ n ≤ stackCapacity ∧ Fits (n + t.balance) ts := by
  constructor
  · intro h
    refine ⟨by simpa using h [] List.nil_prefix, fun before hbefore => ?_⟩
    have hle := h (t :: before) (List.cons_prefix_cons.2 ⟨rfl, hbefore⟩)
    rw [pendingOperands_cons] at hle
    omega
  · rintro ⟨hn, h⟩ before hle
    rcases List.prefix_cons_iff.1 hle with rfl | ⟨before, rfl, hbefore⟩
    · simpa using hn
    · have hle := h before hbefore
      rw [pendingOperands_cons]
      omega

/-- Whether there is room. -/
instance decidableFits : ∀ (n : Int) (ts : List Token), Decidable (Fits n ts)
  | _, [] => decidable_of_iff _ fits_nil.symm
  | n, t :: ts =>
    have := decidableFits (n + t.balance) ts
    decidable_of_iff _ fits_cons.symm

section Runs

variable {t : Token} {ts : List Token} {s stack : OperandStack}

theorem length_of_executeTokens_singleton (hend : t.kind ≠ .endOfInput)
    (h : executeTokens .default stack [t] = .ok s) :
    (s.length : Int) = stack.length + t.balance ∧ s.length ≤ stackCapacity := by
  obtain ⟨n, ht, -, hlen, hle⟩ := arity?_of_executeTokens hend h
  refine ⟨?_, hle⟩
  rw [Token.balance, ht, Option.elim_some]
  omega

/-- The stack holds what is pending. -/
theorem length_of_executeTokens (hend : ∀ t ∈ ts, t.kind ≠ .endOfInput)
    (h : executeTokens .default stack ts = .ok s) :
    (s.length : Int) = stack.length + pendingOperands ts ∧
      (stack.length ≤ stackCapacity → s.length ≤ stackCapacity) := by
  induction ts generalizing stack with
  | nil =>
    cases h
    exact ⟨by simp, id⟩
  | cons t ts ih =>
    obtain ⟨ht, hend⟩ := List.forall_mem_cons.1 hend
    obtain ⟨next, hrun, h⟩ := (executeTokens_cons_eq_ok_iff _).1 h
    obtain ⟨hnext, hroom⟩ := length_of_executeTokens_singleton ht hrun
    obtain ⟨hs, hle⟩ := ih hend h
    rw [pendingOperands_cons]
    exact ⟨by omega, fun _ => hle hroom⟩

/-- Where execution succeeds, there was room. -/
theorem fits_of_executeTokens (hend : ∀ t ∈ ts, t.kind ≠ .endOfInput)
    (h : executeTokens .default stack ts = .ok s) (hle : stack.length ≤ stackCapacity) :
    Fits stack.length ts := by
  rintro before ⟨after, rfl⟩
  obtain ⟨next, hrun, -⟩ := (executeTokens_append_eq_ok_iff _).1 h
  obtain ⟨hlen, hroom⟩ :=
    length_of_executeTokens (fun t ht => hend t (List.mem_append_left after ht)) hrun
  have hroom := hroom hle
  omega

/-- Where execution fails for lack of room, there is none. -/
theorem not_fits_of_executeTokens (hend : ∀ t ∈ ts, t.kind ≠ .endOfInput)
    (h : executeTokens .default stack ts = .error (.capacityExceeded .operandStack)) :
    ¬Fits stack.length ts := by
  induction ts generalizing stack with
  | nil => cases h
  | cons t ts ih =>
    obtain ⟨ht, hend⟩ := List.forall_mem_cons.1 hend
    rw [executeTokens_cons] at h
    rw [fits_cons]
    rintro ⟨-, hfits⟩
    cases hrun : executeTokens .default stack [t] with
    | error e =>
      rw [hrun] at h
      obtain rfl := Except.error.inj h
      -- Behind this token there would be one operand more than the stack holds.
      obtain ⟨n, harity, hfull⟩ := full_of_executeTokens ht hrun
      have hle := hfits [] List.nil_prefix
      rw [Token.balance, harity, Option.elim_some, pendingOperands_nil] at hle
      omega
    | ok next =>
      rw [hrun] at h
      rw [← (length_of_executeTokens_singleton ht hrun).1] at hfits
      exact ih hend h hfits

end Runs

/-! ## Grouping -/

/-- A token applied to two trees. -/
def Tree.applied (t : Token) (left right : Tree) : Tree :=
  if t.kind = .identifier then .call t [left, right] else .binary t left right

/-- Applies a token to the trees in front of it, the last one first. -/
def attach? (forest : List Tree) (t : Token) : Option (List Tree) :=
  match t.arity?, forest with
  | some 0, forest => some (.literal t :: forest)
  | some 1, x :: below => some (.unary t x :: below)
  | some 2, right :: left :: below => some (.applied t left right :: below)
  | _, _ => none

/-- The trees that tokens group into, behind trees in front of them. -/
def forest? : List Tree → List Token → Option (List Tree)
  | forest, [] => some forest
  | forest, t :: ts => (attach? forest t).bind (forest? · ts)

/-- Tokens are the postorder of trees of the built-in operators and functions, which are listed from
the last one to the first. -/
structure Covers (forest : List Tree) (ts : List Token) : Prop where
  conforms : ∀ x ∈ forest, x.Conforms Grammar.builtin
  postorders_eq : Tree.postorders forest.reverse = ts

/-- Tokens are the postorder of a tree of the built-in operators and functions. -/
structure Tree.IsReading (x : Tree) (ts : List Token) : Prop where
  conforms : x.Conforms Grammar.builtin
  postorder_eq : x.postorder = ts

section Grouping

variable {t : Token} {ts us : List Token} {forest forest' : List Tree}
  {x left right : Tree}

theorem attach?_literal (h : Grammar.builtin.isLiteral t) :
    attach? forest t = some (.literal t :: forest) := by
  simp only [attach?, arity?_literal h]

theorem attach?_unary (h : Grammar.builtin.isUnary t) :
    attach? (x :: forest) t = some (.unary t x :: forest) := by
  simp only [attach?, arity?_unary h]

theorem attach?_binary (h : Grammar.builtin.isBinary t) :
    attach? (right :: left :: forest) t = some (.binary t left right :: forest) := by
  have hk : t.kind ≠ .identifier := by simp [h.1]
  simp only [attach?, arity?_binary h, Tree.applied, if_neg hk]

theorem attach?_call (h : Grammar.builtin.isCallable t 2) :
    attach? (right :: left :: forest) t = some (.call t [left, right] :: forest) := by
  simp only [attach?, arity?_call h, Tree.applied, if_pos h.1]

/-- A token that takes `n` operands can be applied to `n` trees. -/
theorem exists_attach?_of_arity? {n : Nat} (harity : t.arity? = some n)
    (hle : n ≤ forest.length) :
    ∃ forest', attach? forest t = some forest' ∧ forest'.length + n = forest.length + 1 := by
  rcases arity?_eq_some_iff.1 harity with ⟨rfl, h⟩ | ⟨rfl, h⟩ | ⟨rfl, h⟩
  · exact ⟨_, attach?_literal h, rfl⟩
  · obtain ⟨x, below, rfl⟩ := List.exists_cons_of_length_pos hle
    exact ⟨_, attach?_unary h, rfl⟩
  · obtain ⟨right, left, below, rfl⟩ := exists_cons_cons_of_length hle
    rcases h with h | h
    · exact ⟨_, attach?_binary h, rfl⟩
    · exact ⟨_, attach?_call h, rfl⟩

theorem arity?_of_attach? (h : attach? forest t = some forest') :
    ∃ n, t.arity? = some n ∧ n ≤ forest.length := by
  unfold attach? at h
  split at h
  · next ht => exact ⟨0, ht, Nat.zero_le _⟩
  · next ht => exact ⟨1, ht, Nat.le_add_left 1 _⟩
  · next ht => exact ⟨2, ht, Nat.le_add_left 2 _⟩
  · cases h

/-! ## The postorder of the trees -/

theorem covers_nil : Covers [] [] := ⟨List.forall_mem_nil _, rfl⟩

theorem covers_cons {below : List Tree} :
    Covers (x :: below) ts ↔ ∃ us, Covers below us ∧ x.Conforms Grammar.builtin ∧
      us ++ x.postorder = ts := by
  constructor
  · rintro ⟨hconforms, rfl⟩
    obtain ⟨hx, hbelow⟩ := List.forall_mem_cons.1 hconforms
    refine ⟨_, ⟨hbelow, rfl⟩, hx, ?_⟩
    rw [List.reverse_cons, Tree.postorders_append, Tree.postorders, Tree.postorders,
      List.append_nil]
  · rintro ⟨us, ⟨hbelow, rfl⟩, hx, rfl⟩
    refine ⟨List.forall_mem_cons.2 ⟨hx, hbelow⟩, ?_⟩
    rw [List.reverse_cons, Tree.postorders_append, Tree.postorders, Tree.postorders,
      List.append_nil]

/-- One more token is behind the operands that it is applied to. -/
theorem Covers.attach (hcovers : Covers forest ts) (hattach : attach? forest t = some forest') :
    Covers forest' (ts ++ [t]) := by
  obtain ⟨n, harity, hle⟩ := arity?_of_attach? hattach
  rcases arity?_eq_some_iff.1 harity with ⟨rfl, h⟩ | ⟨rfl, h⟩ | ⟨rfl, h⟩
  · rw [attach?_literal h] at hattach
    cases hattach
    exact covers_cons.2 ⟨ts, hcovers, .literal h, rfl⟩
  · obtain ⟨x, below, rfl⟩ := List.exists_cons_of_length_pos hle
    obtain ⟨us, hbelow, hx, rfl⟩ := covers_cons.1 hcovers
    rw [attach?_unary h] at hattach
    cases hattach
    exact covers_cons.2 ⟨us, hbelow, .unary h hx, by rw [Tree.postorder, List.append_assoc]⟩
  · obtain ⟨right, left, below, rfl⟩ := exists_cons_cons_of_length hle
    obtain ⟨vs, hvs, hright, rfl⟩ := covers_cons.1 hcovers
    obtain ⟨us, hbelow, hleft, rfl⟩ := covers_cons.1 hvs
    rcases h with h | h
    · rw [attach?_binary h] at hattach
      cases hattach
      exact covers_cons.2 ⟨us, hbelow, .binary h hleft hright, by simp [Tree.postorder]⟩
    · rw [attach?_call h] at hattach
      cases hattach
      exact covers_cons.2 ⟨us, hbelow, .call h (by simp [hleft, hright]),
        by simp [Tree.postorder, Tree.postorders]⟩

theorem Covers.group (hcovers : Covers forest us) (h : forest? forest ts = some forest') :
    Covers forest' (us ++ ts) := by
  induction ts generalizing forest us with
  | nil =>
    cases h
    rwa [List.append_nil]
  | cons t ts ih =>
    obtain ⟨next, hattach, h⟩ := Option.bind_eq_some_iff.1 h
    rw [← List.singleton_append, ← List.append_assoc]
    exact ih (hcovers.attach hattach) h

theorem forest?_append (us : List Token) :
    forest? forest (ts ++ us) = (forest? forest ts).bind (forest? · us) := by
  induction ts generalizing forest with
  | nil => rfl
  | cons t ts ih =>
    rw [List.cons_append, forest?, forest?]
    cases attach? forest t with
    | none => rfl
    | some next => exact ih

theorem forest?_singleton : forest? forest [t] = attach? forest t := by
  rw [forest?]
  cases attach? forest t <;> rfl

/-- The tokens of a tree group into this tree, whatever is in front of them. -/
theorem forest?_postorder (h : x.Conforms Grammar.builtin) (forest : List Tree) :
    forest? forest x.postorder = some (x :: forest) := by
  induction h generalizing forest with
  | literal ht => rw [Tree.postorder, forest?_singleton, attach?_literal ht]
  | unary ht _ ih =>
    rw [Tree.postorder, forest?_append, ih, Option.bind_some, forest?_singleton, attach?_unary ht]
  | binary ht _ _ ihl ihr =>
    rw [Tree.postorder, forest?_append, forest?_append, ihl, Option.bind_some, ihr,
      Option.bind_some, forest?_singleton, attach?_binary ht]
  | @call t args ht _ ih =>
    obtain ⟨left, right, below, rfl⟩ := exists_cons_cons_of_length (Nat.le_of_eq ht.2.2.symm)
    obtain rfl : below = [] := List.eq_nil_of_length_eq_zero (by simpa using ht.2.2)
    rw [Tree.postorder, Tree.postorders, Tree.postorders, Tree.postorders, List.append_nil,
      forest?_append, forest?_append, ih left (by simp), Option.bind_some, ih right (by simp),
      Option.bind_some, forest?_singleton, attach?_call ht]

/-- Grouping tokens finds the tree whose postorder they are, if there is one. -/
theorem isReading_iff : x.IsReading ts ↔ forest? [] ts = some [x] := by
  constructor
  · rintro ⟨hx, rfl⟩
    exact forest?_postorder hx []
  · intro h
    obtain ⟨us, hnil, hx, hts⟩ := covers_cons.1 (covers_nil.group h)
    obtain rfl : us = [] := hnil.postorders_eq.symm
    exact ⟨hx, hts⟩

end Grouping

/-! ## Execution -/

section Execution

variable {t : Token} {ts : List Token} {s stack : OperandStack} {forest : List Tree} {x : Tree}

/-- What executes groups into as many trees as there are operands. -/
theorem exists_forest?_of_executeTokens (hend : ∀ t ∈ ts, t.kind ≠ .endOfInput)
    (h : executeTokens .default stack ts = .ok s) (hlen : forest.length = stack.length) :
    ∃ forest', forest? forest ts = some forest' ∧ forest'.length = s.length := by
  induction ts generalizing stack forest with
  | nil =>
    cases h
    exact ⟨forest, rfl, hlen⟩
  | cons t ts ih =>
    obtain ⟨ht, hend⟩ := List.forall_mem_cons.1 hend
    obtain ⟨next, hrun, h⟩ := (executeTokens_cons_eq_ok_iff _).1 h
    obtain ⟨n, harity, hle, hnext, -⟩ := arity?_of_executeTokens ht hrun
    obtain ⟨below, hattach, hbelow⟩ := exists_attach?_of_arity? harity (hlen ▸ hle)
    obtain ⟨forest', hforest, hlen'⟩ := ih hend h (show below.length = next.length by omega)
    exact ⟨forest', by rw [forest?, hattach]; exact hforest, hlen'⟩

/-- On a stack with enough room, the tokens of a tree put its operand on the stack, or fail as the
tree does. -/
theorem executeTokens_of_isReading (hend : ∀ t ∈ ts, t.kind ≠ .endOfInput)
    (h : x.IsReading ts) :
    ∃ e, x.term? = some e ∧
      ∀ s : OperandStack, Fits s.length ts →
        executeTokens .default s ts = e.operand.map (· :: s) := by
  obtain ⟨hx, rfl⟩ := h
  obtain ⟨e, hterm, -, hcomp⟩ := term?_of_conforms (fun _ ht => ht) hx
  refine ⟨e, hterm, fun s hfits => ?_⟩
  rcases hcomp.reaches s with hrun | ⟨hrun, -⟩
  · exact hrun
  · exact absurd hfits (not_fits_of_executeTokens hend hrun)

/-- With enough room, the value of tokens is that of their tree. -/
theorem valueOfTokens_of_isReading {e : Term} (hend : ∀ t ∈ ts, t.kind ≠ .endOfInput)
    (h : x.IsReading ts) (hterm : x.term? = some e) (hfits : Fits 0 ts) :
    valueOfTokens .default ts = e.operand.map (·.value) := by
  obtain ⟨e', hterm', heval⟩ := executeTokens_of_isReading hend h
  obtain rfl := Option.some.inj (hterm.symm.trans hterm')
  rw [valueOfTokens_eq, heval [] hfits]
  cases e.operand <;> rfl

/-- **Execution in postfix order is evaluation of a tree.** Tokens have a value exactly if they are
the postorder of a tree that evaluates to this value, and there is room for what is pending on the
way. There is no other such tree. On any stack with enough room, the tokens of a tree put its
operand on top of what is there, or fail with the error of the tree. -/
theorem valueOfTokens_iff_isReading (hend : ∀ t ∈ ts, t.kind ≠ .endOfInput) :
    (∀ v, valueOfTokens .default ts = .ok v ↔
      ∃ (x : Tree) (e : Term), x.IsReading ts ∧ x.term? = some e ∧
        e.operand.map (·.value) = .ok v ∧ Fits 0 ts) ∧
    (∀ x y : Tree, x.IsReading ts → y.IsReading ts → x = y) ∧
    ∀ x : Tree, x.IsReading ts → ∃ e, x.term? = some e ∧
      ∀ s : OperandStack, Fits s.length ts →
        executeTokens .default s ts = e.operand.map (· :: s) := by
  refine ⟨fun v => ⟨fun hv => ?_, ?_⟩, fun x y hx hy => ?_, fun x =>
    executeTokens_of_isReading hend⟩
  · obtain ⟨o, hrun, -⟩ := (valueOfTokens_eq_ok_iff _).1 hv
    have hfits : Fits 0 ts := fits_of_executeTokens hend hrun (Nat.zero_le _)
    -- One operand is left, so the tokens group into one tree.
    obtain ⟨forest, hforest, hlen⟩ :=
      exists_forest?_of_executeTokens hend hrun (show ([] : List Tree).length = 0 from rfl)
    obtain ⟨x, rfl⟩ := List.length_eq_one_iff.1 hlen
    have hx := isReading_iff.2 hforest
    obtain ⟨e, hterm, -⟩ := executeTokens_of_isReading hend hx
    exact ⟨x, e, hx, hterm, (valueOfTokens_of_isReading hend hx hterm hfits).symm.trans hv, hfits⟩
  · rintro ⟨x, e, hx, hterm, hv, hfits⟩
    exact (valueOfTokens_of_isReading hend hx hterm hfits).trans hv
  · have heq := (isReading_iff.1 hx).symm.trans (isReading_iff.1 hy)
    exact List.head_eq_of_cons_eq (Option.some.inj heq)

/-- The postorder of `max(2, 3) + !0`. -/
theorem valueOfTokens_iff_isReading_nested :
    let ts : List Token := [⟨.integer, "2", 4⟩, ⟨.integer, "3", 7⟩, ⟨.identifier, "max", 0⟩,
      ⟨.integer, "0", 13⟩, ⟨.operator, "!", 12⟩, ⟨.operator, "+", 10⟩]
    (∀ t ∈ ts, t.kind ≠ .endOfInput) ∧ valueOfTokens .default ts = .ok (.int 4) := by
  intro ts
  have hend : ∀ t ∈ ts, t.kind ≠ .endOfInput := by decide
  have hlit : ∀ t : Token, t.isLiteral = true → (Tree.literal t).Conforms Grammar.builtin :=
    fun _ ht => .literal ht
  have hsymbol : BinaryBuiltin.ofSymbol? "+" = some .add := by decide +kernel
  have hname : BinaryBuiltin.ofName? "max" = some .max := by decide +kernel
  have hmax : Grammar.builtin.isCallable ⟨.identifier, "max", 0⟩ 2 := ⟨rfl, by rw [hname]; rfl, rfl⟩
  have hplus : Grammar.builtin.isBinary ⟨.operator, "+", 10⟩ := ⟨rfl, by rw [hsymbol]; rfl⟩
  let x : Tree := .binary ⟨.operator, "+", 10⟩
    (.call ⟨.identifier, "max", 0⟩ [.literal ⟨.integer, "2", 4⟩, .literal ⟨.integer, "3", 7⟩])
    (.unary ⟨.operator, "!", 12⟩ (.literal ⟨.integer, "0", 13⟩))
  have hx : x.IsReading ts :=
    ⟨.binary hplus (.call hmax (List.forall_mem_cons.2 ⟨hlit _ rfl,
      List.forall_mem_singleton.2 (hlit _ rfl)⟩)) (.unary ⟨rfl, rfl⟩ (hlit _ rfl)), rfl⟩
  let e : Term := .binary .add 10
    (.binary .max 0 (.literal ⟨.integer, "2", 4⟩) (.literal ⟨.integer, "3", 7⟩))
    (.negation 12 (.literal ⟨.integer, "0", 13⟩))
  have hterm : x.term? = some e := by simp [x, e, Tree.term?, hsymbol, hname]
  have hvalue : e.operand.map (·.value) = .ok (.int 4) := by decide +kernel
  have hfits : Fits 0 ts := by decide +kernel
  exact ⟨hend, ((valueOfTokens_iff_isReading hend).1 _).2 ⟨x, e, hx, hterm, hvalue, hfits⟩⟩

end Execution

end Formula
