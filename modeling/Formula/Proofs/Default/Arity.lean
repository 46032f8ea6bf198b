import Formula.Proofs.Default.Postorder
import Formula.Proofs.Default.Sentence

/-!
# Calls with a wrong number of arguments

Evaluation does not count the arguments of a call: a function takes what it finds. What is too much
in one call may make up for what lacks in another one, and then the arguments are not those that are
written. Otherwise the evaluation fails.

* `Tree.argumentCounts`: the numbers of arguments of all calls. `surplus`: how many more they are
  than the functions take.
* `pendingOperands_postorder`: the surplus is left behind the tokens of a tree.
* `eval_of_calls`: an expression has a value only if there is no surplus, and this value is that of
  the tree that its tokens group into. `eval_makesUp`: this may be another tree than the one that is
  written.
-/

namespace Formula

namespace Tree

mutual

/-- The numbers of arguments of all calls of a tree, from left to right by their closing
brackets. -/
def argumentCounts : Tree → List Nat
  | literal _ => []
  | unary _ x => x.argumentCounts
  | binary _ left right => left.argumentCounts ++ right.argumentCounts
  | call _ args => argumentCountsOf args ++ [args.length]

/-- The numbers of arguments of all calls of trees in a row. -/
def argumentCountsOf : List Tree → List Nat
  | [] => []
  | x :: xs => x.argumentCounts ++ argumentCountsOf xs

end

end Tree

/-- How many more arguments calls have than functions of two arguments take. -/
def surplus : List Nat → Int
  | [] => 0
  | n :: counts => n - 2 + surplus counts

@[simp] theorem surplus_nil : surplus [] = 0 := rfl

@[simp] theorem surplus_cons (n : Nat) (counts : List Nat) :
    surplus (n :: counts) = n - 2 + surplus counts := rfl

theorem surplus_append (counts more : List Nat) :
    surplus (counts ++ more) = surplus counts + surplus more := by
  induction counts with
  | nil => simp
  | cons n counts ih =>
    rw [List.cons_append, surplus_cons, surplus_cons, ih]
    omega

/-- Calls that lack nothing do not make up for one that has too much. -/
theorem le_surplus {counts : List Nat} (h : ∀ n ∈ counts, 2 ≤ n) :
    0 ≤ surplus counts ∧ ∀ n ∈ counts, (n : Int) - 2 ≤ surplus counts := by
  induction counts with
  | nil => exact ⟨Int.le_refl 0, List.forall_mem_nil _⟩
  | cons m counts ih =>
    obtain ⟨hm, h⟩ := List.forall_mem_cons.1 h
    obtain ⟨hnonneg, hle⟩ := ih h
    rw [surplus_cons, List.forall_mem_cons]
    refine ⟨by omega, by omega, fun n hn => ?_⟩
    have hn := hle n hn
    omega

/-- Calls that have nothing too much do not make up for one that lacks something. -/
theorem surplus_le {counts : List Nat} (h : ∀ n ∈ counts, n ≤ 2) :
    surplus counts ≤ 0 ∧ ∀ n ∈ counts, surplus counts ≤ n - 2 := by
  induction counts with
  | nil => exact ⟨Int.le_refl 0, List.forall_mem_nil _⟩
  | cons m counts ih =>
    obtain ⟨hm, h⟩ := List.forall_mem_cons.1 h
    obtain ⟨hnonpos, hle⟩ := ih h
    rw [surplus_cons, List.forall_mem_cons]
    refine ⟨by omega, by omega, fun n hn => ?_⟩
    have hn := hle n hn
    omega

/-! ## What is left behind a tree -/

section Pending

variable {x : Tree} {ts : List Token} {s stack : OperandStack} {v : Value}

theorem pendingOperands_append (ts us : List Token) :
    pendingOperands (ts ++ us) = pendingOperands ts + pendingOperands us := by
  induction ts with
  | nil => simp
  | cons t ts ih =>
    rw [List.cons_append, pendingOperands_cons, pendingOperands_cons, ih]
    omega

theorem pendingOperands_concat {t : Token} {n : Nat} (h : t.arity? = some n) (ts : List Token) :
    pendingOperands (ts ++ [t]) = pendingOperands ts + (1 - n) := by
  rw [pendingOperands_append, pendingOperands_cons, pendingOperands_nil, Token.balance, h,
    Option.elim_some]
  omega

/-- Only tokens that take a fixed number of operands are executed. -/
theorem isSome_arity?_of_executeTokens (hend : ∀ t ∈ ts, t.kind ≠ .endOfInput)
    (h : executeTokens .default stack ts = .ok s) : ∀ t ∈ ts, t.arity?.isSome := by
  induction ts generalizing stack with
  | nil => exact List.forall_mem_nil _
  | cons t ts ih =>
    obtain ⟨ht, hend⟩ := List.forall_mem_cons.1 hend
    obtain ⟨next, hrun, h⟩ := (executeTokens_cons_eq_ok_iff _).1 h
    obtain ⟨n, harity, -⟩ := arity?_of_executeTokens ht hrun
    exact List.forall_mem_cons.2 ⟨Option.isSome_of_eq_some harity, ih hend h⟩

/-- In the table of the default context an operator takes as many operands as its token does. -/
theorem arity?_of_ofArity? {t : Token} {n : Nat}
    (h : (Context.default.operators.ofArity? n t).isSome) : t.arity? = some n := by
  obtain ⟨spec, hspec⟩ := Option.isSome_iff_exists.1 h
  obtain ⟨hk, hfind, rfl⟩ := Operators.ofArity?_eq_some.1 hspec
  have hfind : Context.default.operator? t.text = some spec := hfind
  by_cases hneg : t.text = "!"
  · have hunary : Grammar.builtin.isUnary t := ⟨hk, hneg⟩
    rw [operator?_default_of_isUnary hunary] at hfind
    cases hfind
    exact arity?_unary hunary
  · cases hsymbol : BinaryBuiltin.ofSymbol? t.text with
    | none =>
      rw [operator?_default_eq_none hneg hsymbol] at hfind
      cases hfind
    | some b =>
      have hbinary : Grammar.builtin.isBinary t := ⟨hk, Option.isSome_of_eq_some hsymbol⟩
      obtain ⟨p, b', hfind'⟩ := operator?_default_of_isBinary hbinary
      rw [hfind'] at hfind
      cases hfind
      exact arity?_binary hbinary

/-- A name that takes operands takes two. -/
theorem arity?_of_identifier {t : Token} (hk : t.kind = .identifier) (h : t.arity?.isSome) :
    t.arity? = some 2 := by
  obtain ⟨n, hn⟩ := Option.isSome_iff_exists.1 h
  have hn' := hn
  simp only [Token.arity?, hk, Option.map_eq_some_iff] at hn'
  obtain ⟨_, _, rfl⟩ := hn'
  exact hn

/-- Behind the tokens of trees in a row one operand waits for each, if each leaves what it
should. -/
theorem pendingOperands_postorders {xs : List Tree}
    (h : ∀ x ∈ xs, pendingOperands x.postorder = 1 + surplus x.argumentCounts) :
    pendingOperands (Tree.postorders xs) = xs.length + surplus (Tree.argumentCountsOf xs) := by
  induction xs with
  | nil => rfl
  | cons x xs ih =>
    obtain ⟨hx, h⟩ := List.forall_mem_cons.1 h
    rw [Tree.postorders, pendingOperands_append, hx, ih h, Tree.argumentCountsOf, surplus_append,
      List.length_cons]
    omega

/-- Behind the tokens of a tree one operand waits, and one for each argument that is too much. -/
theorem pendingOperands_postorder (hx : x.Conforms (.ofOperators Context.default.operators))
    (harity : ∀ t ∈ x.postorder, t.arity?.isSome) :
    pendingOperands x.postorder = 1 + surplus x.argumentCounts := by
  induction hx with
  | literal ht =>
    have h := pendingOperands_concat (arity?_literal ht) []
    simpa [Tree.postorder, Tree.argumentCounts, surplus] using h
  | unary ht _ ih =>
    rw [Tree.postorder, List.forall_mem_append] at harity
    rw [Tree.postorder, pendingOperands_concat (arity?_of_ofArity? ht), ih harity.1,
      Tree.argumentCounts]
    omega
  | binary ht _ _ ihl ihr =>
    rw [Tree.postorder, List.forall_mem_append, List.forall_mem_append] at harity
    rw [Tree.postorder, pendingOperands_concat (arity?_of_ofArity? ht), pendingOperands_append,
      ihl harity.1.1, ihr harity.1.2, Tree.argumentCounts, surplus_append]
    omega
  | @call t args ht _ ih =>
    rw [Tree.postorder, List.forall_mem_append, List.forall_mem_singleton] at harity
    have hargs := pendingOperands_postorders fun y hy =>
      ih y hy fun t ht => harity.1 t (Tree.mem_postorders.2 ⟨y, hy, ht⟩)
    rw [Tree.postorder, pendingOperands_concat (arity?_of_identifier ht harity.2), hargs,
      Tree.argumentCounts, surplus_append, surplus_cons, surplus_nil]
    omega

/-- Tokens that have a value leave one operand, and group into one tree. -/
theorem of_valueOfTokens_eq_ok (hend : ∀ t ∈ ts, t.kind ≠ .endOfInput)
    (h : valueOfTokens .default ts = .ok v) :
    (∀ t ∈ ts, t.arity?.isSome) ∧ pendingOperands ts = 1 ∧ ∃ y : Tree, y.IsReading ts := by
  obtain ⟨o, hrun, -⟩ := (valueOfTokens_eq_ok_iff _).1 h
  obtain ⟨hlen, -⟩ := length_of_executeTokens hend hrun
  obtain ⟨forest, hforest, hone⟩ :=
    exists_forest?_of_executeTokens hend hrun (show ([] : List Tree).length = 0 from rfl)
  obtain ⟨y, rfl⟩ := List.length_eq_one_iff.1 hone
  refine ⟨isSome_arity?_of_executeTokens hend hrun, ?_, y, isReading_iff.2 hforest⟩
  simpa using hlen.symm

end Pending

/-! ## Reading calls of literals -/

namespace Climb

variable {operators : Operators} {s? : Option Operator} {t opening closing comma : Token}
  {ts rest : List Token} {xs : List Tree} {r : Tree × List Token}

theorem expression?_literal (ht : t.isLiteral = true) (h : Stops operators s? rest) :
    expression? operators s? (t :: rest) = some (.literal t, rest) :=
  expression?_eq_some.2 ⟨_, _, operand?_literal ht rest, Nat.lt_succ_self _, links?_of_stops h _⟩

theorem arguments?_literal (ht : t.isLiteral = true) (hc : closing.kind = .closeParen) :
    arguments? operators (t :: closing :: rest) = some ([.literal t], rest) :=
  arguments?_eq_some.2 ⟨_, _, _,
    expression?_literal ht (stops_of_kind_ne (by simp [hc]) none rest), .inl ⟨hc, rfl⟩⟩

theorem arguments?_literal_cons (ht : t.isLiteral = true) (hs : comma.kind = .separator)
    (hxs : arguments? operators ts = some (xs, rest)) :
    arguments? operators (t :: comma :: ts) = some (.literal t :: xs, rest) :=
  arguments?_eq_some.2 ⟨_, _, _,
    expression?_literal ht (stops_of_kind_ne (by simp [hs]) none ts),
    .inr ⟨hs, Nat.lt_add_of_pos_right (Nat.zero_lt_succ _), xs, rest, hxs, rfl⟩⟩

theorem expression?_call {next : Token} (ht : t.kind = .identifier) (ho : opening.kind = .openParen)
    (hn : next.kind ≠ .closeParen) (hargs : arguments? operators (next :: ts) = some (xs, rest))
    (hlt : rest.length ≤ ts.length) (hlinks : links? operators s? (.call t xs) rest = some r) :
    expression? operators s? (t :: opening :: next :: ts) = some r := by
  refine expression?_eq_some.2 ⟨.call t xs, rest, ?_, ?_, hlinks⟩
  · rw [operand?_call ht ho hn, hargs, Option.map_some]
  · simp only [List.length_cons]
    omega

end Climb

/-! ## Expressions -/

section Expressions

variable {s : String} {v : Value}

/-- How an expression is evaluated in which calls have any number of arguments: `x` is the tree that
is written. -/
theorem eval_of_written
    (h : (Grammar.ofOperators Context.default.operators).Derives .expression (words s)) :
    ∃ x, parse? Context.default.operators (words s) = some x ∧
      x.Conforms (.ofOperators Context.default.operators) ∧
      (convertExpression .default s = .ok x.postorder ∧
          eval .default s = valueOfTokens .default x.postorder ∨
        ∃ p, p <+: x.postorder ∧
          eval .default s = valueOfItems .default (p.map .ok ++ [.error tooManyWait])) := by
  obtain ⟨x, hparse, hx, hitems⟩ := convertItems_of_derives (.refl _) h
  obtain ⟨tail, htokens, htail⟩ := exists_tokenize_eq s
  refine ⟨x, hparse, hx, ?_⟩
  rw [convertExpression, convertTokens, eval_eq_valueOfItems, htokens,
    convertItems_append_of_endsInput htail]
  rcases hitems with hitems | ⟨-, p, hp, hitems⟩
  · rw [hitems]
    exact .inl ⟨collect_map_ok fun t ht => (hx.kind_ne_of_mem_postorder (.refl _) ht).1, rfl⟩
  · exact .inr ⟨p, hp, by rw [hitems]⟩

/-- A conversion that breaks off has no value. -/
theorem valueOfItems_ne_ok (p : List Token) :
    valueOfItems .default (p.map .ok ++ [.error tooManyWait]) ≠ .ok v := by
  rw [valueOfItems_append, outcome_runItems_map_ok]
  cases executeTokens .default [] p <;> exact nofun

/-- **A wrong number of arguments is not accepted unless another one makes up for it.** Let calls in
an expression have any number of arguments. If it has a value, its calls have two arguments each on
average, and what is applied finds its operands: the expression is converted to its tokens in
postfix order, and these are the postorder of a tree of calls of two arguments. This tree, and no
other one, is evaluated then. So no expression has a value in which only one call, or calls that all
have too many or all too few arguments, are wrong. -/
theorem eval_of_calls
    (h : (Grammar.ofOperators Context.default.operators).Derives .expression (words s)) :
    ∃ x, parse? Context.default.operators (words s) = some x ∧
      (∀ v, eval .default s = .ok v → convertExpression .default s = .ok x.postorder ∧
        surplus x.argumentCounts = 0 ∧ ∃ y : Tree, y.IsReading x.postorder) ∧
      (∀ y : Tree, y.IsReading x.postorder → ∃ e, y.term? = some e ∧
        (eval .default s = e.operand.map (·.value) ∨
          ∃ c, eval .default s = .error (.capacityExceeded c))) ∧
      (((∀ n ∈ x.argumentCounts, 2 ≤ n) ∨ ∀ n ∈ x.argumentCounts, n ≤ 2) →
        (∃ n ∈ x.argumentCounts, n ≠ 2) → ∃ err, eval .default s = .error err) := by
  obtain ⟨x, hparse, hx, heval⟩ := eval_of_written h
  have hend : ∀ t ∈ x.postorder, t.kind ≠ .endOfInput := fun t ht =>
    (hx.kind_ne_of_mem_postorder (.refl _) ht).2
  have hok : ∀ v, eval .default s = .ok v → convertExpression .default s = .ok x.postorder ∧
      surplus x.argumentCounts = 0 ∧ ∃ y : Tree, y.IsReading x.postorder := by
    intro v hv
    -- A conversion that fails for want of room leaves an error, so there is no value.
    rcases heval with ⟨hconvert, heval⟩ | ⟨p, -, heval⟩
    · obtain ⟨harity, hone, hreading⟩ := of_valueOfTokens_eq_ok hend (heval.symm.trans hv)
      rw [pendingOperands_postorder hx harity] at hone
      exact ⟨hconvert, by omega, hreading⟩
    · exact absurd (heval.symm.trans hv) (valueOfItems_ne_ok p)
  refine ⟨x, hparse, hok, fun y hy => ?_, fun hside hwrong => ?_⟩
  · obtain ⟨e, hterm, -, hcomp⟩ := term?_of_conforms (fun _ ht => ht) hy.conforms
    rw [hy.postorder_eq] at hcomp
    refine ⟨e, hterm, ?_⟩
    rcases heval with ⟨-, heval⟩ | ⟨p, hp, heval⟩
    · rw [heval]
      rcases valueOfItems_of_computes hcomp with hv | ⟨hv, -⟩
      · exact .inl hv
      · exact .inr ⟨_, hv⟩
    · rw [heval]
      exact valueOfItems_of_prefix hcomp hp
  · -- If all wrong calls err on one side, nothing makes up for them, and the surplus is not zero.
    cases hv : eval .default s with
    | error err => exact ⟨err, rfl⟩
    | ok v =>
      obtain ⟨-, hzero, -⟩ := hok v hv
      obtain ⟨n, hn, hne⟩ := hwrong
      rcases hside with hmany | hfew
      · have hle := (le_surplus hmany).2 n hn
        have hmany := hmany n hn
        omega
      · have hle := (surplus_le hfew).2 n hn
        have hfew := hfew n hn
        omega

/-- In `min(4)` an argument is missing. -/
theorem eval_of_calls_missing :
    let s := "min(4)"
    (Grammar.ofOperators Context.default.operators).Derives .expression (words s) ∧
      ∃ err, eval .default s = .error err := by
  intro s
  have hwords : words s = [⟨.identifier, "min", 0⟩, ⟨.openParen, "(", 3⟩, ⟨.integer, "4", 4⟩,
      ⟨.closeParen, ")", 5⟩] := by
    decide +kernel
  have h : (Grammar.ofOperators Context.default.operators).Derives .expression (words s) := by
    rw [hwords]
    exact .expression (.call rfl rfl (.argument (.expression (.literal (by rfl)) .noLink)) rfl)
      .noLink
  have hread : parse? Context.default.operators (words s)
      = some (.call ⟨.identifier, "min", 0⟩ [.literal ⟨.integer, "4", 4⟩]) := by
    have hargs : Climb.arguments? Context.default.operators [⟨.integer, "4", 4⟩,
        ⟨.closeParen, ")", 5⟩] = some ([.literal ⟨.integer, "4", 4⟩], []) :=
      Climb.arguments?_literal rfl rfl
    rw [hwords, parse?, Climb.expression?_call rfl rfl (by decide) hargs (by decide)
      (Climb.links?_nil none _)]
  obtain ⟨x, hparse, -, -, hwrong⟩ := eval_of_calls h
  obtain rfl := Option.some.inj (hread.symm.trans hparse)
  exact ⟨h, hwrong (.inr (by decide)) (by decide)⟩

/-- In `max(1, 2, 3) + max(1)` the first call leaves an argument that the second one takes. -/
theorem eval_makesUp :
    let s := "max(1, 2, 3) + max(1)"
    (Grammar.ofOperators Context.default.operators).Derives .expression (words s) ∧
      (∃ x, parse? Context.default.operators (words s) = some x ∧ x.argumentCounts = [3, 1]) ∧
      eval .default s = .ok (.int 4) := by
  intro s
  let plus : Token := ⟨.operator, "+", 13⟩
  let first : List Token := [⟨.integer, "1", 4⟩, ⟨.separator, ",", 5⟩, ⟨.integer, "2", 7⟩,
    ⟨.separator, ",", 8⟩, ⟨.integer, "3", 10⟩]
  let second : List Token := [⟨.integer, "1", 19⟩]
  let right : List Token :=
    ⟨.identifier, "max", 15⟩ :: ⟨.openParen, "(", 18⟩ :: (second ++ [⟨.closeParen, ")", 20⟩])
  have hwords : words s = ⟨.identifier, "max", 0⟩ :: ⟨.openParen, "(", 3⟩ ::
      (first ++ [⟨.closeParen, ")", 11⟩]) ++ plus :: (right ++ []) := by
    decide +kernel
  have hplus : (Grammar.ofOperators Context.default.operators).isBinary plus :=
    builtin_within.binary ⟨rfl, by decide +kernel⟩
  have hderives :
      (Grammar.ofOperators Context.default.operators).Derives .expression (words s) := by
    have hone : (Grammar.ofOperators Context.default.operators).Derives (.arguments 1) second :=
      .argument (.expression (.literal rfl) .noLink)
    have hthree : (Grammar.ofOperators Context.default.operators).Derives (.arguments 3) first :=
      .arguments (.expression (.literal rfl) .noLink) rfl
        (.arguments (.expression (.literal rfl) .noLink) rfl
          (.argument (.expression (.literal rfl) .noLink)))
    rw [hwords]
    exact .expression (.call rfl rfl hthree rfl) (.link hplus (.call rfl rfl hone rfl) .noLink)
  have hparse : ∃ x, parse? Context.default.operators (words s) = some x ∧
      x.argumentCounts = [3, 1] := by
    obtain ⟨b, hb⟩ := Option.isSome_iff_exists.1 hplus
    let x : Tree := .call ⟨.identifier, "max", 0⟩
      [.literal ⟨.integer, "1", 4⟩, .literal ⟨.integer, "2", 7⟩, .literal ⟨.integer, "3", 10⟩]
    let y : Tree := .call ⟨.identifier, "max", 15⟩ [.literal ⟨.integer, "1", 19⟩]
    have hy : Climb.expression? Context.default.operators (some b) right = some (y, []) := by
      have hargs : Climb.arguments? Context.default.operators (second ++ [⟨.closeParen, ")", 20⟩])
          = some ([.literal ⟨.integer, "1", 19⟩], []) :=
        Climb.arguments?_literal rfl rfl
      exact Climb.expression?_call rfl rfl (by decide) hargs (by decide) (Climb.links?_nil _ _)
    have hlinks : Climb.links? Context.default.operators none x (plus :: right)
        = some (.binary plus x y, []) :=
      (Climb.links?_cons_eq_some ((Climb.taken?_none plus).trans hb)).2
        ⟨y, [], hy, by decide, Climb.links?_nil none _⟩
    have hargs : Climb.arguments? Context.default.operators
        (first ++ ⟨.closeParen, ")", 11⟩ :: plus :: right)
        = some ([.literal ⟨.integer, "1", 4⟩, .literal ⟨.integer, "2", 7⟩,
          .literal ⟨.integer, "3", 10⟩], plus :: right) :=
      Climb.arguments?_literal_cons rfl rfl
        (Climb.arguments?_literal_cons rfl rfl (Climb.arguments?_literal rfl rfl))
    have hxy : Climb.expression? Context.default.operators none (words s)
        = some (.binary plus x y, []) := by
      rw [hwords]
      exact Climb.expression?_call rfl rfl (by decide) hargs (by decide) hlinks
    exact ⟨.binary plus x y, by rw [parse?, hxy], by decide⟩
  exact ⟨hderives, hparse, by decide +kernel⟩

end Expressions

end Formula
