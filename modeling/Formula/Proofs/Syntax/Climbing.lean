import Formula.Proofs.Syntax.Grammar

/-!
# Parsing by climbing precedences

An expression is read by recursion: the right operand of an operator takes the operators behind it
as long as they bind tighter than this operator, or as tight and from the right.

* `Operator.takes`: whether an operator belongs to the right operand of another one.
* `Climb.expression?`, `Climb.links?`, `Climb.operand?`, `Climb.arguments?`: one reader for each
  part of an expression, with what it leaves of the input.
* `parse?`: the tree of a whole input.
* `Climb.expression?_stops`: what a reader leaves begins with no operator that it should have taken.
* `Climb.expression?_of_derives`, `parse?_of_derives`: every expression of a grammar of the table is
  read, to a tree that conforms to the grammar.
-/

namespace Formula

/-- Whether the operator `b` behind the right operand of `s` belongs to this operand. -/
def Operator.takes (s b : Operator) : Bool :=
  s.precedence < b.precedence || (b.precedence == s.precedence && !b.leftAssociative)

/-- The operator that a token is, if it belongs to the right operand of `s?`. Outside of any right
operand it always does. -/
def Operators.taken? (operators : Operators) (s? : Option Operator) (t : Token) :
    Option Operator :=
  (operators.ofArity? 2 t).filter fun b => s?.all (·.takes b)

namespace Climb

mutual

/-- An expression, or the right operand of `s?`, at the front of an input. -/
def expression? (operators : Operators) (s? : Option Operator) (ts : List Token) :
    Option (Tree × List Token) := do
  let (x, rest) ← operand? operators ts
  if _h : rest.length < ts.length then links? operators s? x rest else none
termination_by (ts.length, 1)

/-- What follows an operand that has been read: as many operators as are taken, each with its right
operand. -/
def links? (operators : Operators) (s? : Option Operator) (left : Tree) (ts : List Token) :
    Option (Tree × List Token) :=
  match ts with
  | [] => some (left, [])
  | t :: ts =>
    match operators.taken? s? t with
    | none => some (left, t :: ts)
    | some b => do
      let (right, rest) ← expression? operators (some b) ts
      if _h : rest.length < ts.length then links? operators s? (.binary t left right) rest
      else none
termination_by (ts.length, 0)

/-- An operand at the front of an input. -/
def operand? (operators : Operators) (ts : List Token) : Option (Tree × List Token) :=
  match ts with
  | [] => none
  | t :: ts =>
    match t.kind with
    | .integer | .float | .string => some (.literal t, ts)
    | .operator => do
      let u ← operators.ofArity? 1 t
      let (x, rest) ← expression? operators (some u) ts
      return (.unary t x, rest)
    | .openParen => do
      let (x, rest) ← expression? operators none ts
      match rest with
      | closing :: rest => if closing.kind = .closeParen then some (x, rest) else none
      | [] => none
    | .identifier =>
      match ts with
      | opening :: next :: rest =>
        if opening.kind = .openParen then
          if next.kind = .closeParen then some (.call t [], rest)
          else do
            let (xs, rest) ← arguments? operators (next :: rest)
            return (.call t xs, rest)
        else none
      | _ => none
    | _ => none
termination_by (ts.length, 0)

/-- The arguments of a call at the front of an input, and the bracket that closes it. -/
def arguments? (operators : Operators) (ts : List Token) : Option (List Tree × List Token) := do
  let (x, rest) ← expression? operators none ts
  match rest with
  | [] => none
  | t :: rest =>
    if t.kind = .closeParen then some ([x], rest)
    else if t.kind = .separator then
      if _h : rest.length < ts.length then do
        let (xs, rest) ← arguments? operators rest
        return (x :: xs, rest)
      else none
    else none
termination_by (ts.length, 2)

end

/-! ## What the readers do, step by step -/

variable {operators : Operators}

theorem expression?_eq_some {s? : Option Operator} {ts : List Token} {r : Tree × List Token} :
    expression? operators s? ts = some r ↔ ∃ x rest, operand? operators ts = some (x, rest) ∧
      rest.length < ts.length ∧ links? operators s? x rest = some r := by
  rw [expression?]
  simp only [Option.bind_eq_bind, Option.bind_eq_some_iff, Prod.exists,
    Option.dite_none_right_eq_some, exists_prop]

theorem links?_nil (s? : Option Operator) (left : Tree) :
    links? operators s? left [] = some (left, []) := by
  rw [links?]

theorem links?_cons_of_none {s? : Option Operator} {t : Token}
    (h : operators.taken? s? t = none) (left : Tree) (ts : List Token) :
    links? operators s? left (t :: ts) = some (left, t :: ts) := by
  rw [links?, h]

theorem links?_cons_eq_some {s? : Option Operator} {t : Token} {b : Operator}
    (h : operators.taken? s? t = some b) {left : Tree} {ts : List Token} {r : Tree × List Token} :
    links? operators s? left (t :: ts) = some r ↔
      ∃ right rest, expression? operators (some b) ts = some (right, rest) ∧
        rest.length < ts.length ∧ links? operators s? (.binary t left right) rest = some r := by
  rw [links?, h]
  simp only [Option.bind_eq_bind, Option.bind_eq_some_iff, Prod.exists,
    Option.dite_none_right_eq_some, exists_prop]

theorem operand?_literal {t : Token} (h : t.isLiteral = true) (ts : List Token) :
    operand? operators (t :: ts) = some (.literal t, ts) := by
  simp only [Token.isLiteral, Bool.or_eq_true, beq_iff_eq] at h
  rcases h with (h | h) | h <;> simp only [operand?.eq_def, h]

theorem operand?_operator_eq_some {t : Token} (h : t.kind = .operator) {ts : List Token}
    {r : Tree × List Token} :
    operand? operators (t :: ts) = some r ↔ ∃ u x rest, operators.ofArity? 1 t = some u ∧
      expression? operators (some u) ts = some (x, rest) ∧ (.unary t x, rest) = r := by
  simp only [operand?.eq_def, h, Option.bind_eq_bind, Option.bind_eq_some_iff, Prod.exists,
    Option.pure_def, Option.some.injEq]
  grind

theorem operand?_open_eq_some {t : Token} (h : t.kind = .openParen) {ts : List Token}
    {r : Tree × List Token} :
    operand? operators (t :: ts) = some r ↔ ∃ x closing rest,
      expression? operators none ts = some (x, closing :: rest) ∧ closing.kind = .closeParen ∧
        (x, rest) = r := by
  simp only [operand?.eq_def, h, Option.bind_eq_bind, Option.bind_eq_some_iff, Prod.exists]
  constructor
  · rintro ⟨x, rest, hx, hr⟩
    split at hr
    · next closing rest' =>
      split at hr
      · next hc => exact ⟨x, closing, rest', hx, hc, Option.some.inj hr⟩
      · cases hr
    · cases hr
  · rintro ⟨x, closing, rest, hx, hc, rfl⟩
    exact ⟨x, closing :: rest, hx, if_pos hc⟩

theorem operand?_emptyCall {t opening closing : Token} (ht : t.kind = .identifier)
    (ho : opening.kind = .openParen) (hc : closing.kind = .closeParen) (rest : List Token) :
    operand? operators (t :: opening :: closing :: rest) = some (.call t [], rest) := by
  simp only [operand?.eq_def, ht, ho, hc, if_true]

theorem operand?_call {t opening next : Token} (ht : t.kind = .identifier)
    (ho : opening.kind = .openParen) (hn : next.kind ≠ .closeParen) (rest : List Token) :
    operand? operators (t :: opening :: next :: rest)
      = (arguments? operators (next :: rest)).map fun r => (.call t r.1, r.2) := by
  simp only [operand?.eq_def, ht, ho, hn, if_true, if_false]
  cases arguments? operators (next :: rest) <;> rfl

theorem arguments?_eq_some {ts : List Token} {r : List Tree × List Token} :
    arguments? operators ts = some r ↔ ∃ x t rest,
      expression? operators none ts = some (x, t :: rest) ∧
      ((t.kind = .closeParen ∧ ([x], rest) = r) ∨
        (t.kind = .separator ∧ rest.length < ts.length ∧
          ∃ xs rest', arguments? operators rest = some (xs, rest') ∧ (x :: xs, rest') = r)) := by
  rw [arguments?]
  simp only [Option.bind_eq_bind, Option.bind_eq_some_iff, Prod.exists]
  constructor
  · rintro ⟨x, rest, hx, hr⟩
    split at hr
    · cases hr
    · next t rest =>
      refine ⟨x, t, rest, hx, ?_⟩
      split at hr
      · next ht => exact .inl ⟨ht, Option.some.inj hr⟩
      · split at hr
        · next ht =>
          rw [Option.dite_none_right_eq_some] at hr
          obtain ⟨hlt, hr⟩ := hr
          obtain ⟨⟨xs, rest'⟩, hxs, hr⟩ := Option.bind_eq_some_iff.1 hr
          exact .inr ⟨ht, hlt, xs, rest', hxs, Option.some.inj hr⟩
        · cases hr
  · rintro ⟨x, t, rest, hx, ⟨ht, rfl⟩ | ⟨ht, hlt, xs, rest', hxs, rfl⟩⟩
    · exact ⟨x, t :: rest, hx, if_pos ht⟩
    · refine ⟨x, t :: rest, hx, ?_⟩
      simp [ht, hlt, hxs]

/-! ## Where the readers stop -/

/-- An input that does not begin with an operator of the right operand of `s?`. -/
def Stops (operators : Operators) (s? : Option Operator) (rest : List Token) : Prop :=
  ∀ t ∈ rest.head?, operators.taken? s? t = none

theorem taken?_none (t : Token) : operators.taken? none t = operators.ofArity? 2 t := by
  unfold Operators.taken?
  cases operators.ofArity? 2 t <;> rfl

theorem stops_nil (s? : Option Operator) : Stops operators s? [] := by
  intro t ht
  cases ht

theorem stops_cons {s? : Option Operator} {t : Token} (h : operators.taken? s? t = none)
    (ts : List Token) : Stops operators s? (t :: ts) := by
  intro u hu
  cases Option.mem_some_iff.1 hu
  exact h

theorem stops_of_kind_ne {t : Token} (h : t.kind ≠ .operator) (s? : Option Operator)
    (ts : List Token) : Stops operators s? (t :: ts) :=
  stops_cons (by simp [Operators.taken?, Operators.ofArity?, h]) ts

/-- What takes no operator outside of any right operand takes none inside. -/
theorem Stops.of_none {rest : List Token} (h : Stops operators none rest) (s? : Option Operator) :
    Stops operators s? rest := by
  intro t ht
  have hn := h t ht
  rw [taken?_none] at hn
  simp [Operators.taken?, hn]

theorem links?_of_stops {s? : Option Operator} {rest : List Token} (h : Stops operators s? rest)
    (left : Tree) : links? operators s? left rest = some (left, rest) := by
  cases rest with
  | nil => exact links?_nil s? left
  | cons t ts => exact links?_cons_of_none (h t rfl) left ts

theorem links?_stops {s? : Option Operator} {left x : Tree} {ts rest : List Token}
    (h : links? operators s? left ts = some (x, rest)) : Stops operators s? rest := by
  induction hn : ts.length using Nat.strongRecOn generalizing left ts with
  | ind n ih =>
    cases ts with
    | nil =>
      rw [links?_nil] at h
      cases h
      exact stops_nil s?
    | cons t ts =>
      cases ht : operators.taken? s? t with
      | none =>
        rw [links?_cons_of_none ht] at h
        cases h
        exact stops_cons ht ts
      | some b =>
        obtain ⟨right, mid, -, hlt, hl⟩ := (links?_cons_eq_some ht).1 h
        rw [List.length_cons] at hn
        exact ih mid.length (by omega) hl rfl

/-- What is left of an input begins with no operator that should have been taken. -/
theorem expression?_stops {s? : Option Operator} {ts rest : List Token} {x : Tree}
    (h : expression? operators s? ts = some (x, rest)) : Stops operators s? rest := by
  obtain ⟨y, mid, -, -, hl⟩ := expression?_eq_some.1 h
  exact links?_stops hl

/-! ## Every expression is read -/

/-- A part that is not made of links begins with a token, which closes no bracket. -/
theorem exists_head_of_derives {g : Grammar} (hg : g.Within (.ofOperators operators)) {part : Part}
    {ts : List Token} (h : g.Derives part ts) (hpart : part ≠ .links) :
    ∃ t rest, ts = t :: rest ∧ t.kind ≠ .closeParen := by
  induction h with
  | expression _ _ ih _ =>
    obtain ⟨t, rest, rfl, ht⟩ := ih (by simp)
    exact ⟨t, _, rfl, ht⟩
  | noLink | link => exact absurd rfl hpart
  | @literal t ht =>
    have hlit := hg.literal ht
    refine ⟨t, [], rfl, fun hk => ?_⟩
    simp [Grammar.ofOperators, Token.isLiteral, hk] at hlit
  | @unary t _ ht =>
    obtain ⟨u, hu⟩ := Option.isSome_iff_exists.1 (hg.unary ht)
    exact ⟨t, _, rfl, by simp [(Operators.ofArity?_eq_some.1 hu).1]⟩
  | group ho => exact ⟨_, _, rfl, by simp [ho]⟩
  | @emptyCall t _ _ ht | @call t _ _ _ _ ht =>
    have hname : t.kind = .identifier := hg.callable ht
    exact ⟨t, _, rfl, by simp [hname]⟩
  | argument _ ih => exact ih (by simp)
  | arguments _ _ _ ih _ =>
    obtain ⟨t, rest, rfl, ht⟩ := ih (by simp)
    exact ⟨t, _, rfl, ht⟩

/-- Whatever follows `ts`, as long as it takes no operator, the reader makes a tree of `ts` that
conforms to the grammar, and leaves at most `bound` tokens of `ts`, which are links. -/
def Reads (g : Grammar) (operators : Operators) (read : List Token → Option (Tree × List Token))
    (ts : List Token) (bound : Nat) : Prop :=
  ∃ x l, x.Conforms g ∧ g.Derives .links l ∧ l.length ≤ bound ∧
    ∀ rest, Stops operators none rest → read (ts ++ rest) = some (x, l ++ rest)

/-- The parts of less than `n` tokens are read; arguments with the bracket that closes them. -/
structure ReadsBelow (g : Grammar) (operators : Operators) (n : Nat) : Prop where
  expression : ∀ s? {p l}, g.Derives .operand p → g.Derives .links l → (p ++ l).length < n →
    Reads g operators (expression? operators s?) (p ++ l) l.length
  links : ∀ s? {left l}, left.Conforms g → g.Derives .links l → l.length < n →
    Reads g operators (links? operators s? left) l l.length
  arguments : ∀ {m xs}, g.Derives (.arguments m) xs → xs.length + 1 < n →
    ∃ args : List Tree, args.length = m ∧ (∀ x ∈ args, x.Conforms g) ∧
      ∀ closing rest, closing.kind = .closeParen →
        arguments? operators (xs ++ closing :: rest) = some (args, rest)

variable {g : Grammar} {n : Nat}

/-- An expression that stands for itself is read as a whole. -/
theorem ReadsBelow.whole (hg : g.Within (.ofOperators operators)) (ih : ReadsBelow g operators n)
    {ts : List Token} (h : g.Derives .expression ts) (hlen : ts.length < n) :
    ∃ x, x.Conforms g ∧ ∀ rest, Stops operators none rest →
      expression? operators none (ts ++ rest) = some (x, rest) := by
  cases h with
  | @expression p l hp hl =>
    obtain ⟨x, l', hx, hl', -, hread⟩ := ih.expression none hp hl hlen
    refine ⟨x, hx, fun rest hrest => ?_⟩
    have h := hread rest hrest
    cases hl' with
    | noLink => exact h
    | @link t p' l'' ht _ _ =>
      -- the reader does not stop in front of an operator
      have hstop := expression?_stops h t rfl
      rw [taken?_none] at hstop
      exact absurd (hg.binary ht) (by simp [Grammar.ofOperators, hstop])

theorem ReadsBelow.links_succ (hg : g.Within (.ofOperators operators))
    (ih : ReadsBelow g operators n) (s? : Option Operator) {left : Tree} {l : List Token}
    (hleft : left.Conforms g) (h : g.Derives .links l) (hlen : l.length < n + 1) :
    Reads g operators (links? operators s? left) l l.length := by
  cases h with
  | noLink =>
    refine ⟨left, [], hleft, .noLink, Nat.le_refl _, fun rest hrest => ?_⟩
    exact links?_of_stops (hrest.of_none s?) left
  | @link t p l ht hp hl =>
    have hpos : 0 < p.length := by
      obtain ⟨u, _, rfl, -⟩ := exists_head_of_derives hg hp (by simp)
      simp
    simp only [List.length_cons, List.length_append] at hlen
    -- An operator that is not taken here stays for the caller, with all links behind it. One that
    -- is taken is followed by its right operand, and the rest is read on this level.
    cases htaken : operators.taken? s? t with
    | none =>
      exact ⟨left, t :: (p ++ l), hleft, .link ht hp hl, Nat.le_refl _, fun rest _ =>
        links?_cons_of_none htaken left _⟩
    | some b =>
      obtain ⟨right, l', hright, hl', hle', hread'⟩ := ih.expression (some b) hp hl
        (by rw [List.length_append]; omega)
      obtain ⟨x, l'', hx, hl'', hle'', hread''⟩ := ih.links s? (.binary ht hleft hright) hl'
        (by omega)
      refine ⟨x, l'', hx, hl'', by simp only [List.length_cons, List.length_append]; omega,
        fun rest hrest => ?_⟩
      refine (links?_cons_eq_some htaken).2 ⟨right, l' ++ rest, hread' rest hrest, ?_,
        hread'' rest hrest⟩
      show (l' ++ rest).length < (p ++ l ++ rest).length
      simp only [List.length_append]
      omega

theorem ReadsBelow.operand (hg : g.Within (.ofOperators operators))
    (ih : ReadsBelow g operators n) {p l : List Token} (h : g.Derives .operand p)
    (hl : g.Derives .links l) (hlen : (p ++ l).length < n + 1) :
    Reads g operators (operand? operators) (p ++ l) l.length := by
  rw [List.length_append] at hlen
  cases h with
  | @literal t ht =>
    exact ⟨.literal t, l, .literal ht, hl, Nat.le_refl _, fun rest _ =>
      operand?_literal (hg.literal ht) _⟩
  | @unary t p ht hp =>
    simp only [List.length_cons] at hlen
    obtain ⟨u, hu⟩ := Option.isSome_iff_exists.1 (hg.unary ht)
    obtain ⟨x, l', hx, hl', hle', hread⟩ := ih.expression (some u) hp hl
      (by rw [List.length_append]; omega)
    exact ⟨.unary t x, l', .unary ht hx, hl', hle', fun rest hrest =>
      (operand?_operator_eq_some (Operators.ofArity?_eq_some.1 hu).1).2
        ⟨u, x, l' ++ rest, hu, hread rest hrest, rfl⟩⟩
  | @group opening closing ts ho hts hc =>
    simp only [List.length_cons, List.length_append] at hlen
    obtain ⟨x, hx, hread⟩ := ih.whole hg hts (by omega)
    refine ⟨x, l, hx, hl, Nat.le_refl _, fun rest hrest => ?_⟩
    have hstop : Stops operators none (closing :: (l ++ rest)) :=
      stops_of_kind_ne (by simp [hc]) none _
    have h := hread _ hstop
    refine (operand?_open_eq_some ho).2 ⟨x, closing, l ++ rest, ?_, hc, rfl⟩
    simpa using h
  | @emptyCall t opening closing ht ho hc =>
    exact ⟨.call t [], l, .call ht (by simp), hl, Nat.le_refl _, fun rest _ =>
      operand?_emptyCall (hg.callable ht) ho hc _⟩
  | @call t opening closing m xs ht ho hxs hc =>
    simp only [List.length_cons, List.length_append] at hlen
    obtain ⟨args, rfl, hargs, hread⟩ := ih.arguments hxs (by omega)
    refine ⟨.call t args, l, .call ht hargs, hl, Nat.le_refl _, fun rest _ => ?_⟩
    have h := hread closing (l ++ rest) hc
    obtain ⟨next, xs, rfl, hnext⟩ := exists_head_of_derives hg hxs (by simp)
    have hcall : operand? operators (t :: opening :: next :: (xs ++ closing :: (l ++ rest)))
        = (arguments? operators (next :: (xs ++ closing :: (l ++ rest)))).map
            fun r => (.call t r.1, r.2) :=
      operand?_call (hg.callable ht) ho hnext _
    rw [← List.cons_append, h] at hcall
    simpa using hcall

theorem ReadsBelow.expression_succ (hg : g.Within (.ofOperators operators))
    (ih : ReadsBelow g operators n) (s? : Option Operator) {p l : List Token}
    (hp : g.Derives .operand p) (hl : g.Derives .links l) (hlen : (p ++ l).length < n + 1) :
    Reads g operators (expression? operators s?) (p ++ l) l.length := by
  obtain ⟨x, l', hx, hl', hle', hread'⟩ := ih.operand hg hp hl hlen
  have hpos : 0 < p.length := by
    obtain ⟨u, _, rfl, -⟩ := exists_head_of_derives hg hp (by simp)
    simp
  rw [List.length_append] at hlen
  obtain ⟨y, l'', hy, hl'', hle'', hread''⟩ := ih.links s? hx hl' (by omega)
  refine ⟨y, l'', hy, hl'', by omega, fun rest hrest => ?_⟩
  refine expression?_eq_some.2 ⟨x, l' ++ rest, hread' rest hrest, ?_, hread'' rest hrest⟩
  simp only [List.length_append]
  omega

theorem ReadsBelow.arguments_succ (hg : g.Within (.ofOperators operators))
    (ih : ReadsBelow g operators n)
    {m : Nat} {xs : List Token} (h : g.Derives (.arguments m) xs) (hlen : xs.length + 1 < n + 1) :
    ∃ args : List Tree, args.length = m ∧ (∀ x ∈ args, x.Conforms g) ∧
      ∀ closing rest, closing.kind = .closeParen →
        arguments? operators (xs ++ closing :: rest) = some (args, rest) := by
  -- each argument ends at its comma or bracket, in front of which the reader stops
  cases h with
  | argument hx =>
    obtain ⟨x, hconf, hread⟩ := ih.whole hg hx (by omega)
    refine ⟨[x], rfl, by simpa using hconf, fun closing rest hc => ?_⟩
    exact arguments?_eq_some.2 ⟨x, closing, rest,
      hread _ (stops_of_kind_ne (by simp [hc]) none rest), .inl ⟨hc, rfl⟩⟩
  | @arguments comma m ts us hts hs hus =>
    simp only [List.length_append, List.length_cons] at hlen
    obtain ⟨x, hconf, hread⟩ := ih.whole hg hts (by omega)
    obtain ⟨args, rfl, hargs, hreads⟩ := ih.arguments hus (by omega)
    refine ⟨x :: args, rfl, by simpa using ⟨hconf, hargs⟩, fun closing rest hc => ?_⟩
    refine arguments?_eq_some.2 ⟨x, comma, us ++ closing :: rest, ?_, .inr ⟨hs, ?_, args, rest,
      hreads closing rest hc, rfl⟩⟩
    · have hx := hread (comma :: (us ++ closing :: rest))
        (stops_of_kind_ne (by simp [hs]) none _)
      simpa using hx
    · simp only [List.length_append, List.length_cons]
      omega

/-- All parts of an expression are read, however long they are. -/
theorem readsBelow (hg : g.Within (.ofOperators operators)) (n : Nat) :
    ReadsBelow g operators n := by
  induction n with
  | zero => exact ⟨by omega, by omega, by omega⟩
  | succ n ih =>
    exact ⟨ih.expression_succ hg, ih.links_succ hg, ih.arguments_succ hg⟩

/-- An expression of a grammar of the table is read as a whole, whatever follows, as long as it
takes no operator. -/
theorem expression?_of_derives (hg : g.Within (.ofOperators operators)) {ts : List Token}
    (h : g.Derives .expression ts) :
    ∃ x, x.Conforms g ∧ ∀ rest, Stops operators none rest →
      expression? operators none (ts ++ rest) = some (x, rest) :=
  (readsBelow hg (ts.length + 1)).whole hg h (Nat.lt_succ_self _)

end Climb

/-- The tree of an expression that takes the whole input. -/
def parse? (operators : Operators) (ts : List Token) : Option Tree :=
  match Climb.expression? operators none ts with
  | some (x, []) => some x
  | _ => none

/-- Every expression of a grammar of the table has a tree, which conforms to the grammar. Inside a
longer input the same tree is read. -/
theorem parse?_of_derives {operators : Operators} {g : Grammar}
    (hg : g.Within (.ofOperators operators)) {ts : List Token} (h : g.Derives .expression ts) :
    ∃ x, parse? operators ts = some x ∧ x.Conforms g ∧
      ∀ rest, Climb.Stops operators none rest →
        Climb.expression? operators none (ts ++ rest) = some (x, rest) := by
  obtain ⟨x, hx, hread⟩ := Climb.expression?_of_derives hg h
  refine ⟨x, ?_, hx, hread⟩
  have hwhole := hread [] (Climb.stops_nil none)
  rw [List.append_nil] at hwhole
  simp only [parse?, hwhole]

end Formula
