import Formula.Proofs.Syntax.Grammar

/-!
# Which tokens are an expression

Tokens are an expression if their brackets match and each of them stands where it may. Both can be
seen by going through them once; for the second, all that has to be known at a token is what is
expected there, and which of the open brackets belong to calls.

* `bracketsMatch`: every bracket has its partner, and commas stand inside brackets.
* `Spot`, `Spot.next?`: a place between two tokens, and the place behind one more token.
* `inPlace`: operands and operators take turns, groups are not empty, names are called, and commas
  stand between the arguments of calls.
* `Grammar.Remainder`: what completes an expression behind an operand.
* `derives_iff_inPlace`: the two conditions say what the grammar says.
-/

namespace Formula

/-! ## Brackets -/

/-- Behind `n` open brackets: every bracket has its partner, and commas stand inside brackets. -/
def bracketsMatch : Nat → List Token → Bool
  | n, [] => n == 0
  | n, t :: ts =>
    match t.kind, n with
    | .openParen, n => bracketsMatch (n + 1) ts
    | .closeParen, 0 => false
    | .closeParen, n + 1 => bracketsMatch n ts
    | .separator, 0 => false
    | _, n => bracketsMatch n ts

section Brackets

variable {n : Nat} {t : Token} {ts : List Token}

theorem bracketsMatch_open (h : t.kind = .openParen) :
    bracketsMatch n (t :: ts) = bracketsMatch (n + 1) ts := by
  simp only [bracketsMatch, h]

theorem bracketsMatch_close (h : t.kind = .closeParen) :
    bracketsMatch (n + 1) (t :: ts) = bracketsMatch n ts := by
  simp only [bracketsMatch, h]

theorem bracketsMatch_separator (h : t.kind = .separator) :
    bracketsMatch (n + 1) (t :: ts) = bracketsMatch (n + 1) ts := by
  simp only [bracketsMatch, h]

theorem bracketsMatch_other (ho : t.kind ≠ .openParen) (hc : t.kind ≠ .closeParen)
    (hs : t.kind ≠ .separator) : bracketsMatch n (t :: ts) = bracketsMatch n ts := by
  cases hk : t.kind <;> simp_all [bracketsMatch]

end Brackets

/-! ## Places -/

/-- What is expected at a place. -/
inductive Expected
  /-- An operand has to begin. -/
  | operand
  /-- The bracket of a call has been opened: an operand has to begin, or the bracket is closed. -/
  | arguments
  /-- A name stands in front: the bracket of its call has to be opened. -/
  | bracket
  /-- An operand has ended. -/
  | link
deriving Repr, DecidableEq

/-- A place between two tokens: what is expected there, and for each open bracket, the last one
first, whether it belongs to a call. -/
structure Spot where
  expected : Expected
  calls : List Bool
deriving Repr, DecidableEq

namespace Spot

/-- The place in front of all tokens. -/
def start : Spot := ⟨.operand, []⟩

/-- An operand may begin. -/
def awaitsOperand (spot : Spot) : Bool := spot.expected == .operand || spot.expected == .arguments

/-- The place behind one more token, if the token may stand at this one. -/
def next? (operators : Operators) (spot : Spot) (t : Token) : Option Spot :=
  match t.kind with
  | .integer | .float | .string =>
    if spot.awaitsOperand then some ⟨.link, spot.calls⟩ else none
  | .identifier => if spot.awaitsOperand then some ⟨.bracket, spot.calls⟩ else none
  | .operator =>
    if (operators.ofArity? 1 t).isSome ∧ spot.awaitsOperand ∨
        (operators.ofArity? 2 t).isSome ∧ spot.expected = .link then
      some ⟨.operand, spot.calls⟩
    else none
  | .openParen =>
    if spot.awaitsOperand then some ⟨.operand, false :: spot.calls⟩
    else if spot.expected = .bracket then some ⟨.arguments, true :: spot.calls⟩
    else none
  | .closeParen =>
    if spot.expected = .link ∨ spot.expected = .arguments then some ⟨.link, spot.calls.tail⟩
    else none
  | .separator =>
    if spot.expected = .link ∧ spot.calls.head? = some true then some ⟨.operand, spot.calls⟩
    else none
  | .endOfInput | .illegal => none

end Spot

/-- Each of the tokens may stand where it does, from a place on, and the last one ends an
operand. -/
def inPlaceFrom (operators : Operators) : Spot → List Token → Bool
  | spot, [] => spot.expected == .link
  | spot, t :: ts => (spot.next? operators t).any (inPlaceFrom operators · ts)

/-- Each of the tokens stands where it may. Operands begin in front of all tokens and behind an
operator, an opening bracket or a comma, and nowhere else; names are called; only a call has empty
brackets, or commas directly inside of its brackets. -/
def inPlace (operators : Operators) (ts : List Token) : Bool := inPlaceFrom operators .start ts

/-! ## Tokens of an expression are in place -/

/-- Behind the tokens an operand has ended, with the same brackets open as in front of them. -/
def Passes (operators : Operators) (spot : Spot) (ts : List Token) : Prop :=
  ∀ rest, inPlaceFrom operators spot (ts ++ rest) = inPlaceFrom operators ⟨.link, spot.calls⟩ rest

/-- The places at which a part of an expression may begin. -/
def Part.Begins : Part → Spot → Prop
  | .expression, spot | .operand, spot => spot.awaitsOperand = true
  | .links, spot => spot.expected = .link
  | .arguments _, spot => spot.awaitsOperand = true ∧ spot.calls.head? = some true

section Passes

variable {operators : Operators} {spot spot' : Spot} {part : Part} {t opening closing : Token}
  {ts us : List Token}

theorem inPlaceFrom_cons (h : spot.next? operators t = some spot') (ts : List Token) :
    inPlaceFrom operators spot (t :: ts) = inPlaceFrom operators spot' ts := by
  rw [inPlaceFrom, h, Option.any_some]

theorem Passes.append (h : Passes operators spot ts)
    (h' : Passes operators ⟨.link, spot.calls⟩ us) : Passes operators spot (ts ++ us) := by
  intro rest
  rw [List.append_assoc, h, h']

theorem Passes.cons (expected : Expected)
    (h : spot.next? operators t = some ⟨expected, spot.calls⟩)
    (h' : Passes operators ⟨expected, spot.calls⟩ ts) : Passes operators spot (t :: ts) := by
  intro rest
  rw [List.cons_append, inPlaceFrom_cons h, h']

theorem next?_literal (ht : t.isLiteral = true) (h : spot.awaitsOperand = true) :
    spot.next? operators t = some ⟨.link, spot.calls⟩ := by
  simp only [Token.isLiteral, Bool.or_eq_true, beq_iff_eq] at ht
  rcases ht with (ht | ht) | ht <;> simp only [Spot.next?, ht, h, if_true]

theorem next?_unary (ht : (operators.ofArity? 1 t).isSome) (h : spot.awaitsOperand = true) :
    spot.next? operators t = some ⟨.operand, spot.calls⟩ := by
  obtain ⟨s, hs⟩ := Option.isSome_iff_exists.1 ht
  have hk := (Operators.ofArity?_eq_some.1 hs).1
  simp [Spot.next?, hk, ht, h]

theorem next?_binary (ht : (operators.ofArity? 2 t).isSome) (h : spot.expected = .link) :
    spot.next? operators t = some ⟨.operand, spot.calls⟩ := by
  obtain ⟨s, hs⟩ := Option.isSome_iff_exists.1 ht
  have hk := (Operators.ofArity?_eq_some.1 hs).1
  simp [Spot.next?, hk, ht, h]

theorem next?_close (ht : t.kind = .closeParen)
    (h : spot.expected = .link ∨ spot.expected = .arguments) :
    spot.next? operators t = some ⟨.link, spot.calls.tail⟩ := by
  simp only [Spot.next?, ht, if_pos h]

theorem next?_group (ht : t.kind = .openParen) (h : spot.awaitsOperand = true) :
    spot.next? operators t = some ⟨.operand, false :: spot.calls⟩ := by
  simp only [Spot.next?, ht, h, if_true]

theorem next?_call (ht : t.kind = .openParen) (h : spot.expected = .bracket) :
    spot.next? operators t = some ⟨.arguments, true :: spot.calls⟩ := by
  simp [Spot.next?, Spot.awaitsOperand, ht, h]

theorem next?_name (ht : t.kind = .identifier) (h : spot.awaitsOperand = true) :
    spot.next? operators t = some ⟨.bracket, spot.calls⟩ := by
  simp only [Spot.next?, ht, h, if_true]

theorem next?_separator (ht : t.kind = .separator) (h : spot.expected = .link)
    (hcall : spot.calls.head? = some true) :
    spot.next? operators t = some ⟨.operand, spot.calls⟩ := by
  simp only [Spot.next?, ht, h, hcall, and_self, if_true]

/-- What stands between two brackets passes if it does so inside of the brackets. -/
theorem Passes.bracketed (expected : Expected) (call : Bool)
    (ho : spot.next? operators opening = some ⟨expected, call :: spot.calls⟩)
    (hc : closing.kind = .closeParen) (h : Passes operators ⟨expected, call :: spot.calls⟩ ts) :
    Passes operators spot (opening :: (ts ++ [closing])) := by
  intro rest
  rw [List.cons_append, inPlaceFrom_cons ho, List.append_assoc, h, List.singleton_append,
    inPlaceFrom_cons (next?_close hc (.inl rfl)), List.tail_cons]

theorem passes_of_derives (h : (Grammar.ofOperators operators).Derives part ts)
    (hspot : part.Begins spot) : Passes operators spot ts := by
  -- On the derivation: every part of the grammar passes from one spot to the next, part by part.
  induction h generalizing spot with
  | expression _ _ ihx ihl => exact (ihx hspot).append (ihl rfl)
  | noLink =>
    have hspot : spot.expected = .link := hspot
    intro rest
    rw [List.nil_append, ← hspot]
  | link ht _ _ ihx ihl =>
    refine .cons .operand (next?_binary ht hspot) (.append (ihx ?_) (ihl rfl))
    rfl
  | literal ht => exact .cons .link (next?_literal ht hspot) fun _ => rfl
  | unary ht _ ihx =>
    refine .cons .operand (next?_unary ht hspot) (ihx ?_)
    rfl
  | group ho _ hc ihx => exact .bracketed .operand false (next?_group ho hspot) hc (ihx rfl)
  | emptyCall hn ho hc =>
    refine .cons .bracket (next?_name hn hspot) fun rest => ?_
    rw [List.cons_append, inPlaceFrom_cons (next?_call ho rfl), List.singleton_append,
      inPlaceFrom_cons (next?_close hc (.inr rfl)), List.tail_cons]
  | call hn ho _ hc ihxs =>
    exact .cons .bracket (next?_name hn hspot)
      (.bracketed .arguments true (next?_call ho rfl) hc (ihxs ⟨rfl, rfl⟩))
  | argument _ ihx => exact ihx hspot.1
  | arguments _ hs _ ihx ihxs =>
    exact (ihx hspot.1).append
      (.cons .operand (next?_separator hs rfl hspot.2) (ihxs ⟨rfl, hspot.2⟩))

end Passes

/-! ## Tokens that are in place are an expression -/

namespace Grammar

/-- What may stand between an expression and the bracket that closes it: in a call, a comma and more
arguments. -/
def MoreArguments (g : Grammar) (call : Bool) (ts : List Token) : Prop :=
  ts = [] ∨ call = true ∧ ∃ comma n xs, ts = comma :: xs ∧ comma.kind = .separator ∧
    g.Derives (.arguments n) xs

/-- What completes an expression behind an operand, when some brackets are open: more links, and if
there is a bracket, what closes it, and then what completes the expression around it. -/
def Remainder (g : Grammar) : List Bool → List Token → Prop
  | [], ts => g.Derives .links ts
  | call :: calls, ts => ∃ l args closing rest, ts = l ++ (args ++ closing :: rest) ∧
      g.Derives .links l ∧ g.MoreArguments call args ∧ closing.kind = .closeParen ∧
      Remainder g calls rest

/-- What completes an expression where an operand is expected. -/
def Awaited (g : Grammar) (calls : List Bool) (ts : List Token) : Prop :=
  ∃ x rest, ts = x ++ rest ∧ g.Derives .operand x ∧ g.Remainder calls rest

/-- What completes an expression at a place. -/
def Completes (g : Grammar) (spot : Spot) (ts : List Token) : Prop :=
  match spot.expected with
  | .operand => g.Awaited spot.calls ts
  | .arguments => g.Awaited spot.calls ts ∨ ∃ closing rest, ts = closing :: rest ∧
      closing.kind = .closeParen ∧ g.Remainder spot.calls.tail rest
  | .bracket => ∀ name : Token, name.kind = .identifier → g.Awaited spot.calls (name :: ts)
  | .link => g.Remainder spot.calls ts

variable {g : Grammar} {calls : List Bool} {spot : Spot} {t : Token} {ts : List Token}

theorem Awaited.completes (h : g.Awaited spot.calls ts) (hspot : spot.awaitsOperand = true) :
    g.Completes spot ts := by
  simp only [Spot.awaitsOperand, Bool.or_eq_true, beq_iff_eq] at hspot
  rcases hspot with he | he
  · simpa only [Completes, he] using h
  · simpa only [Completes, he] using Or.inl h

theorem Remainder.cons (h : g.Remainder calls ts) (ht : t.kind = .closeParen) (call : Bool) :
    g.Remainder (call :: calls) (t :: ts) :=
  ⟨[], [], t, ts, rfl, .noLink, .inl rfl, ht, h⟩

/-- An operator of two operands links an operand to the one on its right. -/
theorem Awaited.remainder (h : g.Awaited calls ts) (ht : g.isBinary t) :
    g.Remainder calls (t :: ts) := by
  obtain ⟨x, rest, rfl, hx, hrest⟩ := h
  cases calls with
  | nil => exact .link ht hx hrest
  | cons call calls =>
    obtain ⟨l, args, closing, rest, rfl, hl, hargs, hc, hrest⟩ := hrest
    exact ⟨t :: (x ++ l), args, closing, rest, by simp, .link ht hx hl, hargs, hc, hrest⟩

/-- An expression in brackets, up to the bracket that closes it. -/
theorem Awaited.exists_expression {call : Bool} (h : g.Awaited (call :: calls) ts) :
    ∃ e args closing rest, ts = e ++ (args ++ closing :: rest) ∧ g.Derives .expression e ∧
      g.MoreArguments call args ∧ closing.kind = .closeParen ∧ g.Remainder calls rest := by
  obtain ⟨x, _, rfl, hx, l, args, closing, rest, rfl, hl, hargs, hc, hrest⟩ := h
  exact ⟨x ++ l, args, closing, rest, by simp, .expression hx hl, hargs, hc, hrest⟩

theorem MoreArguments.exists_arguments {call : Bool} {e args : List Token}
    (h : g.MoreArguments call args) (he : g.Derives .expression e) :
    ∃ n, g.Derives (.arguments n) (e ++ args) := by
  rcases h with rfl | ⟨-, comma, n, xs, rfl, hs, hxs⟩
  · exact ⟨1, by rw [List.append_nil]; exact .argument he⟩
  · exact ⟨n + 1, .arguments he hs hxs⟩

theorem Awaited.group (h : g.Awaited (false :: calls) ts) (ht : t.kind = .openParen) :
    g.Awaited calls (t :: ts) := by
  obtain ⟨e, args, closing, rest, rfl, he, hargs, hc, hrest⟩ := h.exists_expression
  rcases hargs with rfl | ⟨hcall, -⟩
  · exact ⟨t :: (e ++ [closing]), rest, by simp, .group ht he hc, hrest⟩
  · cases hcall

theorem Awaited.call {name : Token} (h : g.Awaited (true :: calls) ts)
    (hname : ∀ n, g.isCallable name n) (ht : t.kind = .openParen) :
    g.Awaited calls (name :: t :: ts) := by
  obtain ⟨e, args, closing, rest, rfl, he, hargs, hc, hrest⟩ := h.exists_expression
  obtain ⟨n, hxs⟩ := hargs.exists_arguments he
  exact ⟨name :: t :: (e ++ args ++ [closing]), rest, by simp, .call (hname n) ht hxs hc, hrest⟩

/-- A comma goes on with the arguments of a call. -/
theorem Awaited.separator (h : g.Awaited (true :: calls) ts) (ht : t.kind = .separator) :
    g.Remainder (true :: calls) (t :: ts) := by
  obtain ⟨e, args, closing, rest, rfl, he, hargs, hc, hrest⟩ := h.exists_expression
  obtain ⟨n, hxs⟩ := hargs.exists_arguments he
  exact ⟨[], t :: (e ++ args), closing, rest, by simp, .noLink,
    .inr ⟨rfl, t, n, e ++ args, rfl, ht, hxs⟩, hc, hrest⟩

end Grammar

section InPlace

variable {operators : Operators} {spot : Spot} {ts : List Token}

/-- Tokens that are in place from a spot on complete an expression there, if their brackets match
with those that are open. -/
theorem completes_of_inPlaceFrom (h : inPlaceFrom operators spot ts = true)
    (hmatch : bracketsMatch spot.calls.length ts = true) :
    (Grammar.ofOperators operators).Completes spot ts := by
  induction ts generalizing spot with
  | nil =>
    obtain ⟨expected, calls⟩ := spot
    obtain rfl : expected = .link := by simpa [inPlaceFrom] using h
    obtain rfl : calls = [] := by simpa [bracketsMatch] using hmatch
    exact .noLink
  | cons t ts ih =>
    obtain ⟨next, hnext, h⟩ := Option.any_eq_true _ _ |>.1 h
    have ih : bracketsMatch next.calls.length ts = true →
        (Grammar.ofOperators operators).Completes next ts := ih h
    -- By the kind of the token, which decides what may stand behind it: what completes an
    -- expression there completes one here, together with the token.
    cases hk : t.kind <;> simp only [Spot.next?, hk] at hnext
    case integer | float | string =>
      rw [bracketsMatch_other (by simp [hk]) (by simp [hk]) (by simp [hk])] at hmatch
      split at hnext <;> cases hnext
      next hspot =>
        have ht : t.isLiteral = true := by simp [Token.isLiteral, hk]
        exact Grammar.Awaited.completes ⟨[t], ts, rfl, .literal ht, ih hmatch⟩ hspot
    case identifier =>
      -- its bracket follows, so the name becomes a part of the call
      rw [bracketsMatch_other (by simp [hk]) (by simp [hk]) (by simp [hk])] at hmatch
      split at hnext <;> cases hnext
      next hspot => exact Grammar.Awaited.completes (ih hmatch t hk) hspot
    case operator =>
      rw [bracketsMatch_other (by simp [hk]) (by simp [hk]) (by simp [hk])] at hmatch
      split at hnext <;> cases hnext
      next hspot =>
        have hawaited : Grammar.Awaited _ spot.calls ts := ih hmatch
        rcases hspot with ⟨hunary, hspot⟩ | ⟨hbinary, hspot⟩
        · obtain ⟨x, rest, rfl, hx, hrest⟩ := hawaited
          exact Grammar.Awaited.completes ⟨t :: x, rest, rfl, .unary hunary hx, hrest⟩ hspot
        · simpa only [Grammar.Completes, hspot] using hawaited.remainder hbinary
    case openParen =>
      rw [bracketsMatch_open hk] at hmatch
      split at hnext
      · next hspot =>
        cases hnext
        have hawaited : Grammar.Awaited _ (false :: spot.calls) ts := ih hmatch
        exact (hawaited.group hk).completes hspot
      · split at hnext <;> cases hnext
        next hspot =>
          -- A name stands in front, so the bracket opens a call, which may have no arguments.
          simp only [Grammar.Completes, hspot]
          intro name hname
          rcases ih hmatch with hawaited | ⟨closing, rest, rfl, hc, hrest⟩
          · exact hawaited.call (fun _ => hname) hk
          · exact ⟨[name, t, closing], rest, rfl, .emptyCall hname hk hc, hrest⟩
    case closeParen =>
      split at hnext <;> cases hnext
      next hspot =>
        obtain ⟨expected, calls⟩ := spot
        cases calls with
        | nil => simp [bracketsMatch, hk] at hmatch
        | cons call calls =>
          rw [List.length_cons, bracketsMatch_close hk] at hmatch
          have hrest : Grammar.Remainder _ calls ts := ih hmatch
          -- behind an operand, or behind the bracket of a call without arguments
          rcases hspot with rfl | rfl
          · exact hrest.cons hk call
          · exact .inr ⟨t, ts, rfl, hk, hrest⟩
    case separator =>
      split at hnext <;> cases hnext
      next hspot =>
        obtain ⟨expected, calls⟩ := spot
        obtain ⟨rfl, hcall⟩ := hspot
        -- the innermost bracket must be that of a call
        cases calls with
        | nil => cases hcall
        | cons call calls =>
          obtain rfl : call = true := Option.some.inj hcall
          rw [List.length_cons, bracketsMatch_separator hk] at hmatch
          have hawaited : Grammar.Awaited _ (true :: calls) ts := ih hmatch
          exact hawaited.separator hk
    all_goals cases hnext

/-- **Tokens whose brackets match are an expression exactly if all of them are in place.** -/
theorem derives_iff_inPlace (hmatch : bracketsMatch 0 ts = true) :
    (Grammar.ofOperators operators).Derives .expression ts ↔ inPlace operators ts = true := by
  constructor
  · intro h
    have hpasses : Passes operators .start ts := passes_of_derives h rfl
    have hplace := hpasses []
    rwa [List.append_nil] at hplace
  · intro h
    have hcompletes : Grammar.Completes _ .start ts := completes_of_inPlaceFrom h hmatch
    obtain ⟨x, l, rfl, hx, hl⟩ := hcompletes
    exact .expression hx hl

end InPlace

end Formula
