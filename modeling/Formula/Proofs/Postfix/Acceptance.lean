import Formula.Proofs.Postfix.Order
import Mathlib.Data.List.Induction

/-!
# Which inputs a conversion accepts

An input is accepted if none of its tokens offends and no bracket is left open. Whether a token
offends depends on the tokens in front of it only: on the brackets that are open there, and on how
many tokens wait.

* `beforeEnd`: the tokens in front of the mark of the end.
* `unclosed`: the brackets that are open behind some tokens, said of the brackets alone.
* `waitingBehind`: the tokens that wait behind some tokens, if none of these offends.
* `offence?`, `Inoffensive`: the error of a token behind others, and tokens without any.
* `brackets_waitingBehind`: the brackets that wait are the open ones.
* `Orderly`: all operators that wait are in the table, so releasing them does not fail
  (`releaseOperators_of_orderly`).
* `convertToken_eq`: one step of a conversion. `itemsFrom_of_inoffensive`: the steps behind tokens
  none of which offends.
* `convertTokens_of_offence`, `convertTokens_of_closed`, `convertTokens_of_unclosed`: what comes of
  the first offence, and what of its absence.
* `convertTokens_verdict`: which inputs are accepted, and the error of all others.
-/

namespace Formula

/-- The tokens of an input in front of the mark of the end. -/
def beforeEnd (input : List Token) : List Token := input.takeWhile (·.kind ≠ .endOfInput)

/-- The open brackets behind one more token. -/
def unclosedAfter (opens : List Token) (t : Token) : List Token :=
  match t.kind with
  | .openParen => t :: opens
  | .closeParen => opens.tail
  | _ => opens

/-- The brackets that are open behind some tokens, the last one first. -/
def unclosed (ts : List Token) : List Token := ts.foldl unclosedAfter []

/-- The brackets among some tokens. -/
abbrev brackets (stack : List Token) : List Token := stack.filter (!notOpen ·)

/-- Whether a waiting token is an operator that goes before an incoming one. -/
def isReleasedBy (operators : Operators) (incoming : Operator) (u : Token) : Bool :=
  u.kind == .operator && (operators.find? u.text).any (·.precedes incoming)

/-- What waits when an operator has released what goes before it. -/
def keptBy (operators : Operators) (stack : List Token) (t : Token) : List Token :=
  match operators.find? t.text with
  | some incoming =>
    if incoming.arity = 1 then stack else stack.dropWhile (isReleasedBy operators incoming)
  | none => stack

/-- A stack without the name on its top, if there is one there. -/
def withoutName : List Token → List Token
  | [] => []
  | top :: below => if top.kind = .identifier then below else top :: below

/-- What waits behind one more token. -/
def stackAfter (operators : Operators) (stack : List Token) (t : Token) : List Token :=
  match t.kind with
  | .identifier | .openParen => t :: stack
  | .operator => t :: keptBy operators stack t
  | .separator => fromOpen stack
  | .closeParen => withoutName (fromOpen stack).tail
  | _ => stack

/-- What waits behind some tokens, however many they are. -/
def waitingBehind (operators : Operators) (ts : List Token) : List Token :=
  ts.foldl (stackAfter operators) []

/-- The error of a token for which there is no room behind the tokens `before`. -/
def overflow? (operators : Operators) (before : List Token) (t : Token) : Option EvalError :=
  if waitingCapacity < (waitingBehind operators (before ++ [t])).length then some tooManyWait
  else none

/-- The error of a token behind the tokens `before`. -/
def offence? (operators : Operators) (before : List Token) (t : Token) : Option EvalError :=
  match t.kind with
  | .illegal => some (illegalToken t)
  | .operator =>
    if (operators.find? t.text).isNone then some (undefinedOperator t)
    else overflow? operators before t
  | .identifier | .openParen => overflow? operators before t
  | .separator | .closeParen => if unclosed before = [] then some (unpaired t) else none
  | .integer | .float | .string | .endOfInput => none

/-- Tokens none of which offends where it stands. -/
def Inoffensive (operators : Operators) (ts : List Token) : Prop :=
  ∀ before t after, ts = before ++ t :: after → offence? operators before t = none

/-- What may wait: an operator of the table, a name, an open bracket. -/
def MayWait (operators : Operators) (t : Token) : Prop :=
  (t.kind = .operator ∧ (operators.find? t.text).isSome = true) ∨ t.kind = .identifier ∨
    t.kind = .openParen

/-- Nothing waits but what may wait. -/
def Orderly (operators : Operators) (stack : List Token) : Prop := ∀ t ∈ stack, MayWait operators t

section Brackets

variable {operators : Operators} {stack ts : List Token} {t : Token}

theorem unclosed_concat (ts : List Token) (t : Token) :
    unclosed (ts ++ [t]) = unclosedAfter (unclosed ts) t := by
  rw [unclosed, List.foldl_append]
  rfl

theorem waitingBehind_concat (operators : Operators) (ts : List Token) (t : Token) :
    waitingBehind operators (ts ++ [t]) = stackAfter operators (waitingBehind operators ts) t := by
  rw [waitingBehind, List.foldl_append]
  rfl

theorem brackets_cons_of_open (h : t.kind = .openParen) :
    brackets (t :: stack) = t :: brackets stack := by
  simp [brackets, notOpen, h]

theorem brackets_cons_of_ne (h : t.kind ≠ .openParen) : brackets (t :: stack) = brackets stack := by
  simp [brackets, notOpen, h]

theorem brackets_dropWhile {p : Token → Bool} (hp : ∀ u, p u = true → u.kind ≠ .openParen)
    (stack : List Token) : brackets (stack.dropWhile p) = brackets stack := by
  induction stack with
  | nil => rfl
  | cons u stack ih =>
    rw [List.dropWhile_cons]
    split
    · next h => rw [ih, brackets_cons_of_ne (hp u h)]
    · rfl

theorem brackets_fromOpen (stack : List Token) : brackets (fromOpen stack) = brackets stack :=
  brackets_dropWhile (by simp [notOpen]) stack

theorem brackets_keptBy (operators : Operators) (stack : List Token) (t : Token) :
    brackets (keptBy operators stack t) = brackets stack := by
  unfold keptBy
  split
  · split
    · rfl
    · refine brackets_dropWhile (fun u hu => ?_) stack
      simp only [isReleasedBy, Bool.and_eq_true, beq_iff_eq] at hu
      simp [hu.1]
  · rfl

theorem brackets_withoutName (stack : List Token) :
    brackets (withoutName stack) = brackets stack := by
  cases stack with
  | nil => rfl
  | cons top below =>
    rw [withoutName]
    split
    · next h => rw [brackets_cons_of_ne (by simp [h])]
    · rfl

/-- From its innermost bracket on, a stack begins with this bracket. -/
theorem fromOpen_eq (stack : List Token) :
    fromOpen stack = [] ∧ brackets stack = [] ∨
      ∃ opening below, fromOpen stack = opening :: below ∧ opening.kind = .openParen ∧
        brackets stack = opening :: brackets below := by
  have hb := brackets_fromOpen stack
  cases h : fromOpen stack with
  | nil => exact .inl ⟨rfl, by rw [← hb, h]; rfl⟩
  | cons opening below =>
    have ho : opening.kind = .openParen := by
      have hn := List.head?_dropWhile_not notOpen stack
      rw [← fromOpen, h] at hn
      simpa [notOpen] using hn
    exact .inr ⟨opening, below, rfl, ho, by rw [← hb, h, brackets_cons_of_open ho]⟩

/-- One more token changes the brackets that wait as it changes the open ones. -/
theorem brackets_stackAfter (operators : Operators) (stack : List Token) (t : Token) :
    brackets (stackAfter operators stack t) = unclosedAfter (brackets stack) t := by
  cases hk : t.kind with
  | openParen => simp only [stackAfter, unclosedAfter, hk, brackets_cons_of_open]
  | identifier =>
    simp only [stackAfter, unclosedAfter, hk]
    exact brackets_cons_of_ne (by simp [hk])
  | operator =>
    simp only [stackAfter, unclosedAfter, hk]
    rw [brackets_cons_of_ne (by simp [hk]), brackets_keptBy]
  | separator => simp only [stackAfter, unclosedAfter, hk, brackets_fromOpen]
  | closeParen =>
    simp only [stackAfter, unclosedAfter, hk, brackets_withoutName]
    rcases fromOpen_eq stack with ⟨hf, hb⟩ | ⟨opening, below, hf, -, hb⟩ <;> rw [hf, hb] <;> rfl
  | integer | float | string | endOfInput | illegal => simp only [stackAfter, unclosedAfter, hk]

/-- The brackets that wait are the open ones. -/
theorem brackets_waitingBehind (operators : Operators) (ts : List Token) :
    brackets (waitingBehind operators ts) = unclosed ts := by
  induction ts using List.reverseRecOn with
  | nil => rfl
  | append_singleton ts t ih =>
    rw [waitingBehind_concat, brackets_stackAfter, ih, unclosed_concat]

theorem convertEnd_of_closed (h : brackets stack = []) : convertEnd stack = ⟨stack, .done⟩ := by
  have hfind : stack.find? (!notOpen ·) = none := by
    rw [← List.head?_filter]
    exact congrArg List.head? h
  simp only [convertEnd, hfind]

theorem convertEnd_of_unclosed {opening : Token} {below : List Token}
    (h : brackets stack = opening :: below) :
    convertEnd stack = ⟨[], .failed (unpaired opening)⟩ := by
  have hfind : stack.find? (!notOpen ·) = some opening := by
    rw [← List.head?_filter]
    exact congrArg List.head? h
  simp only [convertEnd, hfind]

end Brackets

/-! ## What waits -/

section Orderly

variable {operators : Operators} {stack : List Token} {t : Token}

theorem MayWait.find? (h : MayWait operators t) (hk : t.kind = .operator) :
    (operators.find? t.text).isSome = true := by
  rcases h with ⟨-, h⟩ | h | h
  · exact h
  · simp [hk] at h
  · simp [hk] at h

theorem MayWait.ne_illegal (h : MayWait operators t) : t.kind ≠ .illegal := by
  rcases h with ⟨h, -⟩ | h | h <;> simp [h]

theorem orderly_nil : Orderly operators [] := by
  intro u hu
  cases hu

theorem Orderly.sublist {below : List Token} (h : Orderly operators stack)
    (hb : below.Sublist stack) : Orderly operators below :=
  fun u hu => h u (hb.subset hu)

theorem Orderly.cons (h : Orderly operators stack) (ht : MayWait operators t) :
    Orderly operators (t :: stack) :=
  List.forall_mem_cons.2 ⟨ht, h⟩

/-- Operators that are all in the table are released without an error. -/
theorem releaseOperators_of_orderly (h : Orderly operators stack) (incoming : Operator) :
    releaseOperators operators incoming stack
      = (stack.takeWhile (isReleasedBy operators incoming),
          .ok (stack.dropWhile (isReleasedBy operators incoming))) := by
  induction stack with
  | nil => rfl
  | cons top below ih =>
    have hbelow := ih (h.sublist (List.sublist_cons_self top below))
    rw [releaseOperators, hbelow, List.takeWhile_cons, List.dropWhile_cons]
    by_cases hk : top.kind = .operator
    · obtain ⟨spec, hs⟩ := Option.isSome_iff_exists.1 ((h top (by simp)).find? hk)
      by_cases hp : spec.precedes incoming = true <;> simp [isReleasedBy, hk, hs, hp]
    · simp [isReleasedBy, hk]

theorem suffix_keptBy (operators : Operators) (stack : List Token) (t : Token) :
    keptBy operators stack t <:+ stack := by
  unfold keptBy
  split
  · split
    · exact List.suffix_rfl
    · exact List.dropWhile_suffix _
  · exact List.suffix_rfl

theorem suffix_withoutName (stack : List Token) : withoutName stack <:+ stack := by
  cases stack with
  | nil => exact List.suffix_rfl
  | cons top below =>
    rw [withoutName]
    split
    · exact List.suffix_cons top below
    · exact List.suffix_rfl

theorem suffix_fromOpen (stack : List Token) : fromOpen stack <:+ stack :=
  List.dropWhile_suffix _

/-- What a closing bracket leaves waiting. -/
theorem suffix_belowOpen (stack : List Token) : withoutName (fromOpen stack).tail <:+ stack :=
  (suffix_withoutName _).trans ((List.tail_suffix _).trans (suffix_fromOpen stack))

/-- What waits behind a token was waiting before, or is the token itself. -/
theorem Orderly.stackAfter (h : Orderly operators stack)
    (ht : t.kind = .operator → MayWait operators t) :
    Orderly operators (stackAfter operators stack t) := by
  unfold Formula.stackAfter
  split
  · next hk => exact h.cons (.inr (.inl hk))
  · next hk => exact h.cons (.inr (.inr hk))
  · next hk => exact (h.sublist (suffix_keptBy operators stack t).sublist).cons (ht hk)
  · exact h.sublist (suffix_fromOpen stack).sublist
  · exact h.sublist (suffix_belowOpen stack).sublist
  · exact h

end Orderly

/-! ## One token -/

/-- None of the tokens is text that is no token. -/
abbrev Legal (ts : List Token) : Prop := ∀ t ∈ ts, t.kind ≠ .illegal

section Tokens

variable {operators : Operators} {stack stack' before rest : List Token} {t : Token} {e : EvalError}

theorem Orderly.legal (h : Orderly operators stack) : Legal stack :=
  fun t ht => (h t ht).ne_illegal

/-- A token that may wait does so, if there is room, on what it does not release. -/
theorem convertToken_of_mayWait (h : Orderly operators stack) (ht : MayWait operators t) :
    ∃ out kept, Legal out ∧ stackAfter operators stack t = t :: kept ∧
      convertToken operators stack t = wait out t kept := by
  rcases ht with ⟨hk, hfind⟩ | hk | hk
  · obtain ⟨incoming, hfind⟩ := Option.isSome_iff_exists.1 hfind
    simp only [stackAfter, hk, convertToken, convertOperator, keptBy, hfind]
    by_cases harity : incoming.arity = 1
    · exact ⟨[], stack, List.forall_mem_nil _, by rw [if_pos harity], by rw [if_pos harity]⟩
    · refine ⟨stack.takeWhile (isReleasedBy operators incoming), _,
        (h.sublist (List.takeWhile_sublist _)).legal, by rw [if_neg harity], ?_⟩
      rw [if_neg harity, releaseOperators_of_orderly h]
  all_goals exact ⟨[], stack, List.forall_mem_nil _, by simp only [stackAfter, hk],
    by simp only [convertToken, hk]⟩

/-- A comma or a closing bracket without an open bracket fails, and otherwise goes on from what
waits below. -/
theorem convertToken_of_closing (h : Orderly operators stack)
    (hk : t.kind = .separator ∨ t.kind = .closeParen) :
    ∃ out, Legal out ∧ convertToken operators stack t
      = ⟨out, if brackets stack = [] then .failed (unpaired t)
          else .waiting (stackAfter operators stack t)⟩ := by
  have habove : Legal (aboveOpen stack) := (h.sublist (List.takeWhile_sublist _)).legal
  -- All above the bracket is released, with the name in front of it when it is closed.
  rcases fromOpen_eq stack with ⟨hf, hb⟩ | ⟨opening, below, hf, -, hb⟩
  · refine ⟨aboveOpen stack, habove, ?_⟩
    rw [if_pos hb]
    rcases hk with hk | hk <;>
      simp only [convertToken, hk, convertSeparator, convertClose, hf]
  · rw [hb, if_neg (List.cons_ne_nil _ _)]
    rcases hk with hk | hk
    · exact ⟨aboveOpen stack, habove, by
        simp only [convertToken, hk, convertSeparator, stackAfter, hf]⟩
    · cases below with
      | nil => exact ⟨aboveOpen stack, habove, by
          simp only [convertToken, hk, convertClose, stackAfter, hf, List.tail_cons, withoutName]⟩
      | cons top below =>
        by_cases hname : top.kind = .identifier
        · refine ⟨aboveOpen stack ++ [top], ?_, by
            simp only [convertToken, hk, convertClose, stackAfter, hf, List.tail_cons, withoutName,
              hname, if_true]⟩
          refine List.forall_mem_append.2 ⟨habove, ?_⟩
          simp [hname]
        · exact ⟨aboveOpen stack, habove, by
            simp only [convertToken, hk, convertClose, stackAfter, hf, List.tail_cons, withoutName,
              hname, if_false]⟩

/-- How the conversion stands behind one more token, which may offend. -/
abbrev progressBehind (operators : Operators) (before : List Token) (t : Token) : Progress :=
  (offence? operators before t).elim (.waiting (waitingBehind operators (before ++ [t]))) .failed

theorem wait_of_stackAfter {out kept : List Token}
    (h : stackAfter operators (waitingBehind operators before) t = t :: kept) :
    wait out t kept = ⟨out, (overflow? operators before t).elim
      (.waiting (waitingBehind operators (before ++ [t]))) .failed⟩ := by
  rw [overflow?, waitingBehind_concat, h, List.length_cons, wait]
  by_cases hfull : waitingCapacity ≤ kept.length
  · rw [if_pos hfull, if_pos (Nat.lt_succ_of_le hfull)]
    rfl
  · rw [if_neg hfull, if_neg (fun hlt => hfull (Nat.le_of_lt_succ hlt))]
    rfl

/-- **One step of a conversion.** What is put out is legal; the conversion fails if the token
offends, and goes on otherwise. -/
theorem convertToken_eq (h : Orderly operators (waitingBehind operators before))
    (hend : t.kind ≠ .endOfInput) (hlegal : t.kind ≠ .illegal) :
    ∃ out, Legal out ∧ convertToken operators (waitingBehind operators before) t
      = ⟨out, progressBehind operators before t⟩ := by
  -- What may wait offends only if there is no room, and what closes only if nothing is open.
  have hwait : MayWait operators t → offence? operators before t = overflow? operators before t →
      ∃ out, Legal out ∧ convertToken operators (waitingBehind operators before) t
        = ⟨out, progressBehind operators before t⟩ := by
    intro ht hoffence
    obtain ⟨out, kept, hout, hafter, hconv⟩ := convertToken_of_mayWait h ht
    exact ⟨out, hout, by rw [hconv, wait_of_stackAfter hafter, progressBehind, hoffence]⟩
  have hclose : t.kind = .separator ∨ t.kind = .closeParen →
      ∃ out, Legal out ∧ convertToken operators (waitingBehind operators before) t
        = ⟨out, progressBehind operators before t⟩ := by
    intro hk
    obtain ⟨out, hout, hconv⟩ := convertToken_of_closing h hk
    refine ⟨out, hout, ?_⟩
    rw [hconv, brackets_waitingBehind, ← waitingBehind_concat]
    by_cases hopen : unclosed before = [] <;>
      rcases hk with hk | hk <;>
        (simp only [progressBehind, offence?, hk, hopen, if_true, if_false]
         rfl)
  cases hk : t.kind with
  | integer | float | string =>
    refine ⟨[t], List.forall_mem_singleton.2 hlegal, ?_⟩
    simp only [convertToken, progressBehind, offence?, waitingBehind_concat, stackAfter, hk]
    rfl
  | identifier => exact hwait (.inr (.inl hk)) (by simp only [offence?, hk])
  | openParen => exact hwait (.inr (.inr hk)) (by simp only [offence?, hk])
  | operator =>
    cases hfind : operators.find? t.text with
    | none =>
      refine ⟨[], List.forall_mem_nil _, ?_⟩
      simp only [convertToken, convertOperator, progressBehind, offence?, hk, hfind]
      rfl
    | some incoming =>
      refine hwait (.inl ⟨hk, by rw [hfind]; rfl⟩) ?_
      simp only [offence?, hk, hfind]
      rfl
  | separator => exact hclose (.inl hk)
  | closeParen => exact hclose (.inr hk)
  | endOfInput => exact absurd hk hend
  | illegal => exact absurd hk hlegal

theorem stackAfter_of_mayWait (h : Orderly operators stack) (ht : MayWait operators t)
    (hp : (convertToken operators stack t).progress = .waiting stack') :
    stack' = stackAfter operators stack t := by
  obtain ⟨out, kept, -, hafter, hconv⟩ := convertToken_of_mayWait h ht
  rw [hconv, wait] at hp
  split at hp
  · cases hp
  · cases hp
    exact hafter.symm

theorem stackAfter_of_closing (h : Orderly operators stack)
    (hk : t.kind = .separator ∨ t.kind = .closeParen)
    (hp : (convertToken operators stack t).progress = .waiting stack') :
    stack' = stackAfter operators stack t := by
  obtain ⟨out, -, hconv⟩ := convertToken_of_closing h hk
  rw [hconv] at hp
  simp only at hp
  split at hp <;> cases hp
  rfl

/-- Behind a token with which the conversion goes on there waits what is said to wait; an operator
among these tokens is in the table. -/
theorem of_convertToken_waiting (h : Orderly operators stack)
    (hp : (convertToken operators stack t).progress = .waiting stack') :
    stack' = stackAfter operators stack t ∧ (t.kind = .operator → MayWait operators t) := by
  cases hk : t.kind with
  | integer | float | string =>
    simp only [convertToken, hk] at hp
    cases hp
    exact ⟨by simp only [stackAfter, hk], fun hop => by cases hop⟩
  | identifier => exact ⟨stackAfter_of_mayWait h (.inr (.inl hk)) hp, fun hop => by cases hop⟩
  | openParen => exact ⟨stackAfter_of_mayWait h (.inr (.inr hk)) hp, fun hop => by cases hop⟩
  | operator =>
    cases hfind : operators.find? t.text with
    | none =>
      simp only [convertToken, convertOperator, hk, hfind] at hp
      cases hp
    | some incoming =>
      have ht : MayWait operators t := .inl ⟨hk, by rw [hfind]; rfl⟩
      exact ⟨stackAfter_of_mayWait h ht hp, fun _ => ht⟩
  | separator => exact ⟨stackAfter_of_closing h (.inl hk) hp, fun hop => by cases hop⟩
  | closeParen => exact ⟨stackAfter_of_closing h (.inr hk) hp, fun hop => by cases hop⟩
  | endOfInput =>
    simp only [convertToken, hk, convertEnd] at hp
    split at hp <;> cases hp
  | illegal =>
    simp only [convertToken, hk] at hp
    cases hp

/-- Whatever a token is, it leaves nothing waiting but what may wait. -/
theorem orderly_of_convertToken (h : Orderly operators stack)
    (hp : (convertToken operators stack t).progress = .waiting stack') :
    Orderly operators stack' := by
  obtain ⟨rfl, ht⟩ := of_convertToken_waiting h hp
  exact h.stackAfter ht

theorem orderly_of_mem_releases {input : List Token} {r : Release}
    (h : Orderly operators stack) (hr : r ∈ releases operators stack input)
    (hp : r.progress = .waiting stack') : Orderly operators stack' := by
  induction input generalizing stack with
  | nil =>
    rw [releases, List.mem_singleton] at hr
    subst hr
    unfold convertEnd at hp
    split at hp <;> cases hp
  | cons t input ih =>
    rw [releases, List.mem_cons] at hr
    rcases hr with rfl | hr
    · exact orderly_of_convertToken h hp
    · split at hr
      · next below hwaiting => exact ih (orderly_of_convertToken h hwaiting) hr
      · cases hr

end Tokens

/-! ## Whole inputs -/

section Inputs

variable {operators : Operators} {ts before after : List Token} {t : Token} {e : EvalError}

/-- What holds of every element with those in front of it, for one more element. -/
theorem forall_split_concat {α : Type} {P : List α → α → Prop} {xs : List α} {x : α} :
    (∀ before y after, xs ++ [x] = before ++ y :: after → P before y)
      ↔ (∀ before y after, xs = before ++ y :: after → P before y) ∧ P xs x := by
  constructor
  · intro h
    refine ⟨fun before y after hxs => h before y (after ++ [x]) ?_, h xs x [] rfl⟩
    rw [hxs, List.append_assoc, List.cons_append]
  · rintro ⟨hxs, hx⟩ before y after heq
    rcases List.eq_nil_or_concat after with rfl | ⟨after, z, rfl⟩
    · obtain ⟨rfl, hy⟩ := List.append_inj' heq rfl
      cases hy
      exact hx
    · have heq : xs ++ [x] = (before ++ y :: after) ++ [z] := by simpa using heq
      obtain ⟨rfl, -⟩ := List.append_inj' heq rfl
      exact hxs before y after rfl

theorem inoffensive_concat :
    Inoffensive operators (ts ++ [t])
      ↔ Inoffensive operators ts ∧ offence? operators ts t = none :=
  forall_split_concat

/-- Where a token offends, there is a first one that does. -/
theorem exists_first_offence (h : ¬Inoffensive operators ts) :
    ∃ before t after e, ts = before ++ t :: after ∧ Inoffensive operators before ∧
      offence? operators before t = some e := by
  induction ts using List.reverseRecOn with
  | nil => exact absurd (fun _ _ _ hts => by simp at hts) h
  | append_singleton ts t ih =>
    by_cases hts : Inoffensive operators ts
    · cases ho : offence? operators ts t with
      | none => exact absurd (inoffensive_concat.2 ⟨hts, ho⟩) h
      | some e => exact ⟨ts, t, [], e, rfl, hts, ho⟩
    · obtain ⟨before, u, after, e, rfl, hbefore, ho⟩ := ih hts
      exact ⟨before, u, after ++ [t], e, by simp, hbefore, ho⟩

theorem mayWait_of_inoffensive (ho : offence? operators before t = none)
    (hk : t.kind = .operator) : MayWait operators t := by
  refine .inl ⟨hk, ?_⟩
  simp only [offence?, hk] at ho
  split at ho
  · cases ho
  · next hfind => simpa [Option.isSome_iff_ne_none] using hfind

theorem orderly_waitingBehind (h : Inoffensive operators ts) :
    Orderly operators (waitingBehind operators ts) := by
  induction ts using List.reverseRecOn with
  | nil => exact orderly_nil
  | append_singleton ts t ih =>
    obtain ⟨hts, ht⟩ := inoffensive_concat.1 h
    rw [waitingBehind_concat]
    exact (ih hts).stackAfter (mayWait_of_inoffensive ht)

/-- Tokens of which none offends: the conversion puts out legal tokens and comes to what waits
behind them. -/
theorem itemsFrom_of_inoffensive (h : Inoffensive operators ts)
    (hend : ∀ t ∈ ts, t.kind ≠ .endOfInput) :
    ∃ out, Legal out ∧ ∀ rest, itemsFrom operators [] (ts ++ rest)
      = out.map .ok ++ itemsFrom operators (waitingBehind operators ts) rest := by
  induction ts using List.reverseRecOn with
  | nil => exact ⟨[], List.forall_mem_nil _, fun _ => rfl⟩
  | append_singleton ts t ih =>
    obtain ⟨hts, ht⟩ := inoffensive_concat.1 h
    obtain ⟨hend, htend⟩ := List.forall_mem_append.1 hend
    obtain ⟨out, hout, hitems⟩ := ih hts hend
    have hlegal : t.kind ≠ .illegal := fun hk => by simp [offence?, hk] at ht
    obtain ⟨out', hout', hconv⟩ :=
      convertToken_eq (orderly_waitingBehind hts) (htend t (by simp)) hlegal
    refine ⟨out ++ out', List.forall_mem_append.2 ⟨hout, hout'⟩, fun rest => ?_⟩
    rw [List.append_assoc, List.singleton_append, hitems, itemsFrom_cons, hconv, progressBehind, ht]
    simp [Release.items]

theorem collect_itemsFrom_of_offence (h : Inoffensive operators before)
    (hend : ∀ u ∈ before ++ [t], u.kind ≠ .endOfInput)
    (ho : offence? operators before t = some e) :
    collect (itemsFrom operators [] (before ++ t :: after)) = .error e := by
  obtain ⟨hend, htend⟩ := List.forall_mem_append.1 hend
  obtain ⟨out, hout, hitems⟩ := itemsFrom_of_inoffensive h hend
  rw [hitems, collect_map_ok_append hout, itemsFrom_cons]
  by_cases hlegal : t.kind = .illegal
  · have he : e = illegalToken t := by simpa [offence?, hlegal, eq_comm] using ho
    simp only [convertToken, hlegal, he]
    simp [Release.items, collect, hlegal, Except.map]
  · obtain ⟨out', hout', hconv⟩ :=
      convertToken_eq (orderly_waitingBehind h) (htend t (by simp)) hlegal
    rw [hconv, progressBehind, ho]
    simp only [Release.items, Option.elim_some, List.append_nil]
    rw [collect_map_ok_append hout']
    rfl

/-- Behind tokens of which none offends, all that waits is released if every bracket is closed. -/
theorem collect_itemsFrom_of_closed (h : Inoffensive operators ts)
    (hend : ∀ t ∈ ts, t.kind ≠ .endOfInput) (hclosed : unclosed ts = []) :
    ∃ out, collect (itemsFrom operators [] ts) = .ok out := by
  obtain ⟨out, hout, hitems⟩ := itemsFrom_of_inoffensive h hend
  have hitems := hitems []
  rw [List.append_nil, itemsFrom_nil,
    convertEnd_of_closed ((brackets_waitingBehind operators ts).trans hclosed)] at hitems
  refine ⟨out ++ waitingBehind operators ts, ?_⟩
  rw [hitems, collect_map_ok_append hout]
  simp only [Release.items, List.append_nil, collect_map_ok (orderly_waitingBehind h).legal]
  rfl

/-- Otherwise the end of the input fails at the last open bracket. -/
theorem collect_itemsFrom_of_unclosed {opening : Token} {below : List Token}
    (h : Inoffensive operators ts) (hend : ∀ t ∈ ts, t.kind ≠ .endOfInput)
    (hopen : unclosed ts = opening :: below) :
    collect (itemsFrom operators [] ts) = .error (unpaired opening) := by
  obtain ⟨out, hout, hitems⟩ := itemsFrom_of_inoffensive h hend
  have hitems := hitems []
  rw [List.append_nil, itemsFrom_nil,
    convertEnd_of_unclosed ((brackets_waitingBehind operators ts).trans hopen)] at hitems
  rw [hitems, collect_map_ok_append hout]
  rfl

theorem exists_beforeEnd (input : List Token) :
    ∃ tail, input = beforeEnd input ++ tail ∧ EndsInput tail := by
  refine ⟨input.dropWhile (·.kind ≠ .endOfInput), List.takeWhile_append_dropWhile.symm, ?_⟩
  intro t ht
  have hn := List.head?_dropWhile_not (fun t : Token => decide (t.kind ≠ .endOfInput)) input
  rw [Option.mem_def.1 ht] at hn
  simpa using hn

theorem convertTokens_eq (operators : Operators) (input : List Token) :
    convertTokens operators input = collect (itemsFrom operators [] (beforeEnd input)) := by
  obtain ⟨tail, hinput, htail⟩ := exists_beforeEnd input
  conv => lhs; rw [hinput, convertTokens, convertItems_append_of_endsInput htail]
  rfl

theorem ne_endOfInput_of_mem_beforeEnd {input : List Token} (ht : t ∈ beforeEnd input) :
    t.kind ≠ .endOfInput := by
  simpa using List.all_eq_true.1 List.all_takeWhile t ht

/-- The first offence is the error of the conversion. -/
theorem convertTokens_of_offence {input : List Token}
    (hinput : beforeEnd input = before ++ t :: after) (h : Inoffensive operators before)
    (ho : offence? operators before t = some e) : convertTokens operators input = .error e := by
  rw [convertTokens_eq, hinput]
  refine collect_itemsFrom_of_offence h (fun u hu => ?_) ho
  apply ne_endOfInput_of_mem_beforeEnd
  rw [hinput, ← List.singleton_append, ← List.append_assoc]
  exact List.mem_append_left after hu

/-- Without an offence, a conversion succeeds if every bracket is closed. -/
theorem convertTokens_of_closed {input : List Token} (h : Inoffensive operators (beforeEnd input))
    (hclosed : unclosed (beforeEnd input) = []) :
    ∃ out, convertTokens operators input = .ok out := by
  rw [convertTokens_eq]
  exact collect_itemsFrom_of_closed h (fun t => ne_endOfInput_of_mem_beforeEnd) hclosed

/-- Without an offence, a conversion fails at the last open bracket. -/
theorem convertTokens_of_unclosed {input : List Token} {opening : Token} {below : List Token}
    (h : Inoffensive operators (beforeEnd input))
    (hopen : unclosed (beforeEnd input) = opening :: below) :
    convertTokens operators input = .error (unpaired opening) := by
  rw [convertTokens_eq]
  exact collect_itemsFrom_of_unclosed h (fun t => ne_endOfInput_of_mem_beforeEnd) hopen

/-- What is accepted has no offence and leaves no bracket open. -/
theorem of_convertTokens_eq_ok {input out : List Token}
    (h : convertTokens operators input = .ok out) :
    Inoffensive operators (beforeEnd input) ∧ unclosed (beforeEnd input) = [] := by
  have hin : Inoffensive operators (beforeEnd input) := by
    apply Classical.byContradiction
    intro hin
    obtain ⟨before, t, after, e, hinput, hbefore, ho⟩ := exists_first_offence hin
    rw [convertTokens_of_offence hinput hbefore ho] at h
    cases h
  refine ⟨hin, ?_⟩
  cases hopen : unclosed (beforeEnd input) with
  | nil => rfl
  | cons opening below =>
    rw [convertTokens_of_unclosed hin hopen] at h
    cases h

/-- **What a conversion accepts, and how it fails.** An input is accepted exactly if none of its
tokens offends and every bracket is closed. Otherwise the error is that of the first token that
offends; if there is none, that of the last open bracket. What waits in between is always orderly,
so an operator that is released is never missing from the table. -/
theorem convertTokens_verdict (operators : Operators) (input : List Token) :
    ((∃ out, convertTokens operators input = .ok out) ↔
      Inoffensive operators (beforeEnd input) ∧ unclosed (beforeEnd input) = []) ∧
    (∀ before t after e, beforeEnd input = before ++ t :: after → Inoffensive operators before →
      offence? operators before t = some e → convertTokens operators input = .error e) ∧
    (∀ opening below, Inoffensive operators (beforeEnd input) →
      unclosed (beforeEnd input) = opening :: below →
      convertTokens operators input = .error (unpaired opening)) ∧
    ∀ r ∈ releases operators [] input, ∀ stack, r.progress = .waiting stack →
      ∀ incoming top, (releaseOperators operators incoming stack).2 ≠ .error top := by
  refine ⟨⟨fun ⟨_, hout⟩ => of_convertTokens_eq_ok hout,
    fun ⟨h, hclosed⟩ => convertTokens_of_closed h hclosed⟩,
    fun _ _ _ _ => convertTokens_of_offence, fun _ _ => convertTokens_of_unclosed, ?_⟩
  intro r hr stack hwaiting incoming top herror
  rw [releaseOperators_of_orderly (orderly_of_mem_releases orderly_nil hr hwaiting)] at herror
  cases herror

end Inputs

end Formula
