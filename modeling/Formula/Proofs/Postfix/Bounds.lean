import Formula.Proofs.Postfix.Failure
import Formula.Proofs.Token.Literals
import Mathlib.Logic.Function.Iterate

/-!
# Bounds of the stacks and the queue

* `Release.Within`: a release that leaves no more tokens waiting, and puts out no more items, than
  there is room for. `convertToken_within` is one token, `convertEnd_within` the end of the input.
* `Converter.Reachable`: the conversions between two calls; `Converter.Midway`: those in the middle
  of a token. `Converter.Reachable.within`: there is room for all of them.
* `StackProgram`: what can be written with the methods of the stack of operands alone;
  `StackProgram.visits`: the stacks between two calls.
* `Context.IsProgrammed`: a context all of whose operations are such programs.
* `ReachableStack`: the stacks of an executor, whatever tokens it gets, also behind an error.
-/

namespace Formula

/-! ## One token of the input -/

/-- Of a release no more tokens wait than the stack of a conversion has room for, and at most one
item more is put out. -/
structure Release.Within (r : Release) : Prop where
  waiting : ∀ stack, r.progress = .waiting stack → stack.length ≤ waitingCapacity
  items : r.items.length ≤ waitingCapacity + 1

section Releases

variable {operators : Operators} {stack released : List Token} {t : Token}

theorem within_waiting (hitems : released.length ≤ waitingCapacity + 1)
    (hstack : stack.length ≤ waitingCapacity) : Release.Within ⟨released, .waiting stack⟩ where
  waiting s hs := by
    cases hs
    exact hstack
  items := by simpa [Release.items] using hitems

theorem within_done (hitems : released.length ≤ waitingCapacity + 1) :
    Release.Within ⟨released, .done⟩ where
  waiting := nofun
  items := by simpa [Release.items] using hitems

/-- The error takes the one place that is left. -/
theorem within_failed (hitems : released.length ≤ waitingCapacity) (e : EvalError) :
    Release.Within ⟨released, .failed e⟩ where
  waiting := nofun
  items := by simpa [Release.items] using hitems

theorem wait_within (h : released.length + stack.length ≤ waitingCapacity) :
    (wait released t stack).Within := by
  unfold wait
  split
  · exact within_failed (by omega) _
  · exact within_waiting (by omega) (by rw [List.length_cons]; omega)

theorem convertOperator_within (h : stack.length ≤ waitingCapacity) :
    (convertOperator operators stack t).Within := by
  unfold convertOperator
  split
  · exact within_failed (Nat.zero_le _) _
  · next incoming _ =>
    have hlength := length_releaseOperators operators incoming stack
    split
    · exact wait_within (by rwa [List.length_nil, Nat.zero_add])
    · rcases hr : releaseOperators operators incoming stack with ⟨released, top | rest⟩
      · rw [hr] at hlength
        exact within_failed (Nat.le_trans hlength h) _
      · rw [hr] at hlength
        exact wait_within (Nat.le_trans hlength h)

/-- The bracket that is taken and put back had its place before. -/
theorem convertSeparator_within (h : stack.length ≤ waitingCapacity) :
    (convertSeparator stack t).Within := by
  have hlength := length_aboveOpen_add stack
  unfold convertSeparator
  split
  · exact within_failed (by omega) _
  · next opening below hopen =>
    rw [hopen] at hlength
    exact within_waiting (by omega) (by omega)

theorem convertClose_within (h : stack.length ≤ waitingCapacity) :
    (convertClose stack t).Within := by
  have hlength := length_aboveOpen_add stack
  unfold convertClose
  split
  · exact within_failed (by omega) _
  · exact within_waiting (by omega) (Nat.zero_le _)
  · next opening top below hopen =>
    rw [hopen, List.length_cons, List.length_cons] at hlength
    split
    · refine within_waiting ?_ (by omega)
      rw [List.length_append, List.length_singleton]
      omega
    · exact within_waiting (by omega) (by rw [List.length_cons]; omega)

theorem convertEnd_within (h : stack.length ≤ waitingCapacity) : (convertEnd stack).Within := by
  unfold convertEnd
  split
  · exact within_failed (Nat.zero_le _) _
  · exact within_done (by omega)

/-- One token. -/
theorem convertToken_within (h : stack.length ≤ waitingCapacity) :
    (convertToken operators stack t).Within := by
  have hone : [t].length ≤ waitingCapacity + 1 := Nat.le_add_left _ _
  unfold convertToken
  split
  · exact within_waiting hone h
  · exact within_waiting hone h
  · exact within_waiting hone h
  · exact wait_within (by rwa [List.length_nil, Nat.zero_add])
  · exact wait_within (by rwa [List.length_nil, Nat.zero_add])
  · exact convertOperator_within h
  · exact convertSeparator_within h
  · exact convertClose_within h
  · exact convertEnd_within h
  · exact within_done hone

end Releases

/-! ## Conversions -/

namespace Converter

/-- The tokens that wait; none if the conversion is over. -/
def waiting (c : Converter) : List Token :=
  match c.progress with
  | .waiting stack => stack
  | _ => []

/-- The conversions that come about by reading any tokens, and the end of the input, and by taking
what has been released. Nothing is read while something is left to take. -/
inductive Reachable (operators : Operators) : Converter → Prop
  | start : Reachable operators start
  | accept {c : Converter} (t? : Option Token) : Reachable operators c → c.hungry = true →
      Reachable operators (c.accept operators t?)
  | take {progress : Progress} {item : Item} {queue : List Item} :
      Reachable operators ⟨progress, item :: queue⟩ → Reachable operators ⟨progress, queue⟩

/-- A point at which a token, or the end of the input, has been read in part: of the tokens that
waited some of the last ones have been taken, and of the items that it puts out some of the first
ones have been put out. The token itself has not been put on the stack yet. -/
structure Midway (operators : Operators) (c : Converter) (t? : Option Token) (m : Converter) :
    Prop where
  waiting : m.waiting <:+ c.waiting
  queue : m.queue <+: (c.accept operators t?).queue

/-- There is room for what waits and for what has been put out. -/
structure Within (c : Converter) : Prop where
  waiting : c.waiting.length ≤ waitingCapacity
  queue : c.queue.length ≤ waitingCapacity + 1

variable {operators : Operators} {c m : Converter} {t? : Option Token}

theorem within_of_release {r : Release} (h : r.Within) : Within ⟨r.progress, r.items⟩ where
  waiting := by
    obtain ⟨tokens, progress⟩ := r
    cases progress with
    | waiting stack => exact h.waiting stack rfl
    | done | failed => exact Nat.zero_le _
  queue := h.items

/-- One token, or the end of the input. -/
theorem Within.accept (h : c.Within) (hungry : c.hungry = true) (t? : Option Token) :
    (c.accept operators t?).Within := by
  obtain ⟨stack, rfl⟩ := exists_of_hungry hungry
  have hstack : stack.length ≤ waitingCapacity := h.waiting
  cases t? with
  | none => exact within_of_release (convertEnd_within hstack)
  | some t => exact within_of_release (convertToken_within hstack)

/-- Every reachable conversion. -/
theorem Reachable.within (h : Reachable operators c) : c.Within := by
  induction h with
  | start => exact ⟨Nat.zero_le _, Nat.zero_le _⟩
  | accept t? _ hungry ih => exact ih.accept hungry t?
  | take _ ih => exact ⟨ih.waiting, Nat.le_trans (Nat.le_succ _) ih.queue⟩

theorem Midway.within (h : Midway operators c t? m) (hc : Reachable operators c)
    (hungry : c.hungry = true) : m.Within where
  waiting := Nat.le_trans h.waiting.length_le hc.within.waiting
  queue := Nat.le_trans h.queue.length_le (hc.within.accept hungry t?).queue

end Converter

namespace Conversion

variable {operators : Operators}

theorem reachable_fill {c : Converter} (h : c.Reachable operators) (input : List Token) :
    (fill operators input c).converter.Reachable operators := by
  induction input generalizing c with
  | nil =>
    rw [fill]
    split
    · next hungry => exact h.accept none hungry
    · exact h
  | cons t input ih =>
    rw [fill]
    split
    · next hungry => exact ih (h.accept (some t) hungry)
    · exact h

theorem reachable_next {s : Conversion} (h : s.converter.Reachable operators) :
    (s.next operators).2.converter.Reachable operators := by
  have hfill := reachable_fill h s.input
  unfold next take
  split
  · exact hfill
  · next item queue hqueue =>
    have htaken : Converter.Reachable operators
        ⟨(fill operators s.input s.converter).converter.progress, item :: queue⟩ := by
      rw [← hqueue]
      exact hfill
    exact htaken.take

/-- All points of all conversions are reachable. -/
theorem reachable_iterate (operators : Operators) (input : List Token) (n : Nat) :
    ((fun s => (s.next operators).2)^[n] (start input)).converter.Reachable operators := by
  induction n with
  | zero => exact .start
  | succ n ih =>
    rw [Function.iterate_succ_apply']
    exact reachable_next ih

end Conversion

/-! ## Programs on the stack of operands -/

/-- A computation that gets at the stack of operands by its methods only: it looks at it, puts an
operand there or takes the top one, and goes on with what it is told; a failure of a call is told
and does not end it. -/
inductive StackProgram
  | done (outcome : Except EvalError Value)
  | look (next : OperandStack → StackProgram)
  | push (x : Operand) (next : Except EvalError Unit → StackProgram)
  | pop (t : Token) (next : Except EvalError Operand → StackProgram)

namespace StackProgram

/-- What the program returns, and the stack that it leaves. -/
def run : StackProgram → OperandStack → Except EvalError Value × OperandStack
  | done outcome, s => (outcome, s)
  | look next, s => (next s).run s
  | push x next, s =>
    let r := (Formula.push x).run.run s
    (next r.1).run r.2
  | pop t next, s =>
    let r := (Formula.pop t).run.run s
    (next r.1).run r.2

/-- The stacks at the start and behind each call. -/
def visits : StackProgram → OperandStack → List OperandStack
  | done _, s => [s]
  | look next, s => (next s).visits s
  | push x next, s =>
    let r := (Formula.push x).run.run s
    s :: (next r.1).visits r.2
  | pop t next, s =>
    let r := (Formula.pop t).run.run s
    s :: (next r.1).visits r.2

/-- Takes an operand, and fails if there is none. -/
def popping (t : Token) (next : Operand → StackProgram) : StackProgram :=
  pop t fun
    | .error e => done (.error e)
    | .ok x => next x

end StackProgram

/-- An operation that a program on the stack describes, for each token. -/
def Operation.IsProgrammed (f : Operation) : Prop :=
  ∀ t, ∃ p : StackProgram, ∀ s, (f t).run.run s = p.run s

/-- All operators and functions of a context are programs on the stack. -/
def Context.IsProgrammed (ctx : Context) : Prop := ∀ apply, ctx.Has apply → apply.IsProgrammed

/-- The stacks that executing any tokens leads to. A token that fails leaves a stack as well. -/
inductive ReachableStack (ctx : Context) : OperandStack → Prop
  | start : ReachableStack ctx []
  | step {s : OperandStack} (t : Token) : ReachableStack ctx s →
      ReachableStack ctx ((executeToken ctx t).run.run s).2

/-- A computation that leaves no more operands than there is room for. -/
def KeepsRoom {α : Type} (m : StackM α) : Prop :=
  ∀ s : OperandStack, s.length ≤ stackCapacity → (m.run.run s).2.length ≤ stackCapacity

section Room

variable {α β : Type} {s : OperandStack}

theorem keepsRoom_pure (x : α) : KeepsRoom (pure x) := fun _ => id

theorem keepsRoom_throw (e : EvalError) : KeepsRoom (throw e : StackM α) := fun _ => id

theorem keepsRoom_lift (x : Except EvalError α) : KeepsRoom (liftM x : StackM α) := by
  cases x with
  | error e => exact keepsRoom_throw e
  | ok a => exact keepsRoom_pure a

theorem keepsRoom_get : KeepsRoom (get : StackM OperandStack) := fun _ => id

theorem KeepsRoom.bind {m : StackM α} {f : α → StackM β} (hm : KeepsRoom m)
    (hf : ∀ a, KeepsRoom (f a)) : KeepsRoom (m >>= f) := by
  intro s hs
  have hle := hm s hs
  rw [ExceptT.run_bind, StateT.run_bind]
  rcases hrun : m.run.run s with ⟨e | a, s'⟩
  · rw [hrun] at hle
    exact hle
  · rw [hrun] at hle
    exact hf a s' hle

theorem keepsRoom_push (x : Operand) : KeepsRoom (push x) := by
  intro s hs
  by_cases hfull : stackCapacity ≤ s.length
  · rw [run_push_full hfull]
    exact hs
  · rw [run_push (Nat.not_le.1 hfull)]
    exact Nat.not_le.1 hfull

theorem keepsRoom_pop (t : Token) : KeepsRoom (pop t) := by
  intro s hs
  cases s with
  | nil =>
    rw [run_pop_nil]
    exact hs
  | cons x s =>
    rw [run_pop_cons]
    exact Nat.le_of_succ_le hs

/-- Between two calls of a program there is room for all operands. -/
theorem StackProgram.length_visits_le (p : StackProgram) (hs : s.length ≤ stackCapacity) :
    (p.run s).2.length ≤ stackCapacity ∧ ∀ s' ∈ p.visits s, s'.length ≤ stackCapacity := by
  induction p generalizing s with
  | done outcome => exact ⟨hs, List.forall_mem_singleton.2 hs⟩
  | look next ih => exact ih s hs
  | push x next ih =>
    obtain ⟨hrun, hvisits⟩ := ih _ (keepsRoom_push x s hs)
    exact ⟨hrun, List.forall_mem_cons.2 ⟨hs, hvisits⟩⟩
  | pop t next ih =>
    obtain ⟨hrun, hvisits⟩ := ih _ (keepsRoom_pop t s hs)
    exact ⟨hrun, List.forall_mem_cons.2 ⟨hs, hvisits⟩⟩

theorem Operation.IsProgrammed.keepsRoom {f : Operation} (h : f.IsProgrammed) (t : Token) :
    KeepsRoom (f t) := by
  obtain ⟨p, hp⟩ := h t
  intro s hs
  rw [hp]
  exact (p.length_visits_le hs).1

end Room

section Execution

variable {ctx : Context} {s : OperandStack}

theorem applyOperator_keepsRoom (h : ctx.IsProgrammed) (t : Token) :
    KeepsRoom (applyOperator ctx t) := by
  unfold applyOperator
  split
  · exact keepsRoom_throw _
  · next spec hfind =>
    refine keepsRoom_get.bind fun found => ?_
    have happly : KeepsRoom (spec.apply t >>= fun v => push (.ofResult v t.position)) :=
      ((h _ (.inl ⟨_, spec, hfind, rfl⟩)).keepsRoom t).bind fun v => keepsRoom_push _
    dsimp only
    split
    · exact keepsRoom_throw _
    · exact happly

theorem applyFunction_keepsRoom (h : ctx.IsProgrammed) (t : Token) :
    KeepsRoom (applyFunction ctx t) := by
  unfold applyFunction
  split
  · exact keepsRoom_throw _
  · next spec hfind =>
    exact ((h _ (.inr ⟨_, spec, hfind, rfl⟩)).keepsRoom t).bind fun v => keepsRoom_push _

/-- One token leaves no more operands than there is room for. -/
theorem executeToken_keepsRoom (h : ctx.IsProgrammed) (t : Token) :
    KeepsRoom (executeToken ctx t) := by
  have hliteral : KeepsRoom (do push (← Operand.ofLiteral t)) :=
    (keepsRoom_lift _).bind keepsRoom_push
  unfold executeToken
  split
  · exact hliteral
  · exact hliteral
  · exact hliteral
  · exact applyOperator_keepsRoom h t
  · exact applyFunction_keepsRoom h t
  · exact keepsRoom_throw _
  · exact keepsRoom_pure ()
  · exact keepsRoom_throw _
  · exact keepsRoom_throw _
  · exact keepsRoom_throw _

/-- Every reachable stack. -/
theorem ReachableStack.length_le (h : ctx.IsProgrammed) (hs : ReachableStack ctx s) :
    s.length ≤ stackCapacity := by
  induction hs with
  | start => exact Nat.zero_le _
  | step t _ ih => exact executeToken_keepsRoom h t _ ih

theorem reachableStack_of_executeTokens {s' : OperandStack} {ts : List Token}
    (hs : ReachableStack ctx s) (h : executeTokens ctx s ts = .ok s') : ReachableStack ctx s' := by
  induction ts generalizing s with
  | nil =>
    cases h
    exact hs
  | cons t ts ih =>
    have hstep := hs.step t
    rw [executeTokens] at h
    rcases hrun : (executeToken ctx t).run.run s with ⟨_ | _, next⟩
    · rw [hrun] at h
      cases h
    · rw [hrun] at h hstep
      exact ih hstep h

/-- An evaluation comes to reachable stacks only. -/
theorem ComesTo.reachableStack {expression : String} {t : Token}
    (h : ComesTo ctx expression s t) : ReachableStack ctx s := by
  obtain ⟨before, -, -, hrun⟩ := h
  exact reachableStack_of_executeTokens .start hrun

/-! ## Nothing but literals -/

/-- Literals are pushed one by one, as long as there is room. -/
theorem executeTokens_literals_full {ts : List Token}
    (hts : ∀ t ∈ ts, t.isLiteral = true ∧ ∃ x, Operand.ofLiteral t = .ok x)
    (hfull : stackCapacity < s.length + ts.length) (hs : s.length ≤ stackCapacity) :
    executeTokens ctx s ts = .error (.capacityExceeded .operandStack) := by
  induction ts generalizing s with
  | nil => exact absurd hs (Nat.not_le.2 hfull)
  | cons t ts ih =>
    obtain ⟨⟨hlit, x, hx⟩, hts⟩ := List.forall_mem_cons.1 hts
    have hone : executeTokens ctx s [t] = pushed s x := by
      rw [executeTokens_literal hlit, hx]
      rfl
    rw [executeTokens_cons, hone]
    rw [List.length_cons] at hfull
    by_cases hroom : s.length < stackCapacity
    · rw [pushed_eq_ok_iff.2 ⟨hroom, rfl⟩]
      exact ih hts (by rw [List.length_cons]; omega) hroom
    · rw [pushed_eq_error_iff.2 ⟨Nat.not_lt.1 hroom, rfl⟩]
      rfl

/-- Literals stay in their order. -/
theorem convertItems_literals {operators : Operators} {ts : List Token} {u : Token}
    (hts : ∀ t ∈ ts, t.isLiteral = true) (hu : u.kind = .endOfInput) :
    convertItems operators (ts ++ [u]) = ts.map .ok := by
  show itemsFrom operators [] (ts ++ [u]) = ts.map .ok
  induction ts with
  | nil => exact (itemsFrom_end hu).trans itemsFrom_nil
  | cons t ts ih =>
    obtain ⟨ht, hts⟩ := List.forall_mem_cons.1 hts
    have hrelease : convertToken operators [] t = ⟨[t], .waiting []⟩ := by
      simp only [Token.isLiteral, Bool.or_eq_true, beq_iff_eq] at ht
      rcases ht with (hk | hk) | hk <;> simp only [convertToken, hk]
    rw [List.cons_append, itemsFrom_cons, hrelease, List.map_cons, ← ih hts]
    rfl

/-- **More than a thousand literals in a row are too many**, in every context. -/
theorem eval_of_literals {expression : String} {ts : List Token} {u : Token}
    (htokens : tokenize expression = ts ++ [u]) (hts : ∀ t ∈ ts, t.isLiteral = true)
    (hu : u.kind = .endOfInput) (hmany : stackCapacity < ts.length) :
    eval ctx expression = .error (.capacityExceeded .operandStack) := by
  have hread : ∀ t ∈ ts, t.isLiteral = true ∧ ∃ x, Operand.ofLiteral t = .ok x := by
    intro t ht
    have hmem : t ∈ tokenize expression := by
      rw [htokens]
      exact List.mem_append_left [u] ht
    exact ⟨hts t ht, ofLiteral_of_mem_tokenize hmem (hts t ht)⟩
  have hrun : executeTokens ctx [] ts = .error (.capacityExceeded .operandStack) :=
    executeTokens_literals_full hread (by rwa [List.length_nil, Nat.zero_add]) (Nat.zero_le _)
  rw [eval_eq_valueOfItems, htokens, convertItems_literals hts hu, ← valueOfTokens,
    valueOfTokens_eq, hrun]
  rfl

end Execution

end Formula
