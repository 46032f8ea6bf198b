import Formula.Proofs.Default.Token
import Formula.Proofs.Postfix.Bounds
import Formula.Proofs.Postfix.Rendered
import Formula.Proofs.Registry.Operations

/-!
# Room for operands in the default context

* `default_isProgrammed`: what is built in gets at the stack by its methods only.
* `run_executeToken_full_iff`: only a literal finds no room.
* `withinBounds`: the bounds of all stacks and queues.
-/

namespace Formula

theorem BinaryBuiltin.operation_isProgrammed (b : BinaryBuiltin) :
    Operation.IsProgrammed b.operation := by
  intro t
  refine ⟨.popping t fun right => .popping t fun left => .done (b.combine t.position left right),
    fun s => ?_⟩
  match s with
  | [] => rfl
  | [_] => rfl
  | right :: left :: below =>
    rw [run_operation]
    rfl

theorem negation_isProgrammed : Operation.IsProgrammed negation := by
  intro t
  refine ⟨.popping t fun x => .done (negate x), fun s => ?_⟩
  cases s with
  | nil => rfl
  | cons x below =>
    rw [run_negation]
    rfl

theorem default_isProgrammed : Context.default.IsProgrammed := by
  intro apply h
  rcases of_has_default h with ⟨b, rfl⟩ | rfl
  · exact b.operation_isProgrammed
  · exact negation_isProgrammed

section Full

variable {t : Token} {stack : OperandStack}

theorem executeTokens_singleton_error_iff {ctx : Context} {e : EvalError} :
    executeTokens ctx stack [t] = .error e ↔ ((executeToken ctx t).run.run stack).1 = .error e := by
  rw [executeTokens]
  rcases (executeToken ctx t).run.run stack with ⟨e' | _, s⟩
  · constructor <;> rintro ⟨⟩ <;> rfl
  · constructor <;> rintro ⟨⟩

/-- A literal is told that there is no room exactly if there is none; operators and functions of the
default context are never told. -/
theorem run_executeToken_full_iff (h : stack.length ≤ stackCapacity) :
    ((executeToken .default t).run.run stack).1 = .error (.capacityExceeded .operandStack) ↔
      t.isLiteral = true ∧ (∃ x, Operand.ofLiteral t = .ok x) ∧ stack.length = stackCapacity := by
  rw [← executeTokens_singleton_error_iff]
  constructor
  · intro hrun
    have hend : t.kind ≠ .endOfInput := by
      intro hk
      rw [executeTokens_endOfInput hk] at hrun
      cases hrun
    obtain ⟨n, harity, hle⟩ := full_of_executeTokens hend hrun
    -- taking operands away would have made room for the result
    obtain rfl : n = 0 := by omega
    have hlit : t.isLiteral = true := by
      rcases arity?_eq_some_iff.1 harity with ⟨-, hlit⟩ | ⟨h0, -⟩ | ⟨h0, -⟩
      · exact hlit
      · cases h0
      · cases h0
    refine ⟨hlit, ?_, Nat.le_antisymm h hle⟩
    rw [executeTokens_literal hlit] at hrun
    cases hx : Operand.ofLiteral t with
    | ok x => exact ⟨x, rfl⟩
    | error e =>
      obtain ⟨problem, rfl⟩ := ofLiteral_failsWith t e hx
      rw [hx] at hrun
      cases hrun
  · rintro ⟨hlit, ⟨x, hx⟩, hfull⟩
    rw [executeTokens_literal hlit, hx]
    exact pushed_eq_error_iff.2 ⟨Nat.le_of_eq hfull.symm, rfl⟩

end Full

/-- If an evaluation has no room for an operand, it has come to a literal with a full stack. -/
theorem exists_full_of_eval {s : String}
    (h : eval .default s = .error (.capacityExceeded .operandStack)) :
    ∃ t stack, ComesTo .default s stack t ∧ t.isLiteral = true ∧ stack.length = stackCapacity := by
  rcases exists_comesTo_of_eval h with ⟨t, stack, hcomes, hrun⟩ | hconvert | ⟨_, hnone⟩
  · have hle := hcomes.reachableStack.length_le default_isProgrammed
    rw [executeTokens_singleton_error_iff, run_executeToken_full_iff hle] at hrun
    exact ⟨t, stack, hcomes, hrun.1, hrun.2.2⟩
  · -- the conversion lacks room for tokens, not for operands
    rcases exists_offends_of_convertTokens hconvert with he | ⟨t, -, hoffends⟩
    · cases he
    · cases hoffends
  · cases hnone

/-- **There is room in every reachable state.** Whatever the tokens, at most 1000 of them wait in a
conversion and at most 1001 items are released and not taken, between two calls and in the middle of
a token; the points of a conversion that is called item by item are such. Whatever operators and
functions do with the stack by its methods, it holds at most 1000 operands, also behind an error. In
the default context only a literal can find no room, and this exactly if 1000 operands wait. -/
theorem withinBounds :
    (∀ (operators : Operators) (c : Converter), c.Reachable operators →
      c.waiting.length ≤ 1000 ∧ c.queue.length ≤ 1001 ∧
      ∀ t? m, c.hungry = true → c.Midway operators t? m →
        m.waiting.length ≤ 1000 ∧ m.queue.length ≤ 1001) ∧
    (∀ (operators : Operators) (input : List Token) (n : Nat),
      ((fun s => (s.next operators).2)^[n] (Conversion.start input)).converter.Reachable
        operators) ∧
    (∀ ctx : Context, ctx.IsProgrammed → ∀ stack, ReachableStack ctx stack →
      stack.length ≤ 1000 ∧ ∀ p : StackProgram, ∀ s ∈ p.visits stack, s.length ≤ 1000) ∧
    Context.default.IsProgrammed ∧
    (∀ stack, ReachableStack .default stack → ∀ t,
      ((executeToken .default t).run.run stack).1 = .error (.capacityExceeded .operandStack) ↔
        t.isLiteral = true ∧ (∃ x, Operand.ofLiteral t = .ok x) ∧ stack.length = 1000) ∧
    ∀ s, eval .default s = .error (.capacityExceeded .operandStack) →
      ∃ t stack, ComesTo .default s stack t ∧ t.isLiteral = true ∧ stack.length = 1000 := by
  refine ⟨fun operators c hc => ?_, Conversion.reachable_iterate, fun ctx hctx stack hs => ?_,
    default_isProgrammed, fun stack hs t => ?_, fun s => exists_full_of_eval⟩
  · exact ⟨hc.within.waiting, hc.within.queue, fun t? m hungry hm =>
      ⟨(hm.within hc hungry).waiting, (hm.within hc hungry).queue⟩⟩
  · have hle := hs.length_le hctx
    exact ⟨hle, fun p => (p.length_visits_le hle).2⟩
  · exact run_executeToken_full_iff (hs.length_le default_isProgrammed)

/-- A literal written more than a thousand times. -/
theorem eval_render_replicate {ctx : Context} {t : Token} {n : Nat} (hlit : t.isLiteral = true)
    (ht : t.StandsAlone) (hmany : stackCapacity < n) :
    eval ctx (Token.render (List.replicate n t)) = .error (.capacityExceeded .operandStack) := by
  have hts : ∀ u ∈ List.replicate n t, u.StandsAlone := fun u hu => by
    rw [List.eq_of_mem_replicate hu]
    exact ht
  refine eval_of_literals (tokenize_render_of_standsAlone hts) (fun u hu => ?_) rfl ?_
  · obtain ⟨i, hi, rfl⟩ := List.mem_mapIdx.1 hu
    rw [List.getElem_replicate]
    exact hlit
  · rwa [List.length_mapIdx, List.length_replicate]

/-- Leaves an operand below its result. -/
def pushBelow : Operation := fun t => do
  push (.ofResult (.int 1) t.position)
  return .int 2

theorem pushBelow_isProgrammed : Operation.IsProgrammed pushBelow := by
  intro t
  refine ⟨.push (.ofResult (.int 1) t.position) fun pushed => .done (pushed.map fun _ => .int 2),
    fun s => ?_⟩
  rw [pushBelow, ExceptT.run_bind, StateT.run_bind, StackProgram.run]
  rcases (push (.ofResult (.int 1) t.position)).run.run s with ⟨e | _, s'⟩ <;> rfl

/-- A bracket behind a name, a function that leaves more than its result, and 1001 literals. -/
theorem withinBounds_attained :
    let operators := Context.default.operators
    let c := (Converter.start.accept operators (some ⟨.identifier, "max", 0⟩)).accept operators
      (some ⟨.openParen, "(", 3⟩)
    let close : Option Token := some ⟨.closeParen, ")", 4⟩
    let ctx := ((Entry.function "two" pushBelow).install .default).context
    let stack := ((executeToken ctx ⟨.identifier, "Two", 0⟩).run.run []).2
    let s := Token.render (List.replicate 1001 ⟨.integer, "1", 0⟩)
    (c.Reachable operators ∧ c.hungry = true ∧ c.waiting.length = 2 ∧
      c.Midway operators close ⟨.waiting [], []⟩ ∧ c.waiting.length ≤ 1000) ∧
    (ctx.IsProgrammed ∧ ReachableStack ctx stack ∧ stack.length = 2 ∧ stack.length ≤ 1000) ∧
    eval .default s = .error (.capacityExceeded .operandStack) ∧
    ∃ t full, ComesTo .default s full t ∧ full.length = 1000 ∧ ReachableStack .default full ∧
      ((executeToken .default t).run.run full).1 = .error (.capacityExceeded .operandStack) := by
  intro operators c close ctx stack s
  obtain ⟨hconverter, -, hexecutor, -, hfull, heval⟩ := withinBounds
  have hc : c.Reachable operators := (Converter.Reachable.start.accept _ rfl).accept _ rfl
  have hctx : ctx.IsProgrammed := by
    intro apply h
    rcases has_install h with h | rfl
    · exact default_isProgrammed apply h
    · exact pushBelow_isProgrammed
  have hstack : ReachableStack ctx stack := .step _ .start
  have hone : Token.StandsAlone ⟨.integer, "1", 0⟩ :=
    standsAlone_of_mem_tokenize (s := "1") (by decide +kernel) (by decide) (by decide)
  have hs : eval .default s = .error (.capacityExceeded .operandStack) :=
    eval_render_replicate rfl hone (by decide)
  obtain ⟨t, full, hcomes, hlit, hlength⟩ := heval s hs
  have hread := ofLiteral_of_mem_tokenize hcomes.mem.1 hlit
  refine ⟨⟨hc, rfl, rfl, ⟨List.nil_suffix, List.nil_prefix⟩, (hconverter operators c hc).1⟩,
    ⟨hctx, hstack, by decide +kernel, (hexecutor ctx hctx stack hstack).1⟩, hs,
    t, full, hcomes, hlength, hcomes.reachableStack, ?_⟩
  exact (hfull full hcomes.reachableStack t).2 ⟨hlit, hread, hlength⟩

end Formula
