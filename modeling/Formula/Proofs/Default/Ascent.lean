import Formula.Proofs.Default.Blame
import Formula.Proofs.Postfix.Ascent

/-!
# Room for waiting tokens in the default context

* `default_isLayered`: the operators of the default context are layered, on three levels.
* `Token.isNegation`: the one operator that stands in front of its operand.
* `ne_tooManyWait_of_comesTo`: an evaluation lacks room for a token only if the conversion does.
* `waiting_ascends`: what waits in every reachable state, and when there is always room.
-/

namespace Formula

/-- A `!`. -/
def Token.isNegation (t : Token) : Bool := t.kind == .operator && t.text == "!"

theorem default_isLayered : Context.default.operators.IsLayered where
  leftAssociative symbol spec hfind harity := by
    have hall : ∀ entry ∈ Context.default.operators.entries, entry.2.arity ≠ 1 →
        entry.2.leftAssociative = true := by decide
    exact hall _ (Operators.mem_entries_of_find? hfind) harity
  precedence_lt symbol front symbol' between hfront hone hbetween hmore := by
    have hall : ∀ upper ∈ Context.default.operators.entries, upper.2.arity = 1 →
        ∀ lower ∈ Context.default.operators.entries, lower.2.arity ≠ 1 →
          lower.2.precedence < upper.2.precedence := by decide
    exact hall _ (Operators.mem_entries_of_find? hfront) hone _
      (Operators.mem_entries_of_find? hbetween) hmore

/-- Shifts, products and sums. -/
theorem card_levels_default : Context.default.operators.levels.card = 3 := by decide

theorem isFront_default (t : Token) : Context.default.operators.isFront t = t.isNegation := by
  rw [Bool.eq_iff_iff, Operators.isFront_iff, Token.isNegation, Bool.and_eq_true, beq_iff_eq,
    beq_iff_eq]
  refine and_congr_right fun _ => ⟨?_, fun h => ?_⟩
  · rintro ⟨spec, hfind, harity⟩
    have hall : ∀ entry ∈ Context.default.operators.entries, entry.2.arity = 1 →
        entry.1 = "!" := by decide
    exact hall _ (Operators.mem_entries_of_find? hfind) harity
  · rw [h]
    exact ⟨_, operator?_default_negation, rfl⟩

/-- Executing the tokens that an evaluation comes to is never told of a lack of room for those that
wait. -/
theorem ne_tooManyWait_of_comesTo {s : String} {stack : OperandStack} {t : Token} {e : EvalError}
    (hcomes : ComesTo .default s stack t) (h : executeTokens .default stack [t] = .error e) :
    e ≠ tooManyWait := by
  obtain ⟨ht, hk⟩ := hcomes.mem
  rcases hk with hlit | happ | hill
  · rw [failure_of_isLiteral ht hlit h]
    simp
  · rcases failure_of_isApplied happ h with
      rfl | hoffends | ⟨-, rfl⟩ | ⟨misfit, rfl⟩ | ⟨x, -, requirement, rfl⟩ | rfl
    · simp
    · cases hoffends <;> exact EvalError.noConfusion
    all_goals exact EvalError.noConfusion
  · rw [executeTokens_illegal hill] at h
    cases h
    exact EvalError.noConfusion

theorem length_le_default {stack : List Token}
    (h : Terraced Context.default.operators stack) :
    stack.length ≤ 4 * stack.countP Token.isBarrier + 3 + stack.countP Token.isNegation := by
  have hle := h.length_le
  rwa [card_levels_default, funext isFront_default] at hle

/-- Where fewer than 250 brackets and names ever wait, and no `!`, there is room for every token. -/
theorem convertExpression_ne_tooManyWait {s : String}
    (hneg : ∀ t ∈ tokenize s, t.isNegation = false)
    (hfew : ∀ n, (Conversion.waitingAfter Context.default.operators (tokenize s) n).countP
      Token.isBarrier ≤ 249) :
    convertExpression .default s ≠ .error tooManyWait := by
  intro h
  obtain ⟨n, hfull⟩ := exists_full_of_convertTokens h
  have hnone : (Conversion.waitingAfter Context.default.operators (tokenize s) n).countP
      Token.isNegation = 0 := by
    rw [List.countP_eq_zero]
    intro t ht
    have hmem := List.mem_reverse.1 ((sublist_waitingAfter _ _ n).subset ht)
    rw [hneg t (List.mem_of_mem_take hmem)]
    exact Bool.false_ne_true
  have hle := length_le_default
    (Conversion.terraced_waitingAfter default_isLayered (tokenize s) n)
  have hn := hfew n
  rw [waitingCapacity] at hfull
  omega

/-- **Operators that wait ascend.** In a table in which the operators between operands all group
from the left and bind less tightly than those in front of their operand, whatever has been read:
operators that wait in a row are, from the bottom to the top, operators between operands that bind
tighter and tighter, and then operators in front of their operand. This bounds what waits by the
brackets and names among it. In the default context, which has three precedences between operands,
an expression of any length without `!` finds room if never more than 249 brackets and names wait.
An operator stands between operands if it does not stand in front of one, whatever its arity. -/
theorem waiting_ascends :
    (∀ operators : Operators, operators.IsLayered → ∀ c : Converter, c.Reachable operators →
      (∀ run, run <:+: c.waiting → (∀ t ∈ run, t.kind = .operator) → operators.Ascends run) ∧
      c.waiting.length ≤ (operators.levels.card + 1) * c.waiting.countP Token.isBarrier
        + operators.levels.card + c.waiting.countP operators.isFront) ∧
    (Context.default.operators.IsLayered ∧ Context.default.operators.levels.card = 3) ∧
    (∀ c : Converter, c.Reachable Context.default.operators → c.waiting.length
      ≤ 4 * c.waiting.countP Token.isBarrier + 3 + c.waiting.countP Token.isNegation) ∧
    ∀ s, (∀ t ∈ tokenize s, t.isNegation = false) →
      (∀ n, (Conversion.waitingAfter Context.default.operators (tokenize s) n).countP
        Token.isBarrier ≤ 249) →
      convertExpression .default s ≠ .error (.capacityExceeded .operatorStack) ∧
        eval .default s ≠ .error (.capacityExceeded .operatorStack) := by
  refine ⟨fun operators hoperators c hc => ?_, ⟨default_isLayered, card_levels_default⟩,
    fun c hc => length_le_default (hc.terraced default_isLayered), fun s hneg hfew => ?_⟩
  · have hterraced := hc.terraced hoperators
    exact ⟨fun run hrun hk => hterraced.ascends hrun hk, hterraced.length_le⟩
  · have hconvert := convertExpression_ne_tooManyWait hneg hfew
    refine ⟨hconvert, fun heval => ?_⟩
    rcases exists_comesTo_of_eval heval with ⟨t, stack, hcomes, hrun⟩ | h | ⟨found, h⟩
    · exact ne_tooManyWait_of_comesTo hcomes hrun rfl
    · exact hconvert h
    · cases h

/-- Inside the brackets of `max(1+2*!3)` a sum, a product and a negation wait, and without the
negation there is room for all tokens. -/
theorem waiting_ascends_call :
    let operators := Context.default.operators
    let c := ((fun s => (Conversion.next operators s).2)^[3]
      (Conversion.start (tokenize "max(1+2*!3)"))).converter
    let s := "max(1+2*3, 4)"
    (c.Reachable operators ∧ c.waiting.map (·.text) = ["!", "*", "+", "(", "max"] ∧
      operators.Ascends (c.waiting.take 3) ∧ c.waiting.length ≤ 4 * 2 + 3 + 1) ∧
    eval .default s ≠ .error (.capacityExceeded .operatorStack) := by
  intro operators c s
  obtain ⟨hascends, ⟨hlayered, -⟩, hlength, hroom⟩ := waiting_ascends
  have hc : c.Reachable operators := Conversion.reachable_iterate operators _ 3
  have hfew : ∀ n, (Conversion.waitingAfter operators (tokenize s) n).countP Token.isBarrier
      ≤ 249 := fun n =>
    calc (Conversion.waitingAfter operators (tokenize s) n).countP Token.isBarrier
        ≤ ((tokenize s).take n).reverse.countP Token.isBarrier :=
          (sublist_waitingAfter operators (tokenize s) n).countP_le
      _ ≤ (tokenize s).countP Token.isBarrier := by
        rw [List.countP_reverse]
        exact (List.take_sublist n _).countP_le
      _ ≤ 249 := by decide +kernel
  refine ⟨⟨hc, by decide +kernel, ?_, ?_⟩, (hroom s (by decide +kernel) hfew).2⟩
  · exact (hascends operators hlayered c hc).1 _ (List.take_prefix 3 _).isInfix (by decide +kernel)
  · have hbarriers : c.waiting.countP Token.isBarrier = 2 := by decide +kernel
    have hnegations : c.waiting.countP Token.isNegation = 1 := by decide +kernel
    have hle := hlength c hc
    rwa [hbarriers, hnegations] at hle

end Formula
