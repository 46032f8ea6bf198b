import Formula.Proofs.Postfix.Relabel
import Formula.Proofs.Registry.Operations
import Formula.Proofs.Token.Positions

/-!
# Positions do not matter to what is built in

* `combine_relabel`, `negate_relabel`: built-in results do not depend on the positions of operands.
* `operation_positionFree`, `negation_positionFree`: neither do the operations.
* `default_positionFree`: the default context has no others.
* `exists_relabel`: tokens that differ in their positions only are relabelled into each other.
* `eval_relabel`: conversion and evaluation of tokens, and of texts, with changed positions.
-/

namespace Formula

/-! ## Built-in operations -/

section Operands

variable (f : Nat → Nat) (left right x : Operand)

theorem expectInteger_relabel :
    (x.relabel f).expectInteger = relabelOutcome f id x.expectInteger := by
  unfold Operand.expectInteger
  rw [Operand.relabel_value]
  cases x.value.int? <;> rfl

theorem expectNumber_relabel :
    (x.relabel f).expectNumber = relabelOutcome f id x.expectNumber := by
  unfold Operand.expectNumber
  rw [Operand.relabel_value]
  cases x.value.float? <;> rfl

theorem numberPair_relabel :
    numberPair (left.relabel f) (right.relabel f)
      = relabelOutcome f id (numberPair left right) := by
  refine relabelOutcome_bind (expectNumber_relabel f right) fun r => ?_
  refine relabelOutcome_bind (expectNumber_relabel f left) fun l => ?_
  simp only [Operand.relabel_value, id_eq]
  cases left.value.int? <;> cases right.value.int? <;> rfl

theorem integerPair_relabel :
    integerPair (left.relabel f) (right.relabel f)
      = relabelOutcome f id (integerPair left right) :=
  relabelOutcome_bind (expectInteger_relabel f right) fun _ =>
    relabelOutcome_bind (expectInteger_relabel f left) fun _ => rfl

theorem shiftPair_relabel :
    shiftPair (left.relabel f) (right.relabel f)
      = relabelOutcome f id (shiftPair left right) := by
  refine relabelOutcome_bind (integerPair_relabel f left right) fun (n, count) => ?_
  show (if count < 0 then .error _ else .ok (n, count))
    = relabelOutcome f id (if count < 0 then .error _ else .ok (n, count))
  split <;> rfl

theorem negate_relabel : negate (x.relabel f) = relabelOutcome f id (negate x) :=
  relabelOutcome_bind (expectInteger_relabel f x) fun _ => rfl

namespace BinaryBuiltin

theorem arithmetic_relabel (onInts : Int64 → Int64 → Int64) (onFloats : Float → Float → Float) :
    arithmetic onInts onFloats (left.relabel f) (right.relabel f)
      = relabelOutcome f id (arithmetic onInts onFloats left right) := by
  refine relabelOutcome_bind (numberPair_relabel f left right) fun pair => ?_
  cases pair <;> rfl

theorem onIntegers_relabel (g : Int64 → Int64 → Int64) :
    onIntegers g (left.relabel f) (right.relabel f)
      = relabelOutcome f id (onIntegers g left right) :=
  relabelOutcome_bind (integerPair_relabel f left right) fun _ => rfl

theorem comparing_relabel (p : Int64 → Int64 → Bool) :
    comparing p (left.relabel f) (right.relabel f)
      = relabelOutcome f id (comparing p left right) :=
  relabelOutcome_bind (integerPair_relabel f left right) fun _ => rfl

theorem shift_relabel (g : Int64 → Int64 → Int64) :
    shift g (left.relabel f) (right.relabel f) = relabelOutcome f id (shift g left right) :=
  relabelOutcome_bind (shiftPair_relabel f left right) fun _ => rfl

theorem divide_relabel (position : Nat) :
    divide (f position) (left.relabel f) (right.relabel f)
      = relabelOutcome f id (divide position left right) := by
  refine relabelOutcome_bind (numberPair_relabel f left right) fun pair => ?_
  cases pair with
  | ints l r =>
    show (if r = 0 then .error _ else .ok (Value.int (l / r)))
      = relabelOutcome f id (if r = 0 then .error _ else .ok (Value.int (l / r)))
    split <;> rfl
  | floats l r => rfl

theorem remainder_relabel (position : Nat) :
    remainder (f position) (left.relabel f) (right.relabel f)
      = relabelOutcome f id (remainder position left right) := by
  refine relabelOutcome_bind (integerPair_relabel f left right) fun (l, r) => ?_
  show (if r = 0 then .error _ else .ok (Value.int (l % r)))
    = relabelOutcome f id (if r = 0 then .error _ else .ok (Value.int (l % r)))
  split <;> rfl

/-- Equality compares texts, and all others compare or compute with values. -/
theorem combine_relabel (b : BinaryBuiltin) (position : Nat) :
    b.combine (f position) (left.relabel f) (right.relabel f)
      = relabelOutcome f id (b.combine position left right) := by
  unfold combine
  cases b with
  | add | sub | mul => exact arithmetic_relabel f left right _ _
  | div => exact divide_relabel f left right position
  | rem => exact remainder_relabel f left right position
  | bitAnd | bitOr | bitXor | max | min => exact onIntegers_relabel f left right _
  | shiftLeft | shiftRight => exact shift_relabel f left right _
  | logicalAnd | logicalOr | less | greater | lessEqual | greaterEqual =>
    exact comparing_relabel f left right _
  | equal | notEqual => rfl

theorem operation_positionFree (b : BinaryBuiltin) : Operation.PositionFree b.operation := by
  intro f t stack
  match stack with
  | [] => rfl
  | [x] => rfl
  | right :: left :: below =>
    rw [run_operation, List.map_cons, List.map_cons, run_operation]
    exact congrArg (·, below.map (Operand.relabel f)) (b.combine_relabel f left right t.position)

end BinaryBuiltin

end Operands

theorem negation_positionFree : Operation.PositionFree negation := by
  intro f t stack
  cases stack with
  | nil => rfl
  | cons x below =>
    rw [run_negation, List.map_cons, run_negation]
    exact congrArg (·, below.map (Operand.relabel f)) (negate_relabel f x)

theorem default_positionFree : Context.default.PositionFree := by
  intro apply h
  rcases of_has_default h with ⟨b, rfl⟩ | rfl
  · exact b.operation_positionFree
  · exact negation_positionFree

/-! ## Texts -/

/-- What a token says, wherever it stands. -/
def Token.content (t : Token) : TokenKind × String := (t.kind, t.text)

/-- Tokens at distinct positions are relabelled into any others that say the same. -/
theorem exists_relabel {ts us : List Token} (hts : (ts.map Token.position).Nodup)
    (h : ts.map Token.content = us.map Token.content) :
    ∃ f : Nat → Nat, us = ts.map (Token.relabel f) := by
  induction ts generalizing us with
  | nil => exact ⟨id, List.map_eq_nil_iff.1 h.symm⟩
  | cons t ts ih =>
    obtain ⟨u, us, rfl, hu, hus⟩ := List.map_eq_cons_iff.1 h.symm
    obtain ⟨hnew, hts⟩ := List.nodup_cons.1 hts
    obtain ⟨f, rfl⟩ := ih hts hus.symm
    refine ⟨Function.update f t.position u.position, List.cons_eq_cons.2 ⟨?_, ?_⟩⟩
    · obtain ⟨hkind, htext⟩ := Prod.mk.inj hu
      rw [Token.relabel, Function.update_self, ← hkind, ← htext]
    · refine List.map_congr_left fun v hv => ?_
      have hne : v.position ≠ t.position := fun heq => hnew (heq ▸ List.mem_map_of_mem hv)
      rw [Token.relabel, Token.relabel, Function.update_of_ne hne]

/-- **Positions do not influence results.** Nothing built in computes with positions. In any context
of which this holds, tokens whose positions are changed convert to the same items, with these
positions changed, and they have the same value, or the same error with its position, if it has one,
changed. So two source texts whose tokens say the same have the same value, or the same error at the
token that corresponds to that of the other text. -/
theorem eval_relabel :
    (∀ b : BinaryBuiltin, Operation.PositionFree b.operation) ∧ Operation.PositionFree negation ∧
    Context.default.PositionFree ∧
    (∀ (f : Nat → Nat) (e : EvalError), (e.relabel f).position? = e.position?.map f) ∧
    ∀ ctx : Context, ctx.PositionFree →
      (∀ (f : Nat → Nat) (ts : List Token),
        convertItems ctx.operators (ts.map (Token.relabel f))
          = (convertItems ctx.operators ts).map (relabelOutcome f (Token.relabel f)) ∧
        convertTokens ctx.operators (ts.map (Token.relabel f))
          = relabelOutcome f (List.map (Token.relabel f)) (convertTokens ctx.operators ts) ∧
        valueOfItems ctx (convertItems ctx.operators (ts.map (Token.relabel f)))
          = relabelOutcome f id (valueOfItems ctx (convertItems ctx.operators ts)) ∧
        valueOfTokens ctx (ts.map (Token.relabel f))
          = relabelOutcome f id (valueOfTokens ctx ts)) ∧
      ∀ s s' : String, (tokenize s).map Token.content = (tokenize s').map Token.content →
        ∃ f : Nat → Nat, tokenize s' = (tokenize s).map (Token.relabel f) ∧
          eval ctx s' = relabelOutcome f id (eval ctx s) := by
  refine ⟨BinaryBuiltin.operation_positionFree, negation_positionFree, default_positionFree,
    EvalError.position?_relabel, fun ctx hctx => ⟨fun f ts => ?_, fun s s' hsame => ?_⟩⟩
  · have hitems := convertItems_relabel f ctx.operators ts
    refine ⟨hitems, convertTokens_relabel f ctx.operators ts, ?_, valueOfTokens_relabel f hctx ts⟩
    rw [hitems, valueOfItems_relabel f hctx]
  · obtain ⟨f, hf⟩ := exists_relabel (nodup_position_tokenize s) hsame
    refine ⟨f, hf, ?_⟩
    rw [eval_eq_valueOfItems, eval_eq_valueOfItems, hf, convertItems_relabel,
      valueOfItems_relabel f hctx]

/-- Blanks and a comment change where an error is, and nothing else. -/
theorem eval_relabel_comment :
    let s := "1/0"
    let s' := " 1 /* by */ / 0"
    (tokenize s).map Token.content = (tokenize s').map Token.content ∧
      eval .default s = .error (.divideByZero 1) ∧
      ∃ f : Nat → Nat, tokenize s' = (tokenize s).map (Token.relabel f) ∧
        eval .default s' = .error (.divideByZero (f 1)) := by
  intro s s'
  have hsame : (tokenize s).map Token.content = (tokenize s').map Token.content := by decide +kernel
  have hs : eval .default s = .error (.divideByZero 1) := by decide +kernel
  obtain ⟨f, hf, hs'⟩ := (eval_relabel.2.2.2.2 .default default_positionFree).2 s s' hsame
  exact ⟨hsame, hs, f, hf, by rw [hs', hs]; rfl⟩

end Formula
