import Formula.Proofs.Postfix.Simulation

/-!
# Positions do not matter

Positions are copied from tokens into operands and errors, but nothing is decided by them. If those
of the tokens are changed, conversion and execution do what they did before, and the positions in
what comes out are changed alike.

* `Token.relabel`, `Operand.relabel`, `EvalError.relabel`: with changed positions.
* `relabelOutcome`: the same for what may have failed; `relabelOutcome_bind` is the case of two
  computations in a row.
* `relabeling`: two runs correspond if the second one has the changed positions.
* `Operation.PositionFree`, `Context.PositionFree`: what is applied does not compute with positions.
* `convertItems_relabel`, `convertTokens_relabel`: a conversion.
* `valueOfItems_relabel`: the value is the same, or the error is up to its position.
-/

namespace Formula

/-! ## Changed positions -/

/-- The same token at another position. -/
def Token.relabel (f : Nat → Nat) (t : Token) : Token := { t with position := f t.position }

@[simp] theorem Token.relabel_kind (f : Nat → Nat) (t : Token) : (t.relabel f).kind = t.kind := rfl

@[simp] theorem Token.relabel_text (f : Nat → Nat) (t : Token) : (t.relabel f).text = t.text := rfl

@[simp] theorem Token.relabel_position (f : Nat → Nat) (t : Token) :
    (t.relabel f).position = f t.position := rfl

/-- The same operand from another position. -/
def Operand.relabel (f : Nat → Nat) (x : Operand) : Operand := { x with position := f x.position }

@[simp] theorem Operand.relabel_value (f : Nat → Nat) (x : Operand) :
    (x.relabel f).value = x.value := rfl

/-- The same error at another position, if it has one. -/
def EvalError.relabel (f : Nat → Nat) : EvalError → EvalError
  | syntaxError p problem => syntaxError (f p) problem
  | unmatchedParenthesis p found => unmatchedParenthesis (f p) found
  | typeError operand p requirement => typeError operand (f p) requirement
  | unknownFunction name p => unknownFunction name (f p)
  | malformedExpression p? misfit => malformedExpression (p?.map f) misfit
  | divideByZero p => divideByZero (f p)
  | capacityExceeded container => capacityExceeded container
  | nameTooLong => nameTooLong
  | other text => other text

theorem EvalError.position?_relabel (f : Nat → Nat) (e : EvalError) :
    (e.relabel f).position? = e.position?.map f := by
  cases e <;> rfl

/-- What may have failed, with its positions changed: those of a result by `g`. -/
def relabelOutcome {α : Type} (f : Nat → Nat) (g : α → α) : Except EvalError α → Except EvalError α
  | .ok a => .ok (g a)
  | .error e => .error (e.relabel f)

/-- Two computations in a row go as before if both do. -/
theorem relabelOutcome_bind {α β : Type} {f : Nat → Nat} {g : α → α} {h : β → β}
    {x x' : Except EvalError α} {k k' : α → Except EvalError β} (hx : x' = relabelOutcome f g x)
    (hk : ∀ a, k' (g a) = relabelOutcome f h (k a)) :
    x' >>= k' = relabelOutcome f h (x >>= k) := by
  rw [hx]
  cases x with
  | error e => rfl
  | ok a => exact hk a

/-! ## Changed positions as a correspondence -/

/-- Tokens, operands and errors correspond to the same ones with changed positions. -/
def relabeling (f : Nat → Nat) : Correspondence where
  token t t' := t' = t.relabel f
  operand x x' := x' = x.relabel f
  error e e' := e' = e.relabel f

theorem forall₂_graph_iff {α β : Type} {g : α → β} {l : List α} {l' : List β} :
    List.Forall₂ (fun a b => b = g a) l l' ↔ l' = l.map g := by
  constructor
  · intro h
    induction h with
    | nil => rfl
    | cons hab _ ih => rw [List.map_cons, hab, ih]
  · rintro rfl
    rw [List.forall₂_map_right_iff, List.forall₂_same]
    exact fun _ _ => rfl

section Graph

variable {α : Type} {f : Nat → Nat} {g : α → α} {x x' : Except EvalError α}

theorem corresponds_graph_iff :
    Corresponds (relabeling f).error (fun a b => b = g a) x x' ↔ x' = relabelOutcome f g x := by
  constructor
  · rintro (⟨rfl⟩ | ⟨rfl⟩) <;> rfl
  · rintro rfl
    cases x with
    | ok a => exact .ok rfl
    | error e => exact .error rfl

theorem corresponds_eq_iff :
    Corresponds (relabeling f).error Eq x x' ↔ x' = relabelOutcome f id x := by
  rw [← corresponds_graph_iff]
  constructor <;> rintro (hab | he)
  · exact .ok hab.symm
  · exact .error he
  · exact .ok hab.symm
  · exact .error he

end Graph

theorem relabeling_converts (f : Nat → Nat) : (relabeling f).Converts where
  kind := by
    rintro t _ rfl
    rfl
  symbol := by
    rintro t _ rfl -
    rfl
  undefinedOperator := by
    rintro t _ rfl -
    rfl
  unpaired := by
    rintro t _ rfl -
    rfl
  illegal := by
    rintro t _ rfl -
    rfl
  full _ := rfl

section Conversion

variable (f : Nat → Nat) (operators : Operators) (input : List Token)

theorem convertItems_relabel :
    convertItems operators (input.map (Token.relabel f))
      = (convertItems operators input).map (relabelOutcome f (Token.relabel f)) := by
  refine forall₂_graph_iff.1 (List.Forall₂.imp (fun _ _ => corresponds_graph_iff.1) ?_)
  exact convertItems_corresponds (relabeling_converts f) (forall₂_graph_iff.2 rfl)

theorem convertTokens_relabel :
    convertTokens operators (input.map (Token.relabel f))
      = relabelOutcome f (List.map (Token.relabel f)) (convertTokens operators input) := by
  refine corresponds_graph_iff.1 (Corresponds.imp (fun _ _ => forall₂_graph_iff.1) ?_)
  exact convertTokens_corresponds (relabeling_converts f) (forall₂_graph_iff.2 rfl)

end Conversion

/-! ## Operations that do not compute with positions -/

/-- Where positions are changed, an operation gives the same value and leaves the same stack up to
its positions, or it fails with the same error up to its position. -/
def Operation.PositionFree (apply : Operation) : Prop :=
  ∀ (f : Nat → Nat) (t : Token) (stack : OperandStack),
    (apply (t.relabel f)).run.run (stack.map (Operand.relabel f))
      = (relabelOutcome f id ((apply t).run.run stack).1,
          ((apply t).run.run stack).2.map (Operand.relabel f))

/-- No operator and no function of a context computes with positions. -/
def Context.PositionFree (ctx : Context) : Prop := ∀ apply, ctx.Has apply → apply.PositionFree

/-! ## Execution -/

section Execution

variable (f : Nat → Nat)

theorem ofLiteral_relabel (t : Token) :
    Operand.ofLiteral (t.relabel f)
      = relabelOutcome f (Operand.relabel f) (Operand.ofLiteral t) := by
  unfold Operand.ofLiteral
  rw [Token.relabel_kind, Token.relabel_text]
  cases t.kind with
  | integer => cases readInt64? t.text.toList <;> rfl
  | float => cases readFloat? t.text.toList <;> rfl
  | _ => rfl

theorem ofResult_relabel (v : Value) (position : Nat) :
    Operand.ofResult v (f position) = (Operand.ofResult v position).relabel f := by
  cases v <;> rfl

/-- What conversion and execution do with positions is to copy them. -/
theorem relabeling_executes (f : Nat → Nat) {ctx : Context} (h : ctx.PositionFree) :
    (relabeling f).Executes ctx where
  toConverts := relabeling_converts f
  literal := by
    rintro t _ rfl -
    exact corresponds_graph_iff.2 (ofLiteral_relabel f t)
  result := by
    rintro t _ v rfl
    exact ofResult_relabel f v t.position
  value := by
    rintro x _ rfl
    rfl
  function := by
    rintro t _ rfl -
    rfl
  apply := by
    rintro apply t _ s s' hf rfl hs
    obtain rfl := forall₂_graph_iff.1 hs
    rw [h apply hf.has f t s]
    exact ⟨corresponds_eq_iff.2 rfl, forall₂_graph_iff.2 rfl⟩
  tooFewOperands := by
    rintro t _ needed found rfl -
    rfl
  unknownFunction := by
    rintro t _ rfl -
    rfl
  structural := by
    rintro t _ rfl -
    rfl
  notOneResult _ := rfl

theorem valueOfItems_relabel {ctx : Context} (h : ctx.PositionFree) (items : List Item) :
    valueOfItems ctx (items.map (relabelOutcome f (Token.relabel f)))
      = relabelOutcome f id (valueOfItems ctx items) := by
  refine corresponds_eq_iff.1 (valueOfItems_corresponds (relabeling_executes f h) ?_)
  exact (forall₂_graph_iff.2 rfl).imp fun _ _ => corresponds_graph_iff.2

theorem valueOfTokens_relabel {ctx : Context} (h : ctx.PositionFree) (ts : List Token) :
    valueOfTokens ctx (ts.map (Token.relabel f)) = relabelOutcome f id (valueOfTokens ctx ts) := by
  rw [valueOfTokens, valueOfTokens, ← valueOfItems_relabel f h, List.map_map, List.map_map]
  rfl

end Execution

end Formula
