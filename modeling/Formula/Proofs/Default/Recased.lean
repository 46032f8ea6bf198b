import Formula.Proofs.Postfix.Recased
import Formula.Proofs.Registry.Operations

/-!
# Letters of names do not matter to what is built in

* `operation_caseFree`, `negation_caseFree`: only the error for a missing argument depends on the
  letters of the name that is called.
* `default_caseFree`: the default context calls nothing else.
* `eval_recased`: tokens, conversion and evaluation of a text whose names are in other letters.
-/

namespace Formula

theorem missingOperand_recased {t t' : Token} (hk : t.kind = .identifier) (h : t.Recased t') :
    (missingOperand t).Recased (missingOperand t') := by
  unfold missingOperand
  rw [h.kind_eq, h.position_eq, if_pos hk, if_pos hk]
  exact .missingArgument _ h.sameLetters

theorem BinaryBuiltin.operation_caseFree (b : BinaryBuiltin) : Operation.CaseFree b.operation := by
  intro t t' stack hk h
  match stack with
  | [] => exact ⟨.error (missingOperand_recased hk h), rfl⟩
  | [x] => exact ⟨.error (missingOperand_recased hk h), rfl⟩
  | right :: left :: below =>
    rw [run_operation, run_operation, h.position_eq]
    exact ⟨corresponds_recased_refl _, rfl⟩

theorem negation_caseFree : Operation.CaseFree negation := by
  intro t t' stack hk h
  cases stack with
  | nil => exact ⟨.error (missingOperand_recased hk h), rfl⟩
  | cons x below =>
    rw [run_negation, run_negation]
    exact ⟨corresponds_recased_refl _, rfl⟩

theorem default_caseFree : Context.default.CaseFree := by
  intro name spec hfind
  rcases of_has_default (.inr ⟨name, spec, hfind, rfl⟩) with ⟨b, hb⟩ | hb
  · rw [hb]
    exact b.operation_caseFree
  · rw [hb]
    exact negation_caseFree

/-- **Names are called in any letters.** A function that does not look at the text of its token does
not look at the letters of its name, and neither does what is built in. In any context of which this
holds, two source texts that differ only in the letters of names have the same tokens up to these
letters, the same postfix form and the same value, or the same error at the same place, whose
message is equal up to the letters of the name that it quotes. -/
theorem eval_recased :
    (∀ apply : Operation, (∀ (t : Token) (text : String), apply { t with text := text } = apply t) →
      apply.CaseFree) ∧
    Context.default.CaseFree ∧
    ∀ ctx : Context, ctx.CaseFree → ∀ s s' : String, RecasedNames s s' →
      List.Forall₂ Token.Recased (tokenize s) (tokenize s') ∧
      Corresponds EvalError.Recased (List.Forall₂ Token.Recased) (convertExpression ctx s)
        (convertExpression ctx s') ∧
      Corresponds EvalError.Recased Eq (eval ctx s) (eval ctx s') ∧
      ∀ e, eval ctx s = .error e → ∃ e', eval ctx s' = .error e' ∧ e'.position? = e.position? ∧
        Text.SameLetters e.message.toList e'.message.toList := by
  refine ⟨fun apply => Operation.caseFree_of_text, default_caseFree, fun ctx hctx s s' h => ?_⟩
  have htokens := tokenize_recased h
  have hvalue : Corresponds EvalError.Recased Eq (eval ctx s) (eval ctx s') := by
    rw [eval_eq_valueOfItems, eval_eq_valueOfItems]
    exact valueOfConverted_corresponds (recasing_executes hctx) htokens
  refine ⟨htokens, convertTokens_corresponds recasing_converts htokens, hvalue, fun e he => ?_⟩
  rw [he] at hvalue
  generalize eval ctx s' = outcome at hvalue
  cases hvalue with
  | error hrecased =>
    exact ⟨_, rfl, hrecased.position?_eq, hrecased.sameLetters_message⟩

/-- A name that is not known is quoted as it is written; the number in front of it has no name. -/
theorem eval_recased_unknown :
    let s := "2e1 * Ex(3)"
    let s' := "2e1 * eX(3)"
    Context.default.CaseFree ∧ RecasedNames s s' ∧
      eval .default s = .error (.unknownFunction "Ex" 6) ∧
      ∃ name, Text.SameLetters "Ex".toList name.toList ∧
        eval .default s' = .error (.unknownFunction name 6) := by
  intro s s'
  have hnames : RecasedNames s s' := by decide +kernel
  have hs : eval .default s = .error (.unknownFunction "Ex" 6) := by decide +kernel
  obtain ⟨-, -, hvalue, -⟩ := eval_recased.2.2 .default default_caseFree s s' hnames
  refine ⟨default_caseFree, hnames, hs, ?_⟩
  rw [hs] at hvalue
  generalize eval .default s' = outcome at hvalue
  cases hvalue with
  | error he =>
    cases he with
    | same => exact ⟨"Ex", rfl, rfl⟩
    | unknownFunction _ hname => exact ⟨_, hname, rfl⟩

end Formula
