import Formula.Proofs.Postfix.Simulation
import Formula.Proofs.Token.Recased

/-!
# Letters of names do not matter

Functions are found whatever the case of the letters in their names, and nothing else of a name is
looked at. If these letters are changed, conversion and execution do what they did before, and only
errors that quote a name quote the other letters.

* `EvalError.Recased e e'`: errors that are equal up to the letters of the name they quote.
* `Operation.CaseFree`, `Context.CaseFree`: functions that do not look at these letters either.
* `function?_of_sameLetters`: names in other letters are those of the same functions.
* `recasing`: two runs correspond if the second one has names in other letters; `recasing_executes`
  says that conversion and execution respect this.
-/

namespace Formula

/-! ## Errors -/

/-- Errors that are equal up to the letters of the name they quote. -/
inductive EvalError.Recased : EvalError → EvalError → Prop
  | same (e : EvalError) : Recased e e
  | unknownFunction {name name' : String} (position : Nat) :
      Text.SameLetters name.toList name'.toList →
      Recased (.unknownFunction name position) (.unknownFunction name' position)
  | missingArgument {name name' : String} (position? : Option Nat) :
      Text.SameLetters name.toList name'.toList →
      Recased (.malformedExpression position? (.missingArgument name))
        (.malformedExpression position? (.missingArgument name'))

namespace EvalError.Recased

variable {e e' : EvalError}

theorem position?_eq (h : e.Recased e') : e'.position? = e.position? := by
  cases h with
  | same | unknownFunction | missingArgument => rfl

theorem sameLetters_message (h : e.Recased e') :
    Text.SameLetters e.message.toList e'.message.toList := by
  have hsame (text : String) := Text.SameLetters.refl text.toList
  cases h with
  | same => exact hsame _
  | unknownFunction p hname =>
    exact Text.SameLetters.append (Text.SameLetters.append (Text.SameLetters.append (hsame _) hname)
      (hsame _)) (hsame _)
  | @missingArgument name name' position? hname =>
    have hmisfit : Text.SameLetters (Misfit.missingArgument name).message.toList
        (Misfit.missingArgument name').message.toList :=
      Text.SameLetters.append (Text.SameLetters.append (hsame _) hname) (hsame _)
    cases position? with
    | none => exact Text.SameLetters.append (hsame _) hmisfit
    | some p => exact Text.SameLetters.append (hsame _) hmisfit

end EvalError.Recased

theorem corresponds_recased_refl {α : Type} (x : Except EvalError α) :
    Corresponds EvalError.Recased Eq x x := by
  cases x with
  | ok a => exact .ok rfl
  | error e => exact .error (.same e)

/-! ## Functions -/

theorem Text.lower_toLower (c : Char) : Text.lower c.toLower = Text.lower c := by
  rcases Nat.lt_or_ge c.toNat 128 with hlt | hle
  · obtain ⟨hascii, hfixed⟩ :=
      of_ascii_check (P := fun c => c.toLower.toNat < 128 ∧ c.toLower.toLower = c.toLower)
        (by decide +kernel) hlt
    rw [lower_of_ascii hlt, lower_of_ascii hascii, hfixed]
  · rw [toLower_of_le hle]

theorem Text.lowercase_of_sameLetters {cs cs' : List Char} (h : SameLetters cs cs') :
    lowercase cs' = lowercase cs := by
  have hlower (cs : List Char) : lowercase (cs.map Char.toLower) = lowercase cs := by
    simp only [lowercase, List.flatMap_map, lower_toLower]
  rw [← hlower cs', h, hlower]

/-- Names in other letters are those of the same functions. -/
theorem function?_of_sameLetters (ctx : Context) {name name' : String}
    (h : Text.SameLetters name.toList name'.toList) : ctx.function? name' = ctx.function? name := by
  have hkey : functionKey name' = functionKey name := by
    rw [functionKey, functionKey, Text.lowercase_of_sameLetters h]
  rw [Context.function?, Context.function?, Functions.find?, Functions.find?, hkey]

/-- A function that is called by a name in other letters gives the same value and leaves the same
stack, or it fails with the same error up to these letters. -/
def Operation.CaseFree (apply : Operation) : Prop :=
  ∀ (t t' : Token) (stack : OperandStack), t.kind = .identifier → t.Recased t' →
    Corresponds EvalError.Recased Eq ((apply t).run.run stack).1 ((apply t').run.run stack).1 ∧
      ((apply t').run.run stack).2 = ((apply t).run.run stack).2

/-- A function that does not look at the text of its token is one. -/
theorem Operation.caseFree_of_text {apply : Operation}
    (h : ∀ (t : Token) (text : String), apply { t with text := text } = apply t) :
    apply.CaseFree := by
  intro t t' stack _ ht
  have hsame : apply t' = apply t := by
    rw [← h t t'.text, ← ht.kind_eq, ← ht.position_eq]
  rw [hsame]
  exact ⟨corresponds_recased_refl _, rfl⟩

/-- No function of a context looks at the letters of its name. -/
def Context.CaseFree (ctx : Context) : Prop :=
  ∀ name spec, ctx.function? name = some spec → spec.apply.CaseFree

/-! ## Letters of names as a correspondence -/

/-- Tokens correspond to the same ones with names in other letters, and so do errors. -/
def recasing : Correspondence where
  token := Token.Recased
  operand := Eq
  error := EvalError.Recased

theorem recasing_same {t t' : Token} (h : recasing.token t t') (hk : t.kind ≠ .identifier)
    (e : Token → EvalError) : recasing.error (e t) (e t') := by
  rw [Token.Recased.eq h hk]
  exact .same _

theorem recasing_converts : recasing.Converts where
  kind h := h.kind_eq
  symbol h hk := h.text_eq (by simp [hk])
  undefinedOperator h hk := recasing_same h (by simp [hk]) undefinedOperator
  unpaired h hk := recasing_same h hk unpaired
  illegal h hk := recasing_same h (by simp [hk]) illegalToken
  full c := .same _

theorem recasing_executes {ctx : Context} (hctx : ctx.CaseFree) : recasing.Executes ctx where
  toConverts := recasing_converts
  literal {t t'} h hlit := by
    have hk : t.kind ≠ .identifier := by
      intro hk
      simp [Token.isLiteral, hk] at hlit
    rw [Token.Recased.eq h hk]
    exact corresponds_recased_refl _
  result v h := congrArg (Operand.ofResult v) h.position_eq.symm
  value := by
    rintro x _ rfl
    rfl
  function h _ := function?_of_sameLetters ctx h.sameLetters
  apply {f t t' s s'} hf h hs := by
    -- Operands do not know of names, so the stacks are equal.
    obtain rfl : s = s' := List.forall₂_eq_eq_eq ▸ (hs : List.Forall₂ Eq s s')
    cases hf with
    | operator hk _ =>
      rw [Token.Recased.eq h (by simp [hk])]
      exact ⟨corresponds_recased_refl _, List.forall₂_same.2 fun _ _ => rfl⟩
    | function hk hfind =>
      obtain ⟨hvalue, hstack⟩ := hctx _ _ hfind t t' s hk h
      rw [hstack]
      exact ⟨hvalue, List.forall₂_same.2 fun _ _ => rfl⟩
  tooFewOperands {t t'} needed found h hk :=
    recasing_same h (by simp [hk]) fun t =>
      .malformedExpression (some t.position) (.tooFewOperands t.text needed found)
  unknownFunction {t t'} h _ := by
    rw [h.position_eq]
    exact .unknownFunction _ h.sameLetters
  structural h hk := recasing_same h hk fun t => .syntaxError t.position (.structural t.text)
  notOneResult found := .same _

end Formula
