import Formula.Builtin
import Formula.Proofs.Postfix.Failure

/-!
# What a context applies

* `Entry.apply`: what an entry does.
* `has_install`, `has_installAll`: an operation of a context was there before or has been set.
* `of_has_default`: the default context has those built in and no others.
-/

namespace Formula

/-- What the operator or function of an entry does. -/
def Entry.apply : Entry → Operation
  | operator _ spec => spec.apply
  | function _ apply => apply

section Has

variable {ctx : Context} {apply : Operation}

theorem has_of_put_operator {operators : Operators} {key : String} {spec : Operator}
    (hput : ctx.operators.put? key spec = some operators)
    (h : Context.Has { ctx with operators := operators } apply) :
    ctx.Has apply ∨ apply = spec.apply := by
  rcases h with ⟨symbol, found, hfind, rfl⟩ | hfunction
  · simp only [Context.operator?, Operators.find?] at hfind
    split at hfind
    · next key' hkey =>
      rw [Table.get?_put? hput] at hfind
      split at hfind
      · cases hfind
        exact .inr rfl
      · refine .inl (.inl ⟨symbol, found, ?_, rfl⟩)
        rw [Context.operator?, Operators.find?, hkey]
        exact hfind
    · cases hfind
  · exact .inl (.inr hfunction)

theorem has_of_put_function {functions : Functions} {key : String} {spec : Callable}
    (hput : ctx.functions.put? key spec = some functions)
    (h : Context.Has { ctx with functions := functions } apply) :
    ctx.Has apply ∨ apply = spec.apply := by
  rcases h with hoperator | ⟨name, found, hfind, rfl⟩
  · exact .inl (.inl hoperator)
  · simp only [Context.function?, Functions.find?] at hfind
    split at hfind
    · next key' hkey =>
      rw [Table.get?_put? hput] at hfind
      split at hfind
      · cases hfind
        exact .inr rfl
      · refine .inl (.inr ⟨name, found, ?_, rfl⟩)
        rw [Context.function?, Functions.find?, hkey]
        exact hfind
    · cases hfind

/-- Setting an entry adds at most what it does. -/
theorem has_install {e : Entry} (h : (e.install ctx).context.Has apply) :
    ctx.Has apply ∨ apply = e.apply := by
  cases e with
  | operator symbol spec =>
    simp only [Entry.install, Context.setOperator] at h
    split at h
    · exact .inl h
    · split at h
      · exact .inl h
      · next hput => exact has_of_put_operator hput h
  | function name f =>
    simp only [Entry.install, Context.setFunction] at h
    split at h
    · exact .inl h
    · split at h
      · exact .inl h
      · next hput => exact has_of_put_function hput h

theorem has_installAll {es : List Entry} (h : (installAll es ctx).context.Has apply) :
    ctx.Has apply ∨ ∃ e ∈ es, apply = e.apply := by
  induction es generalizing ctx with
  | nil => exact .inl h
  | cons e es ih =>
    have hfirst : (e.install ctx).context.Has apply →
        ctx.Has apply ∨ ∃ e' ∈ e :: es, apply = e'.apply := fun h =>
      (has_install h).imp id fun he => ⟨e, List.mem_cons_self, he⟩
    rw [installAll, Installation.andThen] at h
    split at h
    · exact hfirst h
    · rcases ih h with h | ⟨e', he', rfl⟩
      · exact hfirst h
      · exact .inr ⟨e', List.mem_cons_of_mem e he', rfl⟩

theorem not_has_empty (apply : Operation) : ¬ Context.empty.Has apply := by
  rintro (⟨symbol, spec, hfind, -⟩ | ⟨name, spec, hfind, -⟩)
  · simp only [Context.operator?, Operators.find?] at hfind
    split at hfind <;> cases hfind
  · simp only [Context.function?, Functions.find?] at hfind
    split at hfind <;> cases hfind

/-- The default context applies nothing but what is built in. -/
theorem of_has_default (h : Context.default.Has apply) :
    (∃ b : BinaryBuiltin, apply = b.operation) ∨ apply = negation := by
  rcases has_installAll h with h | ⟨e, he, rfl⟩
  · exact absurd h (not_has_empty apply)
  · rw [builtins, List.mem_append, List.mem_map] at he
    rcases he with ⟨⟨symbol, precedence, b⟩, -, rfl⟩ | he
    · exact .inl ⟨b, rfl⟩
    · simp only [List.mem_cons, List.not_mem_nil, or_false] at he
      rcases he with rfl | rfl | rfl
      · exact .inr rfl
      · exact .inl ⟨.max, rfl⟩
      · exact .inl ⟨.min, rfl⟩

end Has

end Formula
