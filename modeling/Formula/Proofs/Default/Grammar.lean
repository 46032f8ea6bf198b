import Formula.Builtin
import Formula.Proofs.Syntax.Grammar

/-!
# The grammar of the default context

* `BinaryBuiltin.ofSymbol?`, `BinaryBuiltin.ofName?`: the built-in operator of a symbol, and the
  built-in function of a name.
* `operator?_default_of_ofSymbol?`, `function?_default_of_ofName?`: the default context has them.
  `operator?_default_eq_none`, `function?_default_eq_none`: besides `!`, it has no others.
* `Grammar.builtin`: the sentences of the built-in operators and functions.
* `builtin_within`: they are expressions of the table of the default context.
-/

namespace Formula

namespace BinaryBuiltin

/-- The built-in operator of a symbol. -/
def ofSymbol? (symbol : String) : Option BinaryBuiltin :=
  (binaryBuiltins.lookup symbol).map Prod.snd

/-- The built-in function of a name, whatever the case of its letters. -/
def ofName? (name : String) : Option BinaryBuiltin :=
  [("max", max), ("min", min)].lookup (String.ofList (Text.lowercase name.toList))

end BinaryBuiltin

/-! ## Looking up -/

theorem entries_operators_default :
    Context.default.operators.entries
      = binaryBuiltins.map (fun (symbol, precedence, b) =>
          (symbol, .binary precedence b.operation))
        ++ [("!", .unary Precedence.prefixed negation)] := rfl

theorem entries_functions_default :
    Context.default.functions.entries
      = [("max", ⟨"max", BinaryBuiltin.max.operation⟩),
        ("min", ⟨"min", BinaryBuiltin.min.operation⟩)] := rfl

/-- A symbol of the default context is short enough to be found. -/
theorem operator?_default_of_mem {symbol : String} {spec : Operator}
    (h : (symbol, spec) ∈ Context.default.operators.entries) :
    Context.default.operator? symbol = some spec := by
  have hshort : ∀ s ∈ Context.default.operators.entries.map Prod.fst,
      Text.utf8Length s.toList ≤ maxSymbolLength := by decide
  have hkey : operatorKey symbol = .ok symbol := if_pos (hshort _ (List.mem_map_of_mem h))
  rw [Context.operator?, Operators.find?, hkey]
  exact (Table.get?_eq_some_iff _).2 h

/-- Between operands stand the built-in operators of two operands, each with its precedence, and all
of them group from the left. -/
theorem operator?_default_of_ofSymbol? {symbol : String} {b : BinaryBuiltin}
    (h : BinaryBuiltin.ofSymbol? symbol = some b) :
    ∃ p, (symbol, p, b) ∈ binaryBuiltins ∧
      Context.default.operator? symbol = some (.binary p b.operation) := by
  obtain ⟨⟨p, b'⟩, hl, hb⟩ := Option.map_eq_some_iff.1 h
  cases hb
  obtain ⟨before, behind, hlist, -⟩ := List.lookup_eq_some_iff.1 hl
  have hmem : (symbol, p, b') ∈ binaryBuiltins := by simp [hlist]
  refine ⟨p, hmem, operator?_default_of_mem ?_⟩
  rw [entries_operators_default, List.mem_append]
  exact .inl (List.mem_map.2 ⟨_, hmem, rfl⟩)

theorem operator?_default_negation :
    Context.default.operator? "!" = some (.unary Precedence.prefixed negation) := by
  refine operator?_default_of_mem ?_
  simp [entries_operators_default]

theorem operator?_default_eq_none {symbol : String} (hneg : symbol ≠ "!")
    (h : BinaryBuiltin.ofSymbol? symbol = none) : Context.default.operator? symbol = none := by
  rw [Option.eq_none_iff_forall_ne_some]
  intro spec hfind
  have hmem := Operators.mem_entries_of_find? hfind
  rw [entries_operators_default, List.mem_append, List.mem_map] at hmem
  rcases hmem with ⟨⟨s, p, b⟩, hmem, heq⟩ | hmem
  · obtain rfl : s = symbol := congrArg Prod.fst heq
    have hne := List.lookup_eq_none_iff.1 (Option.map_eq_none_iff.1 h) _ hmem
    simp at hne
  · rw [List.mem_singleton] at hmem
    exact hneg (congrArg Prod.fst hmem)

theorem functionKey_of_lowercase {name key : String}
    (h : String.ofList (Text.lowercase name.toList) = key)
    (hshort : Text.utf8Length key.toList ≤ maxNameLength) : functionKey name = .ok key := by
  subst h
  rw [String.toList_ofList] at hshort
  simp only [functionKey, if_pos hshort]

theorem function?_default_of_ofName? {name : String} {b : BinaryBuiltin}
    (h : BinaryBuiltin.ofName? name = some b) :
    ∃ key, Context.default.function? name = some ⟨key, b.operation⟩ := by
  obtain ⟨before, behind, hlist, -⟩ := List.lookup_eq_some_iff.1 h
  generalize hkey : String.ofList (Text.lowercase name.toList) = key at hlist
  have hmem : (key, b) ∈ [("max", BinaryBuiltin.max), ("min", .min)] := by simp [hlist]
  have hshort : ∀ s ∈ ["max", "min"], Text.utf8Length s.toList ≤ maxNameLength := by decide
  have hfind : functionKey name = .ok key :=
    functionKey_of_lowercase hkey (hshort key (List.mem_map_of_mem (f := Prod.fst) hmem))
  refine ⟨key, ?_⟩
  rw [Context.function?, Functions.find?, hfind]
  refine (Table.get?_eq_some_iff _).2 ?_
  rw [entries_functions_default]
  simp only [List.mem_cons, Prod.mk.injEq, List.not_mem_nil, or_false] at hmem ⊢
  rcases hmem with ⟨rfl, rfl⟩ | ⟨rfl, rfl⟩
  · exact .inl ⟨rfl, rfl⟩
  · exact .inr ⟨rfl, rfl⟩

theorem function?_default_eq_none {name : String} (h : BinaryBuiltin.ofName? name = none) :
    Context.default.function? name = none := by
  rw [Option.eq_none_iff_forall_ne_some]
  intro spec hfind
  rw [Context.function?, Functions.find?] at hfind
  split at hfind
  · next key hkey =>
    have hkey : String.ofList (Text.lowercase name.toList) = key := by
      unfold functionKey at hkey
      simp only at hkey
      split at hkey <;> cases hkey
      rfl
    rw [BinaryBuiltin.ofName?, hkey, List.lookup_eq_none_iff] at h
    have hmem := (Table.get?_eq_some_iff _).1 hfind
    rw [entries_functions_default] at hmem
    simp only [List.mem_cons, Prod.mk.injEq, List.not_mem_nil, or_false] at hmem
    rcases hmem with ⟨rfl, -⟩ | ⟨rfl, -⟩
    · have hne := h ("max", .max) (by simp)
      simp at hne
    · have hne := h ("min", .min) (by simp)
      simp at hne
  · cases hfind

/-! ## Sentences -/

/-- The grammar of the built-in operators and functions: `!` stands in front of its operand, and the
functions have two arguments. -/
def Grammar.builtin : Grammar where
  isLiteral t := t.isLiteral = true
  isUnary t := t.kind = .operator ∧ t.text = "!"
  isBinary t := t.kind = .operator ∧ (BinaryBuiltin.ofSymbol? t.text).isSome
  isCallable t n := t.kind = .identifier ∧ (BinaryBuiltin.ofName? t.text).isSome ∧ n = 2

theorem operator?_default_of_isUnary {t : Token} (h : Grammar.builtin.isUnary t) :
    Context.default.operator? t.text = some (.unary Precedence.prefixed negation) := by
  rw [h.2]
  exact operator?_default_negation

theorem operator?_default_of_isBinary {t : Token} (h : Grammar.builtin.isBinary t) :
    ∃ p b, Context.default.operator? t.text = some (.binary p (BinaryBuiltin.operation b)) := by
  obtain ⟨b, hb⟩ := Option.isSome_iff_exists.1 h.2
  obtain ⟨p, -, hfind⟩ := operator?_default_of_ofSymbol? hb
  exact ⟨p, b, hfind⟩

theorem function?_default_of_isCallable {t : Token} {n : Nat} (h : Grammar.builtin.isCallable t n) :
    ∃ key b, Context.default.function? t.text = some ⟨key, BinaryBuiltin.operation b⟩ := by
  obtain ⟨b, hb⟩ := Option.isSome_iff_exists.1 h.2.1
  obtain ⟨key, hfind⟩ := function?_default_of_ofName? hb
  exact ⟨key, b, hfind⟩

theorem builtin_within : Grammar.builtin.Within (.ofOperators Context.default.operators) where
  literal := id
  unary h := Option.isSome_iff_exists.2
    ⟨_, Operators.ofArity?_eq_some.2 ⟨h.1, operator?_default_of_isUnary h, rfl⟩⟩
  binary h := by
    obtain ⟨p, b, hfind⟩ := operator?_default_of_isBinary h
    exact Option.isSome_iff_exists.2 ⟨_, Operators.ofArity?_eq_some.2 ⟨h.1, hfind, rfl⟩⟩
  callable := fun h => h.1

end Formula
