import Formula.Proofs.Registry.History

/-!
# Setting many entries

Entries that are set in a row are counted: the names that a table has besides theirs, and those
that are still to come, never change in number. So there is room for all of them exactly if there is
room for both, wherever the entries have been before.

* `Table.names`: the names of a table.
* `Table.putAll`: puts entries up to the first one that finds no room. `putAll_rest_eq_nil_iff` says
  when there is none, `exists_putAll_eq` what the table is then.
* `installAll_operators`, `installAll_functions`: setting entries of a context puts them in a table.
* `Installation.StopsAt`: an installation ends at an entry without room.
* `installBuiltins_verdict`: when the built-in entries find room, and what there is afterwards.
-/

namespace Formula

namespace Table

variable {α : Type}

/-- The names of a table. -/
def names (t : Table α) : Finset String := (t.entries.map Prod.fst).toFinset

/-- Puts entries one after the other, up to the first one that there is no room for. This one and
those behind it are left. -/
def putAll (t : Table α) : List (String × α) → Table α × List (String × α)
  | [] => (t, [])
  | (key, a) :: es =>
    match t.put? key a with
    | none => (t, (key, a) :: es)
    | some t' => t'.putAll es

variable {t t' : Table α} {key : String} {a : α} {es : List (String × α)}

theorem mem_names : key ∈ t.names ↔ t.contains key = true := by
  rw [names, List.mem_toFinset, contains_iff]

theorem card_names (t : Table α) : t.names.card = t.size := by
  rw [names, List.toFinset_card_of_nodup t.nodup, List.length_map, size]

theorem names_put? (h : t.put? key a = some t') : t'.names = insert key t.names := by
  ext k
  rw [Finset.mem_insert, mem_names, mem_names, contains, contains, get?_put? h]
  by_cases hk : k = key
  · simp [hk]
  · simp [hk]

/-- Putting an entry that is there changes nothing. -/
theorem put?_of_get? (h : t.get? key = some a) : t.put? key a = some t := by
  have hmem := t.get?_eq_some_iff.1 h
  have hkey : key ∈ t.entries.map Prod.fst := List.mem_map.2 ⟨(key, a), hmem, rfl⟩
  have hreplaced : replaced key a t.entries = t.entries := by
    refine (List.map_congr_left fun entry hentry => ?_).trans (List.map_id _)
    obtain ⟨k, b⟩ := entry
    by_cases hk : k = key
    · subst hk
      have hb := t.get?_eq_some_iff.2 hentry
      rw [h, Option.some.injEq] at hb
      simp [hb]
    · simp [hk]
  simp only [put?, if_pos hkey, hreplaced]

/-- With a new name a table has one name more besides those to come, which are one less. -/
theorem card_names_put? {ks : Finset String} (h : t.put? key a = some t') (hkey : key ∉ ks) :
    (t'.names \ ks).card = (t.names \ insert key ks).card + 1 := by
  have hnames : t'.names \ ks = insert key (t.names \ insert key ks) := by
    rw [names_put? h]
    ext k
    simp only [Finset.mem_sdiff, Finset.mem_insert]
    by_cases hk : k = key
    · simp [hk, hkey]
    · simp [hk]
  rw [hnames, Finset.card_insert_of_notMem (by simp)]

/-- There is room for entries under different names exactly if there is room for them and for all
entries under other names. -/
theorem putAll_rest_eq_nil_iff (hnodup : (es.map Prod.fst).Nodup) :
    (t.putAll es).2 = [] ↔
      (t.names \ (es.map Prod.fst).toFinset).card + es.length ≤ tableCapacity := by
  induction es generalizing t with
  | nil =>
    have hle : t.names.card ≤ tableCapacity := t.card_names ▸ t.length_le
    simpa [putAll] using hle
  | cons entry es ih =>
    obtain ⟨key, a⟩ := entry
    rw [List.map_cons, List.nodup_cons] at hnodup
    obtain ⟨hkey, hnodup⟩ := hnodup
    rw [putAll, List.map_cons, List.toFinset_cons, List.length_cons]
    dsimp only
    cases hput : t.put? key a with
    | none =>
      obtain ⟨hnew, hfull⟩ := (t.put?_eq_none_iff key a).1 hput
      have hnotMem : key ∉ t.names := by simp [mem_names, hnew]
      -- the table is full, and at most the names behind the new one are among those to come
      have hcard := t.card_names
      have hothers := Finset.le_card_sdiff (es.map Prod.fst).toFinset t.names
      have hcome := List.toFinset_card_le (es.map Prod.fst)
      rw [List.length_map] at hcome
      rw [Finset.sdiff_insert_of_notMem hnotMem]
      simp only [reduceCtorEq, false_iff]
      omega
    | some t' =>
      have hcount := card_names_put? hput (mt List.mem_toFinset.1 hkey)
      show (t'.putAll es).2 = [] ↔ _
      rw [ih hnodup, hcount]
      omega

/-- Entries are left only by a full table. -/
theorem size_putAll (h : (t.putAll es).2 ≠ []) : (t.putAll es).1.size = tableCapacity := by
  induction es generalizing t with
  | nil => exact absurd rfl h
  | cons entry es ih =>
    obtain ⟨key, a⟩ := entry
    rw [putAll] at h ⊢
    cases hput : t.put? key a with
    | none => exact ((t.put?_eq_none_iff key a).1 hput).2
    | some t' =>
      rw [hput] at h
      exact ih h

/-- The entries in front of those that are left are found, and under all other names the table is as
it was. -/
theorem exists_put (hnodup : (es.map Prod.fst).Nodup) :
    ∃ put, es = put ++ (t.putAll es).2 ∧ (∀ e ∈ put, (t.putAll es).1.get? e.1 = some e.2) ∧
      ∀ key ∉ put.map Prod.fst, (t.putAll es).1.get? key = t.get? key := by
  induction es generalizing t with
  | nil => exact ⟨[], rfl, by simp, fun _ _ => rfl⟩
  | cons entry es ih =>
    obtain ⟨key, a⟩ := entry
    rw [List.map_cons, List.nodup_cons] at hnodup
    rw [putAll]
    cases hput : t.put? key a with
    | none => exact ⟨[], rfl, by simp, fun _ _ => rfl⟩
    | some t' =>
      obtain ⟨put, hes, hfound, hother⟩ := ih (t := t') hnodup.2
      have hkey : key ∉ put.map Prod.fst := by
        intro hmem
        rw [hes, List.map_append] at hnodup
        exact hnodup.1 (List.mem_append_left _ hmem)
      refine ⟨(key, a) :: put, congrArg _ hes, List.forall_mem_cons.2 ⟨?_, hfound⟩, ?_⟩
      · -- no later entry has this name
        exact (hother key hkey).trans (by rw [get?_put? hput, if_pos rfl])
      · intro k hk
        rw [List.map_cons, List.mem_cons, not_or] at hk
        exact (hother k hk.2).trans (by rw [get?_put? hput, if_neg hk.1])

/-- The entries in front of those that are left are found. Under the names of those that are left,
and under all other names, the table is as it was. -/
theorem exists_putAll_eq (t : Table α) (hnodup : (es.map Prod.fst).Nodup) :
    ∃ put, es = put ++ (t.putAll es).2 ∧ (∀ e ∈ put, (t.putAll es).1.get? e.1 = some e.2) ∧
      (∀ e ∈ (t.putAll es).2, (t.putAll es).1.get? e.1 = t.get? e.1) ∧
      ∀ key ∉ es.map Prod.fst, (t.putAll es).1.get? key = t.get? key := by
  obtain ⟨put, hes, hfound, hother⟩ := exists_put (t := t) hnodup
  have hnames : es.map Prod.fst = put.map Prod.fst ++ (t.putAll es).2.map Prod.fst := by
    rw [← List.map_append, ← hes]
  refine ⟨put, hes, hfound, fun e he => hother _ fun hput => ?_, fun key hkey => hother _ ?_⟩
  · rw [hnames, List.nodup_append] at hnodup
    exact hnodup.2.2 _ hput _ (List.mem_map_of_mem he) rfl
  · rw [hnames, List.mem_append, not_or] at hkey
    exact hkey.1

theorem putAll_of_get? (h : ∀ e ∈ es, t.get? e.1 = some e.2) : t.putAll es = (t, []) := by
  induction es with
  | nil => rfl
  | cons entry es ih =>
    obtain ⟨hentry, hes⟩ := List.forall_mem_cons.1 h
    rw [putAll, put?_of_get? hentry]
    exact ih hes

end Table

/-! ## Entries of a context -/

/-- Success if no entry is left; else the table has no room for the first one. -/
def roomFor {α : Type} (container : Container) : List α → Except EvalError Unit
  | [] => .ok ()
  | _ :: _ => .error (.capacityExceeded container)

/-- Entries in a row are set in two parts. -/
theorem installAll_append (es es' : List Entry) (ctx : Context) :
    installAll (es ++ es') ctx = (installAll es ctx).andThen (installAll es') := by
  induction es generalizing ctx with
  | nil => rfl
  | cons e es ih =>
    rw [List.cons_append, installAll, installAll]
    rcases e.install ctx with ⟨ctx', records, _ | _⟩
    · rfl
    · simp only [Installation.andThen, ih]
      rcases installAll es ctx' with ⟨ctx'', records', _ | _⟩
      · rfl
      · simp only [List.append_assoc]

theorem installAll_operators (ctx : Context) {es : List (String × Operator)}
    (hkeys : ∀ e ∈ es, operatorKey e.1 = .ok e.1) :
    (installAll (es.map fun e => .operator e.1 e.2) ctx).context
        = { ctx with operators := (ctx.operators.putAll es).1 } ∧
      (installAll (es.map fun e => .operator e.1 e.2) ctx).outcome
        = roomFor .operators (ctx.operators.putAll es).2 := by
  induction es generalizing ctx with
  | nil => exact ⟨rfl, rfl⟩
  | cons e es ih =>
    obtain ⟨hkey, hkeys⟩ := List.forall_mem_cons.1 hkeys
    rw [List.map_cons, installAll, Entry.install, Context.setOperator, hkey, Table.putAll]
    dsimp only
    cases hput : ctx.operators.put? e.1 e.2 with
    | none => exact ⟨rfl, rfl⟩
    | some operators => exact ih { ctx with operators := operators } hkeys

/-- A function is stored with its name. -/
def named (e : String × Operation) : String × Callable := (e.1, ⟨e.1, e.2⟩)

theorem installAll_functions (ctx : Context) {es : List (String × Operation)}
    (hkeys : ∀ e ∈ es, functionKey e.1 = .ok e.1) :
    (installAll (es.map fun e => .function e.1 e.2) ctx).context
        = { ctx with functions := (ctx.functions.putAll (es.map named)).1 } ∧
      (installAll (es.map fun e => .function e.1 e.2) ctx).outcome
        = roomFor .functions (ctx.functions.putAll (es.map named)).2 := by
  induction es generalizing ctx with
  | nil => exact ⟨rfl, rfl⟩
  | cons e es ih =>
    obtain ⟨hkey, hkeys⟩ := List.forall_mem_cons.1 hkeys
    rw [List.map_cons, List.map_cons, installAll, Entry.install, Context.setFunction, hkey, named,
      Table.putAll]
    dsimp only
    cases hput : ctx.functions.put? e.1 ⟨e.1, e.2⟩ with
    | none => exact ⟨rfl, rfl⟩
    | some functions => exact ih { ctx with functions := functions } hkeys

/-! ## The built-in entries -/

/-- The built-in operators by symbol, in the order of their registration. -/
def builtinOperators : List (String × Operator) :=
  binaryBuiltins.map (fun (symbol, precedence, b) => (symbol, .binary precedence b.operation))
    ++ [("!", .unary Precedence.prefixed negation)]

/-- The built-in functions by name, in the order of their registration. -/
def builtinFunctions : List (String × Operation) :=
  [("max", BinaryBuiltin.max.operation), ("min", BinaryBuiltin.min.operation)]

/-- The operators are registered before the functions. -/
theorem builtins_eq :
    builtins = builtinOperators.map (fun e => .operator e.1 e.2)
      ++ builtinFunctions.map (fun e => .function e.1 e.2) := rfl

theorem length_builtinOperators : builtinOperators.length = 19 := rfl

theorem nodup_builtinOperators : (builtinOperators.map Prod.fst).Nodup := by decide

theorem operatorKey_builtinOperators : ∀ e ∈ builtinOperators, operatorKey e.1 = .ok e.1 := by
  have hshort : ∀ s ∈ builtinOperators.map Prod.fst,
      Text.utf8Length s.toList ≤ maxSymbolLength := by decide
  exact fun e he => if_pos (hshort e.1 (List.mem_map_of_mem he))

theorem nodup_builtinFunctions : ((builtinFunctions.map named).map Prod.fst).Nodup := by decide

theorem functionKey_builtinFunctions : ∀ e ∈ builtinFunctions, functionKey e.1 = .ok e.1 := by
  exact List.forall_mem_cons.2 ⟨rfl, List.forall_mem_cons.2 ⟨rfl, nofun⟩⟩

theorem smallName_builtinFunctions {e : String × Operation} (he : e ∈ builtinFunctions) :
    smallName e.1 = e.1 := by
  have hkey := functionKey_builtinFunctions e he
  rcases Context.functionKey_cases e.1 with ⟨-, h⟩ | ⟨-, h⟩
  · exact Except.ok.inj (h.symm.trans hkey)
  · rw [hkey] at h
    cases h

/-- The symbols of the built-in operators. -/
def builtinSymbols : Finset String := (builtinOperators.map Prod.fst).toFinset

/-- The names of the built-in functions. -/
def builtinNames : Finset String := (builtinFunctions.map Prod.fst).toFinset

namespace Entry

/-- The table that an entry belongs to. -/
def container : Entry → Container
  | operator _ _ => .operators
  | function _ _ => .functions

/-- How many entries there are in the table that an entry belongs to. -/
def tableSize (ctx : Context) : Entry → Nat
  | operator _ _ => ctx.operators.size
  | function _ _ => ctx.functions.size

/-- A context has an entry. Functions are stored by name in small letters. -/
def IsIn (ctx : Context) : Entry → Prop
  | operator symbol spec => ctx.operators.get? symbol = some spec
  | function name apply => ctx.functions.get? (smallName name) = some ⟨smallName name, apply⟩

/-- Under the name of an entry two contexts have the same, or both have nothing. -/
def IsKept (ctx ctx' : Context) : Entry → Prop
  | operator symbol _ => ctx'.operators.get? symbol = ctx.operators.get? symbol
  | function name _ => ctx'.functions.get? (smallName name) = ctx.functions.get? (smallName name)

end Entry

/-- Installing stops at an entry that there is no room for. -/
structure Installation.StopsAt (r : Installation) (ctx : Context) (before : List Entry) (e : Entry)
    (behind : List Entry) : Prop where
  outcome : r.outcome = .error (.capacityExceeded e.container)
  full : e.tableSize r.context = 32
  /-- The entries before it are there. -/
  before : ∀ d ∈ before, d.IsIn r.context
  /-- For this entry and those behind it, all is as it was. -/
  behind : ∀ d ∈ e :: behind, d.IsKept ctx r.context

section Builtins

variable {ctx : Context}

/-- The operators with those built in, as far as there is room. -/
abbrev Context.putOperators (ctx : Context) : Operators × List (String × Operator) :=
  ctx.operators.putAll builtinOperators

/-- The functions with those built in, as far as there is room. -/
abbrev Context.putFunctions (ctx : Context) : Functions × List (String × Callable) :=
  ctx.functions.putAll (builtinFunctions.map named)

theorem installBuiltins_of_ne_nil (h : ctx.putOperators.2 ≠ []) :
    ctx.installBuiltins.context = { ctx with operators := ctx.putOperators.1 } ∧
      ctx.installBuiltins.outcome = .error (.capacityExceeded .operators) := by
  obtain ⟨hcontext, houtcome⟩ := installAll_operators ctx operatorKey_builtinOperators
  obtain ⟨e, rest, hrest⟩ := List.exists_cons_of_ne_nil h
  rw [hrest, roomFor] at houtcome
  rw [Context.installBuiltins, builtins_eq, installAll_append, Installation.andThen, houtcome]
  exact ⟨hcontext, houtcome⟩

/-- The functions come when all operators are there. -/
theorem installBuiltins_of_nil (h : ctx.putOperators.2 = []) :
    ctx.installBuiltins.context = ⟨ctx.putOperators.1, ctx.putFunctions.1⟩ ∧
      ctx.installBuiltins.outcome = roomFor .functions ctx.putFunctions.2 := by
  obtain ⟨hcontext, houtcome⟩ := installAll_operators ctx operatorKey_builtinOperators
  rw [h, roomFor] at houtcome
  rw [Context.installBuiltins, builtins_eq, installAll_append, Installation.andThen, houtcome,
    hcontext]
  exact installAll_functions _ functionKey_builtinFunctions

theorem map_fst_named (es : List (String × Operation)) :
    (es.map named).map Prod.fst = es.map Prod.fst := by
  rw [List.map_map]
  rfl

theorem putOperators_eq_nil_iff :
    ctx.putOperators.2 = [] ↔ (ctx.operators.names \ builtinSymbols).card ≤ 13 := by
  rw [Context.putOperators, Table.putAll_rest_eq_nil_iff nodup_builtinOperators,
    length_builtinOperators, builtinSymbols, tableCapacity]
  omega

theorem putFunctions_eq_nil_iff :
    ctx.putFunctions.2 = [] ↔ (ctx.functions.names \ builtinNames).card ≤ 30 := by
  have hlength : (builtinFunctions.map named).length = 2 := rfl
  rw [Context.putFunctions, Table.putAll_rest_eq_nil_iff nodup_builtinFunctions, hlength,
    map_fst_named, builtinNames, tableCapacity]
  omega

theorem roomFor_eq_ok_iff {α : Type} {container : Container} {rest : List α} :
    roomFor container rest = .ok () ↔ rest = [] := by
  cases rest <;> simp [roomFor]

/-- There is room for the built-in entries exactly if there are not too many others. -/
theorem outcome_installBuiltins_eq_ok_iff :
    ctx.installBuiltins.outcome = .ok () ↔
      (ctx.operators.names \ builtinSymbols).card ≤ 13 ∧
        (ctx.functions.names \ builtinNames).card ≤ 30 := by
  rw [← putOperators_eq_nil_iff, ← putFunctions_eq_nil_iff]
  by_cases h : ctx.putOperators.2 = []
  · rw [(installBuiltins_of_nil h).2, roomFor_eq_ok_iff]
    exact (and_iff_right h).symm
  · rw [(installBuiltins_of_ne_nil h).2]
    simp [h]

theorem get?_operators_installBuiltins {key : String} (hkey : key ∉ builtinSymbols) :
    ctx.installBuiltins.context.operators.get? key = ctx.operators.get? key := by
  obtain ⟨-, -, -, -, hother⟩ := ctx.operators.exists_putAll_eq nodup_builtinOperators
  have h := hother key (mt List.mem_toFinset.2 hkey)
  by_cases hnil : ctx.putOperators.2 = []
  · rw [(installBuiltins_of_nil hnil).1]
    exact h
  · rw [(installBuiltins_of_ne_nil hnil).1]
    exact h

theorem get?_functions_installBuiltins {key : String} (hkey : key ∉ builtinNames) :
    ctx.installBuiltins.context.functions.get? key = ctx.functions.get? key := by
  obtain ⟨-, -, -, -, hother⟩ := ctx.functions.exists_putAll_eq nodup_builtinFunctions
  rw [map_fst_named] at hother
  have h := hother key (mt List.mem_toFinset.2 hkey)
  by_cases hnil : ctx.putOperators.2 = []
  · rw [(installBuiltins_of_nil hnil).1]
    exact h
  · rw [(installBuiltins_of_ne_nil hnil).1]

/-! ## Success and failure -/

/-- All operators have found room. -/
theorem isIn_operator (h : ctx.putOperators.2 = []) :
    ∀ e ∈ builtinOperators, (Entry.operator e.1 e.2).IsIn ctx.installBuiltins.context := by
  obtain ⟨put, hput, hfound, -⟩ := ctx.operators.exists_putAll_eq nodup_builtinOperators
  rw [h, List.append_nil] at hput
  rw [(installBuiltins_of_nil h).1, hput]
  exact hfound

/-- A function that has found room, which it does only after the operators. -/
theorem isIn_function {e : String × Operation} (hoperators : ctx.putOperators.2 = [])
    (he : e ∈ builtinFunctions) (hfound : ctx.putFunctions.1.get? e.1 = some (named e).2) :
    (Entry.function e.1 e.2).IsIn ctx.installBuiltins.context := by
  rw [Entry.IsIn, smallName_builtinFunctions he, (installBuiltins_of_nil hoperators).1]
  exact hfound

theorem isIn_of_outcome (h : ctx.installBuiltins.outcome = .ok ()) :
    ∀ e ∈ builtins, e.IsIn ctx.installBuiltins.context := by
  obtain ⟨hoperators, hfunctions⟩ := outcome_installBuiltins_eq_ok_iff.1 h
  have hoperators := putOperators_eq_nil_iff.2 hoperators
  have hfunctions := putFunctions_eq_nil_iff.2 hfunctions
  obtain ⟨put, hput, hfound, -⟩ := ctx.functions.exists_putAll_eq nodup_builtinFunctions
  rw [hfunctions, List.append_nil] at hput
  rw [builtins_eq]
  intro d hd
  rcases List.mem_append.1 hd with hd | hd
  · obtain ⟨e, he, rfl⟩ := List.mem_map.1 hd
    exact isIn_operator hoperators e he
  · obtain ⟨e, he, rfl⟩ := List.mem_map.1 hd
    exact isIn_function hoperators he (hfound (named e) (hput ▸ List.mem_map_of_mem he))

/-- Installing what is there changes nothing. -/
theorem installBuiltins_of_isIn (h : ∀ e ∈ builtins, e.IsIn ctx) :
    ctx.installBuiltins.context = ctx ∧ ctx.installBuiltins.outcome = .ok () := by
  rw [builtins_eq, List.forall_mem_append, List.forall_mem_map, List.forall_mem_map] at h
  have hoperators : ctx.putOperators = (ctx.operators, []) := Table.putAll_of_get? h.1
  have hfunctions : ctx.putFunctions = (ctx.functions, []) := by
    refine Table.putAll_of_get? (List.forall_mem_map.2 fun e he => ?_)
    have hfound := h.2 e he
    rwa [Entry.IsIn, smallName_builtinFunctions he] at hfound
  obtain ⟨hcontext, houtcome⟩ := installBuiltins_of_nil (congrArg Prod.snd hoperators)
  rw [hcontext, houtcome, hoperators, hfunctions]
  exact ⟨rfl, rfl⟩

/-- The table of operators is full when one of them comes that is not there. -/
theorem exists_stopsAt_operator (h : ctx.putOperators.2 ≠ []) :
    ∃ before e behind, builtins = before ++ e :: behind ∧
      ctx.installBuiltins.StopsAt ctx before e behind := by
  obtain ⟨put, hput, hfound, hkept, -⟩ := ctx.operators.exists_putAll_eq nodup_builtinOperators
  obtain ⟨hcontext, houtcome⟩ := installBuiltins_of_ne_nil h
  have hfull := ctx.operators.size_putAll h
  obtain ⟨e, rest, hrest⟩ := List.exists_cons_of_ne_nil h
  rw [Context.putOperators] at hrest
  rw [hrest] at hput hkept
  refine ⟨put.map fun e => .operator e.1 e.2, .operator e.1 e.2,
    rest.map (fun e => .operator e.1 e.2) ++ builtinFunctions.map fun e => .function e.1 e.2,
    ?_, houtcome, ?_, ?_, ?_⟩
  · rw [builtins_eq, hput, List.map_append, List.map_cons, List.append_assoc, List.cons_append]
  · rw [Entry.tableSize, hcontext]
    exact hfull
  · rw [hcontext, List.forall_mem_map]
    exact hfound
  · rw [hcontext, ← List.cons_append, List.forall_mem_append, List.forall_mem_cons,
      List.forall_mem_map, List.forall_mem_map]
    exact ⟨List.forall_mem_cons.1 hkept, fun _ _ => rfl⟩

/-- All operators are there, and the table of functions is full. -/
theorem exists_stopsAt_function (hoperators : ctx.putOperators.2 = [])
    (h : ctx.putFunctions.2 ≠ []) :
    ∃ before e behind, builtins = before ++ e :: behind ∧
      ctx.installBuiltins.StopsAt ctx before e behind := by
  obtain ⟨put, hput, hfound, hkept, -⟩ := ctx.functions.exists_putAll_eq nodup_builtinFunctions
  obtain ⟨hcontext, houtcome⟩ := installBuiltins_of_nil hoperators
  have hfull := ctx.functions.size_putAll h
  obtain ⟨first, rest, hsplit, hfirst, hrest⟩ := List.map_eq_append_iff.1 hput
  rw [Context.putFunctions, ← hrest] at h
  -- the first entry that is left is the one without room
  obtain ⟨e, behind, rfl⟩ := List.exists_cons_of_ne_nil (mt (congrArg (List.map named)) h)
  have hsub : first ⊆ builtinFunctions := hsplit ▸ List.subset_append_left _ _
  refine ⟨builtinOperators.map (fun e => .operator e.1 e.2) ++ first.map fun e => .function e.1 e.2,
    .function e.1 e.2, behind.map fun e => .function e.1 e.2, ?_, ?_, ?_, ?_, ?_⟩
  · rw [builtins_eq, hsplit, List.map_append, List.map_cons, List.append_assoc]
  · rw [houtcome, Context.putFunctions, ← hrest]
    rfl
  · rw [Entry.tableSize, hcontext]
    exact hfull
  · rw [List.forall_mem_append, List.forall_mem_map, List.forall_mem_map]
    exact ⟨isIn_operator hoperators, fun d hd => isIn_function hoperators (hsub hd)
      (hfound (named d) (hfirst ▸ List.mem_map_of_mem hd))⟩
  · have hkeep : ∀ d ∈ e :: behind,
        (Entry.function d.1 d.2).IsKept ctx ctx.installBuiltins.context := by
      intro d hd
      have hmem : d ∈ builtinFunctions := hsplit ▸ List.mem_append_right _ hd
      rw [Entry.IsKept, smallName_builtinFunctions hmem, hcontext]
      exact hkept (named d) (hrest ▸ List.mem_map_of_mem hd)
    rw [List.forall_mem_cons, List.forall_mem_map]
    exact List.forall_mem_cons.1 hkeep

/-- **Installing what is built in succeeds exactly if there is room**, and what is not built in is
as it was in any case. After a success all built-in entries are there, and installing them again
changes nothing. A failure tells of the table that is full; what comes before the entry without room
is there, and from this entry on all is as before. -/
theorem installBuiltins_verdict (ctx : Context) :
    let r := ctx.installBuiltins
    (r.outcome = .ok () ↔
      (ctx.operators.names \ builtinSymbols).card ≤ 13 ∧
        (ctx.functions.names \ builtinNames).card ≤ 30) ∧
    (∀ key ∉ builtinSymbols, r.context.operators.get? key = ctx.operators.get? key) ∧
    (∀ key ∉ builtinNames, r.context.functions.get? key = ctx.functions.get? key) ∧
    (r.outcome = .ok () → (∀ e ∈ builtins, e.IsIn r.context) ∧
      r.context.installBuiltins.context = r.context ∧
      r.context.installBuiltins.outcome = .ok ()) ∧
    (r.outcome ≠ .ok () → ∃ before e behind, builtins = before ++ e :: behind ∧
      r.StopsAt ctx before e behind) := by
  refine ⟨outcome_installBuiltins_eq_ok_iff, fun _ => get?_operators_installBuiltins,
    fun _ => get?_functions_installBuiltins, fun h => ?_, fun h => ?_⟩
  · have hin := isIn_of_outcome h
    exact ⟨hin, installBuiltins_of_isIn hin⟩
  · by_cases hoperators : ctx.putOperators.2 = []
    · refine exists_stopsAt_function hoperators fun hfunctions => h ?_
      rw [(installBuiltins_of_nil hoperators).2, hfunctions, roomFor]
    · exact exists_stopsAt_operator hoperators

/-- With 14 other operators one that is built in finds no room. -/
theorem installBuiltins_verdict_full :
    let others := "abcdefghijklmn".toList.map fun c =>
      Entry.operator (String.singleton c) (.unary Precedence.prefixed negation)
    let ctx := (installAll others .empty).context
    ctx.installBuiltins.outcome ≠ .ok () ∧
      (∃ before e behind, builtins = before ++ e :: behind ∧
        ctx.installBuiltins.StopsAt ctx before e behind) ∧
      Context.empty.installBuiltins.outcome = .ok () ∧
      ∀ e ∈ builtins, e.IsIn Context.empty.installBuiltins.context := by
  intro others ctx
  have hfails : ctx.installBuiltins.outcome ≠ .ok () := fun h =>
    absurd ((installBuiltins_verdict ctx).1.1 h).1 (by decide)
  have hempty : Context.empty.installBuiltins.outcome = .ok () :=
    (installBuiltins_verdict .empty).1.2 (by decide)
  exact ⟨hfails, (installBuiltins_verdict ctx).2.2.2.2 hfails, hempty,
    ((installBuiltins_verdict .empty).2.2.2.1 hempty).1⟩

end Builtins

end Formula
