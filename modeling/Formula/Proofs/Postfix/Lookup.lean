import Formula.Proofs.Postfix.Origin
import Formula.Proofs.Registry.History

/-!
# What an evaluation looks up

Conversion and execution look up the operators and the functions that an expression names, and
nothing else in the tables.

* `Context.AgreeOn ctx ctx' t`: what the token `t` names is the same in two contexts, or missing in
  both.
* `convertToken_congr`, `releases_congr`: one step of a conversion, and a whole one.
* `executeToken_congr`, `runItems_congr`: one step of an execution, and a whole one.
* `Change.Spares`: a change of a context that leaves alone what some tokens name;
  `agreeOn_history` is the case of many changes in a row.
* `eval_congr`: an evaluation depends on what the expression names.
-/

namespace Formula

/-- What a token names is the same operator or function in two contexts, or missing in both. -/
structure Context.AgreeOn (ctx ctx' : Context) (t : Token) : Prop where
  operator? : t.kind = .operator → ctx.operator? t.text = ctx'.operator? t.text
  function? : t.kind = .identifier → ctx.function? t.text = ctx'.function? t.text

section Congruence

variable {ctx ctx' : Context} {stack input : List Token} {t : Token}

/-! ## Conversion -/

/-- The operators that wait are looked up again. -/
theorem releaseOperators_congr (h : ∀ u ∈ stack, ctx.AgreeOn ctx' u) (incoming : Operator) :
    releaseOperators ctx.operators incoming stack
      = releaseOperators ctx'.operators incoming stack := by
  induction stack with
  | nil => rfl
  | cons top below ih =>
    obtain ⟨htop, hbelow⟩ := List.forall_mem_cons.1 h
    rw [releaseOperators, releaseOperators, ih hbelow]
    by_cases hk : top.kind = .operator
    · have hfind : ctx.operators.find? top.text = ctx'.operators.find? top.text :=
        htop.operator? hk
      rw [hfind]
    · rw [if_neg hk, if_neg hk]

theorem convertOperator_congr (h : ∀ u ∈ stack, ctx.AgreeOn ctx' u) (ht : ctx.AgreeOn ctx' t)
    (hk : t.kind = .operator) :
    convertOperator ctx.operators stack t = convertOperator ctx'.operators stack t := by
  have hfind : ctx.operators.find? t.text = ctx'.operators.find? t.text := ht.operator? hk
  unfold convertOperator
  rw [hfind]
  simp only [releaseOperators_congr h]

/-- One step of a conversion. -/
theorem convertToken_congr (h : ∀ u ∈ stack, ctx.AgreeOn ctx' u) (ht : ctx.AgreeOn ctx' t) :
    convertToken ctx.operators stack t = convertToken ctx'.operators stack t := by
  unfold convertToken
  cases hk : t.kind with
  | operator => exact convertOperator_congr h ht hk
  | _ => rfl

/-- A whole conversion: what waits comes from the input. -/
theorem releases_congr (hstack : ∀ u ∈ stack, ctx.AgreeOn ctx' u ∧ u.Waits)
    (hinput : ∀ u ∈ input, ctx.AgreeOn ctx' u) :
    releases ctx.operators stack input = releases ctx'.operators stack input := by
  induction input generalizing stack with
  | nil => rfl
  | cons t input ih =>
    obtain ⟨ht, hinput⟩ := List.forall_mem_cons.1 hinput
    have hfrom : (convertToken ctx'.operators stack t).From (ctx.AgreeOn ctx') :=
      convertToken_from hstack ht
    rw [releases, releases, convertToken_congr (fun u hu => (hstack u hu).1) ht]
    cases hp : (convertToken ctx'.operators stack t).progress with
    | waiting stack' => exact congrArg _ (ih (hfrom.waiting stack' hp) hinput)
    | done | failed => rfl

/-! ## Execution -/

/-- One step of an execution. -/
theorem executeToken_congr (h : ctx.AgreeOn ctx' t) : executeToken ctx t = executeToken ctx' t := by
  unfold executeToken
  cases hk : t.kind with
  | operator => simp only [applyOperator, h.operator? hk]
  | identifier => simp only [applyFunction, h.function? hk]
  | _ => rfl

theorem runItems_congr (s : OperandStack) {items : List Item}
    (h : ∀ u, .ok u ∈ items → ctx.AgreeOn ctx' u) :
    runItems ctx s items = runItems ctx' s items := by
  induction items generalizing s with
  | nil => rfl
  | cons item items ih =>
    have hitem : runItem ctx s item = runItem ctx' s item := by
      cases item with
      | error e => rfl
      | ok u => simp only [runItem, executeToken_congr (h u List.mem_cons_self)]
    rw [runItems, runItems, hitem]
    exact congrArg _ (funext fun s' => ih s' fun u hu => h u (List.mem_cons_of_mem item hu))

theorem runReleases_congr (s : OperandStack) {rs : List Release}
    (h : ∀ u, .ok u ∈ rs.flatMap Release.items → ctx.AgreeOn ctx' u) :
    runReleases ctx s rs = runReleases ctx' s rs := by
  induction rs generalizing s with
  | nil => rfl
  | cons r rs ih =>
    have hr : runItems ctx s r.items = runItems ctx' s r.items :=
      runItems_congr s fun u hu => h u (by simp [hu])
    rw [runReleases, runReleases, hr]
    refine congrArg _ (funext fun _ => congrArg _ (funext fun s' => ih s' fun u hu => h u ?_))
    rw [List.flatMap_cons]
    exact List.mem_append_right _ hu

end Congruence

/-- Conversion and evaluation, with their records, where two contexts agree on what an expression
names. -/
theorem evaluate_congr {ctx ctx' : Context} {s : String}
    (h : ∀ t ∈ tokenize s, ctx.AgreeOn ctx' t) :
    convertExpressionLogged ctx s = convertExpressionLogged ctx' s ∧
      evaluate ctx s = evaluate ctx' s := by
  have hreleases := releases_congr (List.forall_mem_nil _) h
  have hitems : ∀ u, .ok u ∈ convertItems ctx'.operators (tokenize s) → ctx.AgreeOn ctx' u :=
    fun u hu => h u (mem_convertItems hu).1
  refine ⟨?_, ?_⟩
  · rw [convertExpressionLogged, convertExpressionLogged, convertTokensLogged, convertTokensLogged,
      convertTokens, convertTokens, convertItems, convertItems, hreleases]
  · rw [evaluate, evaluate, hreleases, runReleases_congr [] hitems]

/-! ## Changes of what is not named -/

/-- The entry is what a token names. -/
def Entry.IsNamedBy (t : Token) : Entry → Prop
  | .operator symbol _ => t.kind = .operator ∧ t.text = symbol
  | .function name _ => t.kind = .identifier ∧ smallName t.text = smallName name

/-- The change sets or removes what a token names. -/
def Change.Affects (t : Token) : Change → Prop
  | .set e => e.IsNamedBy t
  | .removeOperator symbol => t.kind = .operator ∧ t.text = symbol
  | .removeFunction name => t.kind = .identifier ∧ smallName t.text = smallName name
  | .installBuiltins => ∃ e ∈ builtins, e.IsNamedBy t

instance (t : Token) (e : Entry) : Decidable (e.IsNamedBy t) :=
  match e with
  | .operator _ _ => inferInstanceAs (Decidable (_ ∧ _))
  | .function _ _ => inferInstanceAs (Decidable (_ ∧ _))

instance (t : Token) (c : Change) : Decidable (c.Affects t) :=
  match c with
  | .set e => inferInstanceAs (Decidable (e.IsNamedBy t))
  | .removeOperator _ => inferInstanceAs (Decidable (_ ∧ _))
  | .removeFunction _ => inferInstanceAs (Decidable (_ ∧ _))
  | .installBuiltins => inferInstanceAs (Decidable (∃ e ∈ builtins, e.IsNamedBy t))

section Changes

variable {ctx ctx' ctx'' : Context} {t : Token}

theorem Context.AgreeOn.refl (ctx : Context) (t : Token) : ctx.AgreeOn ctx t :=
  ⟨fun _ => rfl, fun _ => rfl⟩

theorem Context.AgreeOn.trans (h : ctx.AgreeOn ctx' t) (h' : ctx'.AgreeOn ctx'' t) :
    ctx.AgreeOn ctx'' t :=
  ⟨fun hk => (h.operator? hk).trans (h'.operator? hk),
    fun hk => (h.function? hk).trans (h'.function? hk)⟩

/-- Two contexts with the same functions agree on a token if they agree on the operator. -/
theorem agreeOn_of_operators {operators : Operators}
    (h : t.kind = .operator → ctx.operator? t.text = operators.find? t.text) :
    ctx.AgreeOn { ctx with operators := operators } t :=
  ⟨h, fun _ => rfl⟩

theorem agreeOn_of_functions {functions : Functions}
    (h : t.kind = .identifier → ctx.function? t.text = functions.find? t.text) :
    ctx.AgreeOn { ctx with functions := functions } t :=
  ⟨fun _ => rfl, h⟩

/-- Where only the entry of another symbol has changed, the same operator is found. -/
theorem find?_of_ne_symbol {operators operators' : Operators} {symbol : String} (text : String)
    (h : ∀ key, key ≠ symbol → operators'.get? key = operators.get? key) (hne : text ≠ symbol) :
    operators.find? text = operators'.find? text := by
  rcases Context.operatorKey_cases text with ⟨-, hkey⟩ | ⟨-, hkey⟩
  · simp only [Operators.find?, hkey, h text hne]
  · simp only [Operators.find?, hkey]

theorem find?_of_ne_name {functions functions' : Functions} {name : String} (text : String)
    (h : ∀ key, key ≠ smallName name → functions'.get? key = functions.get? key)
    (hne : smallName text ≠ smallName name) : functions.find? text = functions'.find? text := by
  rcases Context.functionKey_cases text with ⟨-, hkey⟩ | ⟨-, hkey⟩
  · simp only [Functions.find?, hkey, h _ hne]
  · simp only [Functions.find?, hkey]

/-- Setting an entry leaves alone what is not named by it. -/
theorem agreeOn_install {e : Entry} (h : ¬ e.IsNamedBy t) :
    ctx.AgreeOn (e.install ctx).context t := by
  cases e with
  | operator symbol spec =>
    rcases Context.operatorKey_cases symbol with ⟨-, hkey⟩ | ⟨-, hkey⟩ <;>
      simp only [Entry.install, Context.setOperator, hkey]
    · cases hput : ctx.operators.put? symbol spec with
      | none => exact .refl ctx t
      | some operators =>
        refine agreeOn_of_operators fun hk => find?_of_ne_symbol _ (fun key hne => ?_)
          (fun heq => h ⟨hk, heq⟩)
        rw [Table.get?_put? hput, if_neg hne]
    · exact .refl ctx t
  | function name apply =>
    rcases Context.functionKey_cases name with ⟨-, hkey⟩ | ⟨-, hkey⟩ <;>
      simp only [Entry.install, Context.setFunction, hkey]
    · cases hput : ctx.functions.put? (smallName name) ⟨smallName name, apply⟩ with
      | none => exact .refl ctx t
      | some functions =>
        refine agreeOn_of_functions fun hk => find?_of_ne_name _ (fun key hne => ?_)
          (fun heq => h ⟨hk, heq⟩)
        rw [Table.get?_put? hput, if_neg hne]
    · exact .refl ctx t

theorem agreeOn_installAll {es : List Entry} (h : ∀ e ∈ es, ¬ e.IsNamedBy t) :
    ctx.AgreeOn (installAll es ctx).context t := by
  induction es generalizing ctx with
  | nil => exact .refl ctx t
  | cons e es ih =>
    obtain ⟨he, hes⟩ := List.forall_mem_cons.1 h
    rw [installAll, Installation.andThen]
    cases (e.install ctx).outcome with
    | error _ => exact agreeOn_install he
    | ok _ => exact (agreeOn_install he).trans (ih hes)

/-- One change. -/
theorem agreeOn_change {c : Change} (h : ¬ c.Affects t) : ctx.AgreeOn (ctx.change c).1 t := by
  cases c with
  | set e => exact agreeOn_install h
  | removeOperator symbol =>
    rcases Context.operatorKey_cases symbol with ⟨-, hkey⟩ | ⟨-, hkey⟩ <;>
      simp only [Context.change, Context.removeOperator, hkey]
    · refine agreeOn_of_operators fun hk => find?_of_ne_symbol _ (fun key hne => ?_)
        (fun heq => h ⟨hk, heq⟩)
      rw [Table.get?_erase, if_neg hne]
    · exact .refl ctx t
  | removeFunction name =>
    rcases Context.functionKey_cases name with ⟨-, hkey⟩ | ⟨-, hkey⟩ <;>
      simp only [Context.change, Context.removeFunction, hkey]
    · refine agreeOn_of_functions fun hk => find?_of_ne_name _ (fun key hne => ?_)
        (fun heq => h ⟨hk, heq⟩)
      rw [Table.get?_erase, if_neg hne]
    · exact .refl ctx t
  | installBuiltins => exact agreeOn_installAll fun e he hnamed => h ⟨e, he, hnamed⟩

/-- Changes in a row. -/
theorem agreeOn_history {cs : List Change} (h : ∀ c ∈ cs, ¬ c.Affects t) :
    ctx.AgreeOn (history Context.change ctx cs).1 t := by
  induction cs generalizing ctx with
  | nil => exact .refl ctx t
  | cons c cs ih =>
    obtain ⟨hc, hcs⟩ := List.forall_mem_cons.1 h
    exact (agreeOn_change hc).trans (ih hcs)

end Changes

/-- **An evaluation depends on what the expression names.** Where two contexts agree on the
operators and the functions that the tokens of an expression name, they give the same tokens in
postfix order or the same error, the same value or the same error, and the same records of both. So
it does not matter what else is set or removed, and when. -/
theorem eval_congr (s : String) :
    (∀ ctx ctx' : Context, (∀ t ∈ tokenize s, ctx.AgreeOn ctx' t) →
      convertExpression ctx s = convertExpression ctx' s ∧ eval ctx s = eval ctx' s ∧
      (convertExpressionLogged ctx s).records = (convertExpressionLogged ctx' s).records ∧
      (evaluate ctx s).records = (evaluate ctx' s).records) ∧
    ∀ (ctx : Context) (cs : List Change), (∀ t ∈ tokenize s, ∀ c ∈ cs, ¬ c.Affects t) →
      convertExpression (history Context.change ctx cs).1 s = convertExpression ctx s ∧
      eval (history Context.change ctx cs).1 s = eval ctx s := by
  refine ⟨fun ctx ctx' h => ?_, fun ctx cs h => ?_⟩
  · obtain ⟨hconvert, heval⟩ := evaluate_congr h
    exact ⟨congrArg Logged.outcome hconvert, congrArg Logged.outcome heval,
      congrArg Logged.records hconvert, congrArg Logged.records heval⟩
  · have hagree : ∀ t ∈ tokenize s, ctx.AgreeOn (history Context.change ctx cs).1 t :=
      fun t ht => agreeOn_history (h t ht)
    obtain ⟨hconvert, heval⟩ := evaluate_congr hagree
    exact ⟨(congrArg Logged.outcome hconvert).symm, (congrArg Logged.outcome heval).symm⟩

/-- A new operator, and the removal of two entries, none of which is named. -/
theorem eval_congr_unnamed :
    let s := "MAX(1, 2) + 3"
    let cs : List Change := [.removeFunction "min", .removeOperator "!",
      .set (.operator "**" (.binary 35 BinaryBuiltin.mul.operation))]
    let ctx := (history Context.change .default cs).1
    (∀ t ∈ tokenize s, Context.default.AgreeOn ctx t) ∧
      (∀ t ∈ tokenize s, ∀ c ∈ cs, ¬ c.Affects t) ∧
      eval .default s = .ok (.int 5) ∧ eval ctx s = .ok (.int 5) ∧
      convertExpression ctx s = convertExpression .default s := by
  intro s cs ctx
  have hspared : ∀ t ∈ tokenize s, ∀ c ∈ cs, ¬ c.Affects t := by decide +kernel
  have hagree : ∀ t ∈ tokenize s, Context.default.AgreeOn ctx t :=
    fun t ht => agreeOn_history (hspared t ht)
  have hs : eval .default s = .ok (.int 5) := by decide +kernel
  obtain ⟨-, heval, -⟩ := (eval_congr s).1 .default ctx hagree
  obtain ⟨hconvert, -⟩ := (eval_congr s).2 .default cs hspared
  exact ⟨hagree, hspared, hs, heval.symm.trans hs, hconvert⟩

end Formula
