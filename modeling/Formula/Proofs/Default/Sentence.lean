import Formula.Proofs.Default.Errors
import Formula.Proofs.Default.Term
import Formula.Proofs.Postfix.Order
import Formula.Proofs.Token.Literals

/-!
# The meaning of sentences

A source text whose words are a sentence of the built-in operators and functions is evaluated as its
term is, by recursion.

* `words`: the tokens of a source text, without the mark of its end.
* `Term.parse?`: the term of a row of words.
* `eval_of_derives`: evaluation comes to the operand of the term, unless there is a lack of room.
* `eval_of_sentence`: the same, with the errors that are left.
-/

namespace Formula

/-- The tokens of a source text in front of the mark of its end. -/
def words (s : String) : List Token := (tokenize s).takeWhile (·.kind ≠ .endOfInput)

theorem exists_tokenize_eq (s : String) :
    ∃ tail, tokenize s = words s ++ tail ∧ EndsInput tail :=
  exists_beforeEnd (tokenize s)

/-- The term of a row of words. -/
def Term.parse? (ts : List Token) : Option Term :=
  (Formula.parse? Context.default.operators ts).bind Tree.term?

section Values

variable {ts : List Token} {outcome : Except EvalError Operand}

theorem valueOfItems_of_computes (h : Computes ts outcome) :
    valueOfItems .default (ts.map .ok) = outcome.map (·.value) ∨
      (valueOfItems .default (ts.map .ok) = .error (.capacityExceeded .operandStack) ∧
        stackCapacity < ts.length) := by
  rw [← valueOfTokens, valueOfTokens_eq]
  rcases h.reaches [] with hrun | ⟨hrun, hlt⟩
  · rw [hrun]
    cases outcome <;> exact .inl rfl
  · rw [hrun]
    exact .inr ⟨rfl, by simpa using hlt⟩

/-- If the conversion breaks off, what it has put out may still have an error of its own. -/
theorem valueOfItems_of_prefix (h : Computes ts outcome) {p : List Token} (hp : p <+: ts) :
    valueOfItems .default (p.map .ok ++ [.error tooManyWait]) = outcome.map (·.value) ∨
      ∃ c, valueOfItems .default (p.map .ok ++ [.error tooManyWait])
        = .error (.capacityExceeded c) := by
  rw [valueOfItems_append, outcome_runItems_map_ok]
  obtain ⟨q, rfl⟩ := hp
  cases hp : executeTokens .default [] p with
  | ok s => exact .inr ⟨.operatorStack, rfl⟩
  | error e =>
    have hall : executeTokens .default [] (p ++ q) = .error e := by
      rw [executeTokens_append, hp]
      rfl
    rcases h.reaches [] with hrun | ⟨hrun, -⟩
    · rw [hall] at hrun
      cases outcome with
      | ok x => cases hrun
      | error e' =>
        cases hrun
        exact .inl rfl
    · rw [hall] at hrun
      cases hrun
      exact .inr ⟨.operandStack, rfl⟩

end Values

/-- **A sentence evaluates to the operand of its term, unless there is a lack of room**, which only
a long sentence can bring about. -/
theorem eval_of_derives {P : Token → Prop} (hP : ∀ t, P t → t.isLiteral = true) {s : String}
    (h : Grammar.Derives { Grammar.builtin with isLiteral := P } .expression (words s)) :
    ∃ e, Term.parse? (words s) = some e ∧ e.Literals P ∧
      (eval .default s = e.operand.map (·.value) ∨
        ((∃ c, eval .default s = .error (.capacityExceeded c)) ∧
          stackCapacity ≤ (words s).length)) := by
  have hwithin : Grammar.Within { Grammar.builtin with isLiteral := P }
      (.ofOperators Context.default.operators) :=
    ⟨hP _, builtin_within.unary, builtin_within.binary, builtin_within.callable⟩
  obtain ⟨x, hparse, hx, hitems⟩ := convertItems_of_derives hwithin h
  obtain ⟨e, hterm, hlit, hcomp⟩ := term?_of_conforms hP hx
  obtain ⟨tail, htokens, htail⟩ := exists_tokenize_eq s
  refine ⟨e, by rw [Term.parse?, hparse, Option.bind_some, hterm], hlit, ?_⟩
  rw [eval_eq_valueOfItems, htokens, convertItems_append_of_endsInput htail]
  -- All tokens are converted, or the conversion has no room behind a first part `p` of them. In
  -- both cases what has been put out is executed, and its error comes first.
  rcases hitems with hitems | ⟨hlt, p, hp, hitems⟩
  · have hle : (convertItems Context.default.operators (words s)).length ≤ (words s).length + 1 :=
      length_convertItems_le _
    rw [hitems] at hle ⊢
    rw [List.length_map] at hle
    rcases valueOfItems_of_computes hcomp with hv | ⟨hv, hlt⟩
    · exact .inl hv
    · exact .inr ⟨⟨_, hv⟩, by omega⟩
  · rw [hitems]
    rcases valueOfItems_of_prefix hcomp hp with hv | hv
    · exact .inl hv
    · exact .inr ⟨hv, Nat.le_of_lt hlt⟩

/-- A term fails on its operands only, if its literals stand for some. -/
theorem Term.operand_failsWith {e : Term}
    (h : e.Literals fun t => ∃ x, Operand.ofLiteral t = .ok x) :
    FailsWith EvalError.IsOfOperands e.operand := by
  induction e with
  | literal t =>
    obtain ⟨x, hx⟩ := h
    rw [operand, hx]
    exact failsWith_ok x
  | negation position x ih =>
    exact (ih h).bind fun x => (negate_failsWith x).bind fun _ => failsWith_ok _
  | binary b position left right ihl ihr =>
    exact (ihl h.1).bind fun l => (ihr h.2).bind fun r =>
      (b.combine_failsWith l r position).bind fun _ => failsWith_ok _

/-- **A sentence of the built-in operators and functions evaluates as its term does**: the left
operand, the right operand, and then what is made of the two, and the first error on the way is the
result. Only a long sentence can fail for lack of room. All other errors are those that operands
cause, of a wrong kind or as a divisor of zero. -/
theorem eval_of_sentence {s : String} (h : Grammar.builtin.Derives .expression (words s)) :
    ∃ e, Term.parse? (words s) = some e ∧
      (eval .default s = e.operand.map (·.value) ∨
        ((∃ c, eval .default s = .error (.capacityExceeded c)) ∧
          stackCapacity ≤ (words s).length)) ∧
      ∀ err, eval .default s = .error err →
        (∃ c, err = .capacityExceeded c) ∨ err.IsOfOperands := by
  have hread : ∀ t ∈ words s, Grammar.builtin.isLiteral t →
      t.isLiteral = true ∧ ∃ x, Operand.ofLiteral t = .ok x :=
    fun t ht hlit => ⟨hlit, ofLiteral_of_mem_tokenize ((List.takeWhile_sublist _).subset ht) hlit⟩
  obtain ⟨e, hparse, hlit, heval⟩ := eval_of_derives (fun _ ht => ht.1) (h.withLiterals hread)
  refine ⟨e, hparse, heval, fun err herr => ?_⟩
  rcases heval with heval | ⟨⟨c, heval⟩, -⟩
  · right
    have hfails := Term.operand_failsWith (hlit.imp fun _ ht => ht.2)
    rw [heval] at herr
    cases hx : e.operand with
    | ok x => rw [hx] at herr; cases herr
    | error err' =>
      rw [hx] at herr
      cases herr
      exact hfails err hx
  · rw [heval] at herr
    cases herr
    exact .inl ⟨c, rfl⟩

/-- A sentence with every kind of operand; its term fails, since a text is no number. -/
theorem eval_of_sentence_mixed :
    let s := "!0 + Max(7, 2) * (3.5 - 'x')"
    Grammar.builtin.Derives .expression (words s) ∧
      ∃ e, Term.parse? (words s) = some e ∧ eval .default s = e.operand.map (·.value) := by
  intro s
  have hwords : words s = [⟨.operator, "!", 0⟩, ⟨.integer, "0", 1⟩, ⟨.operator, "+", 3⟩,
      ⟨.identifier, "Max", 5⟩, ⟨.openParen, "(", 8⟩, ⟨.integer, "7", 9⟩, ⟨.separator, ",", 10⟩,
      ⟨.integer, "2", 12⟩, ⟨.closeParen, ")", 13⟩, ⟨.operator, "*", 15⟩, ⟨.openParen, "(", 17⟩,
      ⟨.float, "3.5", 18⟩, ⟨.operator, "-", 22⟩, ⟨.string, "'x'", 24⟩, ⟨.closeParen, ")", 27⟩] := by
    decide +kernel
  have hlit : ∀ t : Token, t.isLiteral = true → Grammar.builtin.isLiteral t := fun _ ht => ht
  have hnot : Grammar.builtin.isUnary ⟨.operator, "!", 0⟩ := ⟨rfl, rfl⟩
  have hplus : Grammar.builtin.isBinary ⟨.operator, "+", 3⟩ := ⟨rfl, by decide +kernel⟩
  have hmax : Grammar.builtin.isCallable ⟨.identifier, "Max", 5⟩ 2 :=
    ⟨rfl, by decide +kernel, rfl⟩
  have htimes : Grammar.builtin.isBinary ⟨.operator, "*", 15⟩ := ⟨rfl, by decide +kernel⟩
  have hminus : Grammar.builtin.isBinary ⟨.operator, "-", 22⟩ := ⟨rfl, by decide +kernel⟩
  have hcall : Grammar.builtin.Derives .operand [⟨.identifier, "Max", 5⟩, ⟨.openParen, "(", 8⟩,
      ⟨.integer, "7", 9⟩, ⟨.separator, ",", 10⟩, ⟨.integer, "2", 12⟩, ⟨.closeParen, ")", 13⟩] :=
    .call hmax rfl (.arguments (.expression (.literal (hlit _ rfl)) .noLink) rfl
      (.argument (.expression (.literal (hlit _ rfl)) .noLink))) rfl
  have hgroup : Grammar.builtin.Derives .operand [⟨.openParen, "(", 17⟩, ⟨.float, "3.5", 18⟩,
      ⟨.operator, "-", 22⟩, ⟨.string, "'x'", 24⟩, ⟨.closeParen, ")", 27⟩] :=
    .group rfl (.expression (.literal (hlit _ rfl))
      (.link hminus (.literal (hlit _ rfl)) .noLink)) rfl
  have h : Grammar.builtin.Derives .expression (words s) := by
    rw [hwords]
    exact .expression (.unary hnot (.literal (hlit _ rfl)))
      (.link hplus hcall (.link htimes hgroup .noLink))
  obtain ⟨e, hparse, heval | ⟨-, hle⟩, -⟩ := eval_of_sentence h
  · exact ⟨h, e, hparse, heval⟩
  · rw [hwords] at hle
    exact absurd hle (by decide)

end Formula
