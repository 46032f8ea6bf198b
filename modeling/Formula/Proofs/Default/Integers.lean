import Formula.Proofs.Arithmetic.Shift
import Formula.Proofs.Decimal.Digits
import Formula.Proofs.Default.Sentence

/-!
# Sentences of integers

Where all literals are integers without superfluous zeros, evaluation is arithmetic of integers that
wraps around at 64 bits. It needs no texts: every operand has the text of its value, so operands
have equal texts exactly if they are equal.

* `wrap`, `onBits`, `truth`: what the operators are made of.
* `BinaryBuiltin.integer`, `Term.integer`: evaluation by arithmetic.
* `combine_ofInt64`, `operand_of_integers`: operands with the text of their value are all that
  arises.
* `Grammar.integers`, `eval_of_integers`: the sentences, and their evaluation.
-/

namespace Formula

/-- The number congruent to `n` that 64 bits with a sign hold. -/
def wrap (n : Int) : Int := n.bmod (2 ^ 64)

/-- An operation on the bits of numbers in two's complement. -/
def onBits (f : BitVec 64 → BitVec 64 → BitVec 64) (l r : Int) : Int :=
  (f (.ofInt 64 l) (.ofInt 64 r)).toInt

/-- One for true and zero for false. -/
def truth (b : Bool) : Int := if b then 1 else 0

/-- What is made of two numbers. The operator or function and its right operand have the given
positions, which errors refer to. -/
def BinaryBuiltin.integer (b : BinaryBuiltin) (position rightPosition : Nat) (l r : Int) :
    Except EvalError Int :=
  match b with
  | add => .ok (wrap (l + r))
  | sub => .ok (wrap (l - r))
  | mul => .ok (wrap (l * r))
  | div => if r = 0 then .error (.divideByZero position) else .ok (wrap (l.tdiv r))
  | rem => if r = 0 then .error (.divideByZero position) else .ok (l.tmod r)
  | bitAnd => .ok (onBits (· &&& ·) l r)
  | bitOr => .ok (onBits (· ||| ·) l r)
  | bitXor => .ok (onBits (· ^^^ ·) l r)
  | shiftLeft =>
    if r < 0 then .error (.typeError (toString r) rightPosition .nonNegative)
    else .ok (wrap (l * 2 ^ r.toNat))
  | shiftRight =>
    if r < 0 then .error (.typeError (toString r) rightPosition .nonNegative)
    else .ok (l.fdiv (2 ^ r.toNat))
  | logicalAnd => .ok (truth (l ≠ 0 ∧ r ≠ 0))
  | logicalOr => .ok (truth (l ≠ 0 ∨ r ≠ 0))
  | equal => .ok (truth (l = r))
  | notEqual => .ok (truth (l ≠ r))
  | less => .ok (truth (l < r))
  | greater => .ok (truth (r < l))
  | lessEqual => .ok (truth (l ≤ r))
  | greaterEqual => .ok (truth (r ≤ l))
  | max => .ok (Max.max l r)
  | min => .ok (Min.min l r)

namespace Term

/-- The position of a literal, or of what is applied. -/
def position : Term → Nat
  | literal t => t.position
  | negation position _ => position
  | binary _ position _ _ => position

/-- The number that a term comes to by arithmetic. The first error is that of the term. -/
def integer : Term → Except EvalError Int
  | literal t => .ok (readDigits t.text.toList)
  | negation _ x => do
    let n ← x.integer
    return truth (n = 0)
  | binary b position left right => do
    let l ← left.integer
    let r ← right.integer
    b.integer position right.position l r

end Term

/-- The operand of an integer, with the text that shows it. -/
def Operand.ofInt64 (n : Int64) (position : Nat) : Operand := ⟨.int n, toString n.toInt, position⟩

/-- The same outcome as a number and as a value, which is one of 64 bits. -/
def Agree (number : Except EvalError Int) (value : Except EvalError Value) : Prop :=
  ∃ result : Except EvalError Int64, number = result.map Int64.toInt ∧ value = result.map .int

section Agree

theorem Agree.ofResult {number : Except EvalError Int} {value : Except EvalError Value}
    (h : Agree number value) (position : Nat) :
    ∃ result : Except EvalError Int64, number = result.map Int64.toInt ∧
      (value >>= fun v => .ok (Operand.ofResult v position))
        = result.map (Operand.ofInt64 · position) := by
  obtain ⟨result, hnumber, hvalue⟩ := h
  refine ⟨result, hnumber, ?_⟩
  rw [hvalue]
  cases result <;> rfl

theorem agree_ok {n : Int64} {k : Int} (h : n.toInt = k) : Agree (.ok k) (.ok (.int n)) :=
  ⟨.ok n, congrArg Except.ok h.symm, rfl⟩

theorem agree_error (e : EvalError) : Agree (.error e) (.error e) := ⟨.error e, rfl, rfl⟩

theorem agree_truth {b c : Bool} (h : c = b) : Agree (.ok (truth b)) (.ok (.ofBool c)) := by
  subst h
  refine agree_ok ?_
  cases c <;> rfl

theorem onBits_toInt (f : BitVec 64 → BitVec 64 → BitVec 64) (m n : Int64) :
    (f m.toBitVec n.toBitVec).toInt = onBits f m.toInt n.toInt := by
  rw [onBits, ← Int64.toInt_toBitVec, ← Int64.toInt_toBitVec, BitVec.ofInt_toInt,
    BitVec.ofInt_toInt]

variable (position p q : Nat) (m n : Int64)

theorem toInt_eq_zero {n : Int64} : n.toInt = 0 ↔ n = 0 := by
  rw [← Int64.toInt_zero, Int64.toInt_inj]

theorem bne_zero (n : Int64) : (n != 0) = decide (n.toInt ≠ 0) := by
  rw [Bool.eq_iff_iff, bne_iff_ne, decide_eq_true_iff, ne_eq, ne_eq, toInt_eq_zero]

/-- Operands have equal texts exactly if they are equal. -/
theorem text_beq_text :
    ((Operand.ofInt64 m p).text == (Operand.ofInt64 n q).text) = decide (m.toInt = n.toInt) := by
  rw [Bool.eq_iff_iff, beq_iff_eq, decide_eq_true_iff]
  exact toString_int_inj

theorem toInt_ite_le (a b : Int64) :
    (if m ≤ n then a else b).toInt = if m.toInt ≤ n.toInt then a.toInt else b.toInt := by
  by_cases h : m ≤ n
  · rw [if_pos h, if_pos (Int64.le_iff_toInt_le.1 h)]
  · rw [if_neg h, if_neg fun h' => h (Int64.le_iff_toInt_le.2 h')]

theorem agree_divide :
    Agree (BinaryBuiltin.div.integer position q m.toInt n.toInt)
      (BinaryBuiltin.divide position (.ofInt64 m p) (.ofInt64 n q)) := by
  show Agree (if n.toInt = 0 then _ else _) (if n = 0 then .error _ else .ok (.int (m / n)))
  by_cases hn : n = 0
  · rw [if_pos hn, if_pos (toInt_eq_zero.2 hn)]
    exact agree_error _
  · rw [if_neg hn, if_neg fun h => hn (toInt_eq_zero.1 h)]
    exact agree_ok (Int64.toInt_div m n)

theorem agree_remainder :
    Agree (BinaryBuiltin.rem.integer position q m.toInt n.toInt)
      (BinaryBuiltin.remainder position (.ofInt64 m p) (.ofInt64 n q)) := by
  show Agree (if n.toInt = 0 then _ else _) (if n = 0 then .error _ else .ok (.int (m % n)))
  by_cases hn : n = 0
  · rw [if_pos hn, if_pos (toInt_eq_zero.2 hn)]
    exact agree_error _
  · rw [if_neg hn, if_neg fun h => hn (toInt_eq_zero.1 h)]
    exact agree_ok (Int64.toInt_mod m n)

/-- A negative count is rejected with its text; any other count goes to the shift. -/
theorem agree_shift {f : Int64 → Int64 → Int64} {k : Int}
    (h : 0 ≤ n.toInt → (f m n).toInt = k) :
    Agree (if n.toInt < 0 then .error (.typeError (toString n.toInt) q .nonNegative) else .ok k)
      (BinaryBuiltin.shift f (.ofInt64 m p) (.ofInt64 n q)) := by
  have hneg : n < 0 ↔ n.toInt < 0 := Int64.lt_iff_toInt_lt
  have hpair : shiftPair (.ofInt64 m p) (.ofInt64 n q)
      = if n < 0 then .error ((Operand.ofInt64 n q).reject .nonNegative) else .ok (m, n) := rfl
  rw [BinaryBuiltin.shift, hpair]
  by_cases hn : n < 0
  · rw [if_pos hn, if_pos (hneg.1 hn)]
    exact agree_error _
  · have hpos : ¬ n.toInt < 0 := fun hlt => hn (hneg.2 hlt)
    rw [if_neg hn, if_neg hpos]
    exact agree_ok (h (Int.not_lt.1 hpos))

/-- **Operands with the texts of their values combine by arithmetic.** -/
theorem combine_ofInt64 (b : BinaryBuiltin) :
    Agree (b.integer position q m.toInt n.toInt)
      (b.combine position (.ofInt64 m p) (.ofInt64 n q)) := by
  have hlt : ∀ {m n : Int64}, m < n ↔ m.toInt < n.toInt := Int64.lt_iff_toInt_lt
  have hle : ∀ {m n : Int64}, m ≤ n ↔ m.toInt ≤ n.toInt := Int64.le_iff_toInt_le
  cases b with
  | add => exact agree_ok (Int64.toInt_add m n)
  | sub => exact agree_ok (Int64.toInt_sub m n)
  | mul => exact agree_ok (Int64.toInt_mul m n)
  | div => exact agree_divide position p q m n
  | rem => exact agree_remainder position p q m n
  | bitAnd => exact agree_ok (onBits_toInt (· &&& ·) m n)
  | bitOr => exact agree_ok (onBits_toInt (· ||| ·) m n)
  | bitXor => exact agree_ok (onBits_toInt (· ^^^ ·) m n)
  | shiftLeft => exact agree_shift p q m n BinaryBuiltin.toInt_shiftedLeft
  | shiftRight =>
    refine agree_shift p q m n fun hn => ?_
    rw [BinaryBuiltin.toInt_shiftedRight hn, Int.fdiv_eq_ediv_of_nonneg]
    exact Int.pow_nonneg (by decide)
  | logicalAnd =>
    have h : (m != 0 && n != 0) = decide (m.toInt ≠ 0 ∧ n.toInt ≠ 0) := by
      rw [bne_zero, bne_zero, Bool.decide_and]
    exact agree_truth h
  | logicalOr =>
    have h : (m != 0 || n != 0) = decide (m.toInt ≠ 0 ∨ n.toInt ≠ 0) := by
      rw [bne_zero, bne_zero, Bool.decide_or]
    exact agree_truth h
  | equal => exact agree_truth (text_beq_text p q m n)
  | notEqual =>
    refine agree_truth ?_
    rw [bne, text_beq_text, decide_not]
  | less | greater => exact agree_truth (by simp only [hlt])
  | lessEqual | greaterEqual => exact agree_truth (by simp only [hle])
  | max => exact agree_ok ((toInt_ite_le m n n m).trans (Int.max_def _ _).symm)
  | min => exact agree_ok ((toInt_ite_le m n m n).trans (Int.min_def _ _).symm)

end Agree

/-! ## Terms -/

/-- An integer that is written without superfluous zeros. -/
def IsCanonical (t : Token) : Prop :=
  t.kind = .integer ∧ (t.text = "0" ∨ t.text.toList.head? ≠ some '0')

/-- The text of a literal without superfluous zeros is the one that shows its value. -/
theorem ofLiteral_of_isCanonical {t : Token} (h : IsCanonical t) (hread : Readable t.kind t.text) :
    ∃ n : Int64, n.toInt = readDigits t.text.toList ∧
      Operand.ofLiteral t = .ok (.ofInt64 n t.position) := by
  obtain ⟨hk, hzero⟩ := h
  rw [hk] at hread
  obtain ⟨hdigits, hsome⟩ := hread
  obtain ⟨n, hn⟩ := Option.isSome_iff_exists.1 hsome
  obtain ⟨hne, hvalue⟩ := (readInt64?_digits hdigits).1 hn
  refine ⟨n, hvalue, ?_⟩
  have hcanonical : t.text.toList = ['0'] ∨ t.text.toList.head? ≠ some '0' := by
    refine hzero.imp_left fun h0 => ?_
    rw [h0]
    rfl
  -- without superfluous zeros the digits are those that the number is shown with
  have htext : toString n.toInt = t.text := by
    rw [hvalue, Int.toString_eq_repr, Int.repr_eq_if, if_pos (Int.natCast_nonneg _),
      Int.toNat_natCast, Nat.repr_eq_ofList_toDigits, toDigits_readDigits hdigits hne hcanonical,
      String.ofList_toList]
  simp only [Operand.ofLiteral, hk, hn, Operand.ofInt64, htext]

/-- **The operand of a term has the value and the text of the number that the term comes to.** The
induction carries the text along, which comparisons for equality look at. -/
theorem Term.operand_of_integers {e : Term}
    (h : e.Literals fun t => IsCanonical t ∧ Readable t.kind t.text) :
    ∃ result : Except EvalError Int64, e.integer = result.map Int64.toInt ∧
      e.operand = result.map (Operand.ofInt64 · e.position) := by
  induction e with
  | literal t =>
    obtain ⟨n, hn, hliteral⟩ := ofLiteral_of_isCanonical h.1 h.2
    exact ⟨.ok n, congrArg Except.ok hn.symm, hliteral⟩
  | negation position x ih =>
    obtain ⟨result, hinteger, hoperand⟩ := ih h
    rw [integer, operand, hinteger, hoperand]
    cases result with
    | error err => exact ⟨.error err, rfl, rfl⟩
    | ok n =>
      have hzero : decide (n.toInt = 0) = (n == 0) := by
        rw [Bool.eq_iff_iff, beq_iff_eq, decide_eq_true_iff, toInt_eq_zero]
      exact (agree_truth hzero.symm).ofResult position
  | binary b position left right ihl ihr =>
    obtain ⟨resultl, hintegerl, hoperandl⟩ := ihl h.1
    obtain ⟨resultr, hintegerr, hoperandr⟩ := ihr h.2
    rw [integer, operand, hintegerl, hoperandl, hintegerr, hoperandr]
    -- The left operand is asked first, so its error is the one that is reported.
    cases resultl with
    | error err => exact ⟨.error err, rfl, rfl⟩
    | ok m =>
      cases resultr with
      | error err => exact ⟨.error err, rfl, rfl⟩
      | ok n =>
        exact (combine_ofInt64 position left.position right.position m n b).ofResult position

/-- The errors of arithmetic: a divisor of zero, and a negative count of a shift. -/
def EvalError.IsArithmetic (e : EvalError) : Prop :=
  (∃ position, e = .divideByZero position) ∨
    ∃ count position, e = .typeError count position .nonNegative

theorem integer_failsWith (b : BinaryBuiltin) (position rightPosition : Nat) (l r : Int) :
    FailsWith EvalError.IsArithmetic (b.integer position rightPosition l r) := by
  unfold BinaryBuiltin.integer
  cases b with
  | div | rem =>
    dsimp only
    split
    · exact failsWith_error (.inl ⟨position, rfl⟩)
    · exact failsWith_ok _
  | shiftLeft | shiftRight =>
    dsimp only
    split
    · exact failsWith_error (.inr ⟨_, rightPosition, rfl⟩)
    · exact failsWith_ok _
  | _ => exact failsWith_ok _

theorem Term.integer_failsWith (e : Term) : FailsWith EvalError.IsArithmetic e.integer := by
  induction e with
  | literal t => exact failsWith_ok _
  | negation _ x ih => exact ih.bind fun _ => failsWith_ok _
  | binary b position left right ihl ihr =>
    exact ihl.bind fun l => ihr.bind fun r =>
      Formula.integer_failsWith b position right.position l r

/-! ## Sentences -/

/-- The grammar of integers without superfluous zeros, and all that is built in. -/
def Grammar.integers : Grammar := { Grammar.builtin with isLiteral := IsCanonical }

/-- **A sentence of integers evaluates by arithmetic of 64 bits.** Only a long sentence can fail for
lack of room; all other errors are a divisor of zero and a negative count of a shift. -/
theorem eval_of_integers {s : String} (h : Grammar.integers.Derives .expression (words s)) :
    ∃ e, Term.parse? (words s) = some e ∧
      (eval .default s = e.integer.map (fun n => .int (Int64.ofInt n)) ∨
        ((∃ c, eval .default s = .error (.capacityExceeded c)) ∧
          stackCapacity ≤ (words s).length)) ∧
      (∀ n, e.integer = .ok n → Int64.minValue.toInt ≤ n ∧ n ≤ Int64.maxValue.toInt) ∧
      ∀ err, e.integer = .error err →
        (∃ position, err = .divideByZero position) ∨
          ∃ count position, err = .typeError count position .nonNegative := by
  have hread : ∀ t ∈ words s, Grammar.integers.isLiteral t →
      IsCanonical t ∧ Readable t.kind t.text :=
    fun t ht hlit =>
      ⟨hlit, Lexer.readable_of_mem_tokens ((List.takeWhile_sublist _).subset ht)⟩
  obtain ⟨e, hparse, hlit, heval⟩ := eval_of_derives
    (fun t ht => by simp [Token.isLiteral, ht.1.1]) (h.withLiterals hread)
  obtain ⟨result, hinteger, hoperand⟩ := Term.operand_of_integers hlit
  refine ⟨e, hparse, heval.imp_left fun heval => ?_, fun n hn => ?_, e.integer_failsWith⟩
  · rw [heval, hoperand, hinteger]
    cases result with
    | error err => rfl
    | ok n => exact congrArg (fun n => Except.ok (Value.int n)) (Int64.ofInt_toInt n).symm
  · rw [hinteger] at hn
    cases result with
    | error err => cases hn
    | ok m =>
      cases hn
      exact ⟨m.minValue_le_toInt, m.toInt_le⟩

/-- Both sides are the least number that 64 bits hold. -/
theorem eval_of_integers_least :
    let s := "1 << 63 == (1 << 63) / (0 - 1)"
    Grammar.integers.Derives .expression (words s) ∧
      ∃ e, Term.parse? (words s) = some e ∧
        eval .default s = e.integer.map (fun n => .int (Int64.ofInt n)) := by
  intro s
  have hwords : words s = [⟨.integer, "1", 0⟩, ⟨.operator, "<<", 2⟩, ⟨.integer, "63", 5⟩,
      ⟨.operator, "==", 8⟩, ⟨.openParen, "(", 11⟩, ⟨.integer, "1", 12⟩, ⟨.operator, "<<", 14⟩,
      ⟨.integer, "63", 17⟩, ⟨.closeParen, ")", 19⟩, ⟨.operator, "/", 21⟩, ⟨.openParen, "(", 23⟩,
      ⟨.integer, "0", 24⟩, ⟨.operator, "-", 26⟩, ⟨.integer, "1", 28⟩, ⟨.closeParen, ")", 29⟩] := by
    decide +kernel
  have hone : ∀ p, Grammar.integers.isLiteral ⟨.integer, "1", p⟩ :=
    fun _ => ⟨rfl, .inr (show "1".toList.head? ≠ some '0' by decide)⟩
  have hcount : ∀ p, Grammar.integers.isLiteral ⟨.integer, "63", p⟩ :=
    fun _ => ⟨rfl, .inr (show "63".toList.head? ≠ some '0' by decide)⟩
  have hzero : Grammar.integers.isLiteral ⟨.integer, "0", 24⟩ := ⟨rfl, .inl rfl⟩
  have hshift : ∀ p, Grammar.integers.isBinary ⟨.operator, "<<", p⟩ :=
    fun _ => ⟨rfl, show (BinaryBuiltin.ofSymbol? "<<").isSome by decide +kernel⟩
  have hequal : Grammar.integers.isBinary ⟨.operator, "==", 8⟩ := ⟨rfl, by decide +kernel⟩
  have hdiv : Grammar.integers.isBinary ⟨.operator, "/", 21⟩ := ⟨rfl, by decide +kernel⟩
  have hminus : Grammar.integers.isBinary ⟨.operator, "-", 26⟩ := ⟨rfl, by decide +kernel⟩
  have hleast : Grammar.integers.Derives .operand [⟨.openParen, "(", 11⟩, ⟨.integer, "1", 12⟩,
      ⟨.operator, "<<", 14⟩, ⟨.integer, "63", 17⟩, ⟨.closeParen, ")", 19⟩] :=
    .group rfl (.expression (.literal (hone 12))
      (.link (hshift 14) (.literal (hcount 17)) .noLink)) rfl
  have hnegative : Grammar.integers.Derives .operand [⟨.openParen, "(", 23⟩, ⟨.integer, "0", 24⟩,
      ⟨.operator, "-", 26⟩, ⟨.integer, "1", 28⟩, ⟨.closeParen, ")", 29⟩] :=
    .group rfl (.expression (.literal hzero) (.link hminus (.literal (hone 28)) .noLink)) rfl
  have h : Grammar.integers.Derives .expression (words s) := by
    rw [hwords]
    exact .expression (.literal (hone 0)) (.link (hshift 2) (.literal (hcount 5))
      (.link hequal hleast (.link hdiv hnegative .noLink)))
  obtain ⟨e, hparse, heval | ⟨-, hle⟩, -⟩ := eval_of_integers h
  · exact ⟨h, e, hparse, heval⟩
  · rw [hwords] at hle
    exact absurd hle (by decide)

end Formula
