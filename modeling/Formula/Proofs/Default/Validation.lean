import Formula.Proofs.Default.Errors

/-!
# Which of two operands a type error names

Of two operands the right one is validated first, so if it is rejected the error names it, whatever
the left one is. There is one exception: whether a shift count is negative is looked at after the
kind of the left operand, so a left operand that is no integer is named instead.

* `Requirement.IsMet`: what a value has to be to meet a requirement.
* `BinaryBuiltin.leftRequirements`, `BinaryBuiltin.rightRequirements`: the requirements that an
  operator or a function makes. `Operand.IsRejected`: an operand that misses one of them.
* `RightFirst`: outcomes that tell of the right operand first, and only then of the left one.
* `rightFirst_operation_iff`: such are the outcomes of all that is built in, but for the exception.
-/

namespace Formula

/-! ## Requirements -/

/-- A value meets a requirement. What host code requires is not known. -/
def Requirement.IsMet (v : Value) : Requirement → Prop
  | integer => v.isInt = true
  | number => v.isNumber = true
  | nonNegative => ∀ n, v = .int n → 0 ≤ n
  | custom _ => True

namespace BinaryBuiltin

/-- The kind that both operands have to be of. Equality takes operands of all kinds. -/
def kindRequirement? : BinaryBuiltin → Option Requirement
  | add | sub | mul | div => some .number
  | equal | notEqual => none
  | rem | bitAnd | bitOr | bitXor | shiftLeft | shiftRight | logicalAnd | logicalOr | less | greater
  | lessEqual | greaterEqual | max | min => some .integer

/-- Whether the right operand is a shift count. -/
def isShift (b : BinaryBuiltin) : Bool := b == shiftLeft || b == shiftRight

/-- What the left operand has to be. -/
def leftRequirements (b : BinaryBuiltin) : List Requirement := b.kindRequirement?.toList

/-- What the right operand has to be. -/
def rightRequirements (b : BinaryBuiltin) : List Requirement :=
  b.kindRequirement?.toList ++ if b.isShift then [.nonNegative] else []

/-- A negative shift count stands beside a left operand that is no integer. -/
def OverlooksCount (b : BinaryBuiltin) (left right : Operand) : Prop :=
  b.isShift = true ∧ left.value.isInt = false ∧ ∃ n, right.value = .int n ∧ n < 0

end BinaryBuiltin

/-- An operand misses one of some requirements. -/
def Operand.IsRejected (rs : List Requirement) (x : Operand) : Prop :=
  ∃ r ∈ rs, ¬ r.IsMet x.value

/-- An operand is of the wrong kind, or is negative where it should not be. -/
def EvalError.IsTypeError (e : EvalError) : Prop :=
  ∃ text position requirement, e = .typeError text position requirement

/-- If the right operand is rejected, this is the error, with the operand's text and position and
with a requirement that it misses; if only the left one is rejected, that is; and otherwise no
operand is of the wrong kind. -/
structure RightFirst {α : Type} (ls rs : List Requirement) (left right : Operand)
    (outcome : Except EvalError α) : Prop where
  of_right : right.IsRejected rs →
    ∃ r ∈ rs, ¬ r.IsMet right.value ∧ outcome = .error (right.reject r)
  of_left : ¬ right.IsRejected rs → left.IsRejected ls →
    ∃ r ∈ ls, ¬ r.IsMet left.value ∧ outcome = .error (left.reject r)
  of_neither : ¬ right.IsRejected rs → ¬ left.IsRejected ls →
    FailsWith (fun e => ¬ e.IsTypeError) outcome

section RightFirst

variable {α β : Type} {ls rs : List Requirement} {left right : Operand}

/-- What is made of two valid operands does not change which of them is named. -/
theorem RightFirst.bind {x : Except EvalError α} {f : α → Except EvalError β}
    (hx : RightFirst ls rs left right x) (hf : ∀ a, FailsWith (fun e => ¬ e.IsTypeError) (f a)) :
    RightFirst ls rs left right (x >>= f) where
  of_right hright := by
    obtain ⟨r, hr, hmiss, rfl⟩ := hx.of_right hright
    exact ⟨r, hr, hmiss, rfl⟩
  of_left hright hleft := by
    obtain ⟨r, hr, hmiss, rfl⟩ := hx.of_left hright hleft
    exact ⟨r, hr, hmiss, rfl⟩
  of_neither hright hleft := (hx.of_neither hright hleft).bind hf

theorem isRejected_singleton {r : Requirement} {x : Operand} :
    x.IsRejected [r] ↔ ¬ r.IsMet x.value := by
  simp [Operand.IsRejected]

theorem not_isTypeError_divideByZero (position : Nat) :
    ¬ (EvalError.divideByZero position).IsTypeError := by
  rintro ⟨text, p, r, h⟩
  cases h

/-! ## Pairs of operands -/

/-- An operand is read by a computation that fails only if the operand misses a requirement. -/
def Operand.IsReadBy (x : Operand) (r : Requirement) (outcome : Except EvalError α) : Prop :=
  (r.IsMet x.value ∧ ∃ a, outcome = .ok a) ∨
    (¬ r.IsMet x.value ∧ outcome = .error (x.reject r))

theorem isReadBy_expectNumber (x : Operand) : x.IsReadBy .number x.expectNumber := by
  obtain ⟨value, text, position⟩ := x
  cases value with
  | int n => exact .inl ⟨rfl, _, rfl⟩
  | float y => exact .inl ⟨rfl, _, rfl⟩
  | raw s => exact .inr ⟨Bool.false_ne_true, rfl⟩

theorem isReadBy_expectInteger (x : Operand) : x.IsReadBy .integer x.expectInteger := by
  obtain ⟨value, text, position⟩ := x
  cases value with
  | int n => exact .inl ⟨rfl, n, rfl⟩
  | float y => exact .inr ⟨Bool.false_ne_true, rfl⟩
  | raw s => exact .inr ⟨Bool.false_ne_true, rfl⟩

/-- Reading the right operand, and then the left one, names the right one first. -/
theorem rightFirst_of_isReadBy {r : Requirement} {readLeft readRight : Except EvalError α}
    (hl : left.IsReadBy r readLeft) (hr : right.IsReadBy r readRight) (pair : α → α → β) :
    RightFirst [r] [r] left right
      (readRight >>= fun b => readLeft >>= fun a => .ok (pair a b)) := by
  rcases hr with ⟨hmet, b, rfl⟩ | ⟨hmiss, rfl⟩
  · have hright : ¬ right.IsRejected [r] := fun h => isRejected_singleton.1 h hmet
    rcases hl with ⟨hmet, a, rfl⟩ | ⟨hmiss, rfl⟩
    · exact ⟨fun h => absurd h hright, fun _ h => absurd hmet (isRejected_singleton.1 h),
        fun _ _ => failsWith_ok _⟩
    · exact ⟨fun h => absurd h hright, fun _ _ => ⟨r, by simp, hmiss, rfl⟩,
        fun _ h => absurd (isRejected_singleton.2 hmiss) h⟩
  · have hright : right.IsRejected [r] := isRejected_singleton.2 hmiss
    exact ⟨fun _ => ⟨r, by simp, hmiss, rfl⟩, fun h => absurd hright h, fun h => absurd hright h⟩

theorem rightFirst_numberPair (left right : Operand) :
    RightFirst [.number] [.number] left right (numberPair left right) := by
  -- two integers are kept as such; else the pair is what was read
  obtain ⟨pair, hpair⟩ : ∃ pair : Float → Float → NumberPair, numberPair left right
      = (right.expectNumber >>= fun r => left.expectNumber >>= fun l => .ok (pair l r)) := by
    rcases left with ⟨m | _ | _, _, _⟩ <;> rcases right with ⟨n | _ | _, _, _⟩
    case int.int => exact ⟨fun _ _ => .ints m n, rfl⟩
    all_goals exact ⟨.floats, rfl⟩
  rw [hpair]
  exact rightFirst_of_isReadBy (isReadBy_expectNumber left) (isReadBy_expectNumber right) pair

theorem rightFirst_integerPair (left right : Operand) :
    RightFirst [.integer] [.integer] left right (integerPair left right) :=
  rightFirst_of_isReadBy (isReadBy_expectInteger left) (isReadBy_expectInteger right) Prod.mk

/-! ## Shifts -/

theorem isInt_eq_false_iff {v : Value} : v.isInt = false ↔ ¬ Requirement.integer.IsMet v := by
  rw [Requirement.IsMet, Bool.not_eq_true]

theorem exists_of_isInt {v : Value} (h : v.isInt = true) : ∃ n, v = .int n := by
  cases v with
  | int n => exact ⟨n, rfl⟩
  | float | raw => cases h

theorem shiftPair_of_right (h : right.value.isInt = false) :
    shiftPair left right = .error (right.reject .integer) := by
  obtain ⟨value, text, position⟩ := right
  cases value with
  | int n => cases h
  | float | raw => rfl

/-- A left operand that is no integer is found before the sign of the count. -/
theorem shiftPair_of_left {count : Int64} (hr : right.value = .int count)
    (hl : left.value.isInt = false) : shiftPair left right = .error (left.reject .integer) := by
  obtain ⟨value, text, position⟩ := left
  obtain ⟨_, rtext, rposition⟩ := right
  subst hr
  cases value with
  | int n => cases hl
  | float | raw => rfl

theorem shiftPair_of_isInt {n count : Int64} (hr : right.value = .int count)
    (hl : left.value = .int n) : shiftPair left right
      = if count < 0 then .error (right.reject .nonNegative) else .ok (n, count) := by
  obtain ⟨_, text, position⟩ := left
  obtain ⟨_, rtext, rposition⟩ := right
  subst hl hr
  rfl

theorem nonNegative_isMet_int {n : Int64} : Requirement.nonNegative.IsMet (.int n) ↔ ¬ n < 0 := by
  rw [Int64.not_lt]
  exact ⟨fun h => h n rfl, fun h m hm => by cases hm; exact h⟩

/-- The sign of the count is looked at last, which matters only beside a left operand that is
rejected too. -/
theorem rightFirst_shiftPair
    (h : left.value.isInt = false → ∀ n, right.value = .int n → ¬ n < 0) :
    RightFirst [.integer] [.integer, .nonNegative] left right (shiftPair left right) := by
  -- In the order in which the operands are looked at: the kind of the right one, the kind of the
  -- left one, the sign of the count.
  cases hr : right.value.isInt with
  | false =>
    have hmiss := isInt_eq_false_iff.1 hr
    have hrej : right.IsRejected [.integer, .nonNegative] := ⟨.integer, by simp, hmiss⟩
    exact ⟨fun _ => ⟨.integer, by simp, hmiss, shiftPair_of_right hr⟩, fun h => absurd hrej h,
      fun h => absurd hrej h⟩
  | true =>
    obtain ⟨count, hcount⟩ := exists_of_isInt hr
    have hrej : right.IsRejected [.integer, .nonNegative] ↔ count < 0 := by
      simp only [Operand.IsRejected, List.mem_cons, List.not_mem_nil, or_false, exists_eq_or_imp,
        exists_eq_left, hcount, nonNegative_isMet_int, Decidable.not_not]
      exact or_iff_right fun h => h rfl
    cases hl : left.value.isInt with
    | false =>
      have hright := mt hrej.1 (h hl count hcount)
      have hmiss := isInt_eq_false_iff.1 hl
      exact ⟨fun h => absurd h hright,
        fun _ _ => ⟨.integer, by simp, hmiss, shiftPair_of_left hcount hl⟩,
        fun _ h => absurd (isRejected_singleton.2 hmiss) h⟩
    | true =>
      obtain ⟨n, hn⟩ := exists_of_isInt hl
      have hleft : ¬ left.IsRejected [.integer] := fun h => isRejected_singleton.1 h hl
      rw [shiftPair_of_isInt hcount hn]
      refine ⟨fun hright => ⟨.nonNegative, by simp, ?_, if_pos (hrej.1 hright)⟩,
        fun _ h => absurd h hleft, fun hright _ => ?_⟩
      · rw [hcount, nonNegative_isMet_int, Decidable.not_not]
        exact hrej.1 hright
      · rw [if_neg (mt hrej.2 hright)]
        exact failsWith_ok _

/-! ## Operators and functions -/

namespace BinaryBuiltin

theorem rightFirst_arithmetic (onInts : Int64 → Int64 → Int64) (onFloats : Float → Float → Float) :
    RightFirst [.number] [.number] left right (arithmetic onInts onFloats left right) := by
  refine (rightFirst_numberPair left right).bind fun pair => ?_
  cases pair <;> exact failsWith_ok _

theorem rightFirst_divide (position : Nat) :
    RightFirst [.number] [.number] left right (divide position left right) := by
  refine (rightFirst_numberPair left right).bind fun pair => ?_
  cases pair with
  | ints l r =>
    show FailsWith _ (if r = 0 then .error _ else .ok (Value.int (l / r)))
    split
    · exact failsWith_error (not_isTypeError_divideByZero position)
    · exact failsWith_ok _
  | floats l r => exact failsWith_ok _

theorem rightFirst_remainder (position : Nat) :
    RightFirst [.integer] [.integer] left right (remainder position left right) := by
  refine (rightFirst_integerPair left right).bind fun (l, r) => ?_
  show FailsWith _ (if r = 0 then .error _ else .ok (Value.int (l % r)))
  split
  · exact failsWith_error (not_isTypeError_divideByZero position)
  · exact failsWith_ok _

theorem rightFirst_combine (b : BinaryBuiltin) (position : Nat)
    (h : ¬ b.OverlooksCount left right) :
    RightFirst b.leftRequirements b.rightRequirements left right
      (b.combine position left right) := by
  cases b with
  | add | sub | mul => exact rightFirst_arithmetic _ _
  | div => exact rightFirst_divide position
  | rem => exact rightFirst_remainder position
  | bitAnd | bitOr | bitXor | max | min | logicalAnd | logicalOr | less | greater | lessEqual
  | greaterEqual => exact (rightFirst_integerPair left right).bind fun _ => failsWith_ok _
  | shiftLeft | shiftRight =>
    refine RightFirst.bind (rightFirst_shiftPair ?_) fun _ => failsWith_ok _
    exact fun hl n hn hneg => h ⟨rfl, hl, n, hn, hneg⟩
  | equal | notEqual =>
    have hnone : ∀ x : Operand, ¬ x.IsRejected [] := by simp [Operand.IsRejected]
    exact ⟨fun hright => absurd hright (hnone right), fun _ hleft => absurd hleft (hnone left),
      fun _ _ => failsWith_ok _⟩

/-- Beside a left operand that is no integer, the sign of a shift count is not looked at. -/
theorem combine_of_overlooksCount {b : BinaryBuiltin} (position : Nat)
    (h : b.OverlooksCount left right) :
    b.combine position left right = .error (left.reject .integer) := by
  obtain ⟨hshift, hl, n, hn, -⟩ := h
  have hpair := shiftPair_of_left hn hl
  rw [isShift, Bool.or_eq_true, beq_iff_eq, beq_iff_eq] at hshift
  rcases hshift with rfl | rfl <;> rw [combine, shift, hpair] <;> rfl

/-- Then the right operand is rejected, but not named. -/
theorem not_rightFirst_of_overlooksCount {b : BinaryBuiltin} (position : Nat)
    (h : b.OverlooksCount left right) :
    ¬ RightFirst b.leftRequirements b.rightRequirements left right
      (b.combine position left right) := by
  intro hfirst
  have hcombine := combine_of_overlooksCount position h
  obtain ⟨hshift, -, n, hn, hneg⟩ := h
  have hrej : ¬ Requirement.nonNegative.IsMet right.value := by
    rw [hn, nonNegative_isMet_int]
    exact not_not_intro hneg
  obtain ⟨r, -, hmiss, herror⟩ := hfirst.of_right
    ⟨.nonNegative, by rw [rightRequirements, if_pos hshift]; simp, hrej⟩
  -- the right operand is an integer, so its error is another one
  rw [hcombine] at herror
  injection herror with herror
  injection herror with _ _ hinteger
  rw [← hinteger, hn] at hmiss
  exact hmiss rfl

end BinaryBuiltin

/-- **Of two operands the right one is validated before the left one**, by every operator and
function that is built in, but for a negative shift count beside a left operand that is no integer:
then the left one is named. -/
theorem rightFirst_operation_iff (b : BinaryBuiltin) (t : Token) (left right : Operand)
    (s : OperandStack) :
    let outcome := ((b.operation t).run.run (right :: left :: s)).1
    (RightFirst b.leftRequirements b.rightRequirements left right outcome ↔
        ¬ b.OverlooksCount left right) ∧
      (b.OverlooksCount left right → outcome = .error (left.reject .integer)) := by
  rw [run_operation]
  exact ⟨⟨fun h hover => BinaryBuiltin.not_rightFirst_of_overlooksCount _ hover h,
    BinaryBuiltin.rightFirst_combine b _⟩, BinaryBuiltin.combine_of_overlooksCount _⟩

/-- In `1.5 << (0 - 1)` both operands are rejected, and the error names the left one. -/
theorem rightFirst_overlooked :
    let left : Operand := ⟨.float 1.5, "1.5", 0⟩
    let right : Operand := ⟨.int (-1), "-1", 10⟩
    right.IsRejected BinaryBuiltin.shiftLeft.rightRequirements ∧
      ((BinaryBuiltin.shiftLeft.operation ⟨.operator, "<<", 4⟩).run.run [right, left]).1
        = .error (.typeError "1.5" 0 .integer) ∧
      eval .default "1.5 << (0 - 1)" = .error (.typeError "1.5" 0 .integer) := by
  refine ⟨⟨.nonNegative, by simp [BinaryBuiltin.rightRequirements, BinaryBuiltin.isShift], ?_⟩,
    rfl, by decide +kernel⟩
  exact fun h => absurd (h (-1) rfl) (by decide)

end RightFirst

end Formula
