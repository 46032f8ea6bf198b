import Formula.Decimal.Layout
import Formula.Proofs.Decimal.Digits
import Formula.Proofs.Decimal.Numeral
import Mathlib.Data.List.DropRight
import Mathlib.Algebra.Order.Field.Power
import Mathlib.Data.Rat.Cast.Order
import Mathlib.Tactic.NormNum

/-!
# The numeral that is written

The text that a layout writes is the spelling of a numeral, whose parts tell what the text shows.

* `IsSignificant ds`: digits with no zero at either end. `Decimal.isSignificant_significant`,
  `Decimal.toRat_significant`: such are the significant digits of a decimal, and with the power of
  ten of the first of them they denote it.
* `Numeral.IsScientific`, `Numeral.IsPlain`, `Numeral.IsTrimmed`: how a numeral looks.
* `Layout.numeral l d`: the parts of what is written. `Layout.spelling_numeral` says that they are;
  `Layout.toRat_numeral`, `Layout.isTrimmed_numeral`, `Layout.isScientific_numeral` and
  `Layout.isPlain_numeral` what they denote and how they look.
-/

namespace Formula

/-! ## Significant digits -/

/-- At least one digit, and no zero at either end. -/
structure IsSignificant (ds : List Char) : Prop where
  digits : ∀ c ∈ ds, c.isDigit = true
  ne_nil : ds ≠ []
  head : ds.head? ≠ some '0'
  last : ds.getLast? ≠ some '0'

theorem IsSignificant.exists_cons {ds : List Char} (h : IsSignificant ds) :
    ∃ c cs, ds = c :: cs ∧ c ≠ '0' := by
  obtain ⟨c, cs, rfl⟩ := List.exists_cons_of_ne_nil h.ne_nil
  exact ⟨c, cs, rfl, fun hc => h.head (congrArg some hc)⟩

namespace Decimal

variable {d : Decimal}

/-- The digits that are left away are zeros. -/
theorem exists_toDigits_eq (d : Decimal) :
    ∃ k, Nat.toDigits 10 d.digits = d.significant ++ List.replicate k '0' := by
  refine ⟨((Nat.toDigits 10 d.digits).rtakeWhile (· == '0')).length, ?_⟩
  have hzeros := List.eq_replicate_of_mem fun c hc =>
    eq_of_beq (List.mem_rtakeWhile_imp (p := (· == '0')) (l := Nat.toDigits 10 d.digits) hc)
  rw [← hzeros]
  exact List.rdropWhile_append_rtakeWhile.symm

theorem isSignificant_significant (h : 0 < d.digits) : IsSignificant d.significant := by
  obtain ⟨k, hk⟩ := d.exists_toDigits_eq
  have hne : d.significant ≠ [] := by
    intro hnil
    have hread := readDigits_toDigits d.digits
    rw [hk, hnil, List.nil_append, readDigits_zeros] at hread
    omega
  refine ⟨fun c hc => ?_, hne, ?_, ?_⟩
  · refine Nat.isDigit_of_mem_toDigits (b := 10) (n := d.digits) (by decide) (by decide) ?_
    rw [hk]
    exact List.mem_append_left _ hc
  · have hhead := head?_toDigits h
    obtain ⟨c, cs, hcs⟩ := List.exists_cons_of_ne_nil hne
    rw [hk, hcs] at hhead
    rw [hcs]
    exact hhead
  · have hlast := List.rdropWhile_last_not (· == '0') (Nat.toDigits 10 d.digits) hne
    rw [List.getLast?_eq_some_getLast hne]
    exact fun h => hlast (beq_iff_eq.2 (Option.some.inj h))

/-- The significant digits and the power of ten of the first of them denote the decimal. -/
theorem toRat_significant (d : Decimal) :
    toRat ⟨readDigits d.significant, d.leading + 1 - d.significant.length⟩ = d.toRat := by
  obtain ⟨k, hk⟩ := d.exists_toDigits_eq
  have hdigits : d.digits = readDigits d.significant * 10 ^ k := by
    rw [← readDigits_toDigits d.digits, hk, readDigits_append, readDigits_zeros, Nat.add_zero,
      List.length_replicate]
  have hleading : d.leading + 1 - d.significant.length = k + d.exponent := by
    rw [leading, ← length_toDigits, hk, List.length_append, List.length_replicate]
    push_cast
    omega
  rw [toRat, toRat, hleading, hdigits, zpow_add₀ (by norm_num), zpow_natCast]
  push_cast
  ring

end Decimal

/-! ## How a numeral looks -/

namespace Numeral

/-- No zero stands at the end of the fraction, and no point without a fraction. -/
def IsTrimmed (n : Numeral) : Prop :=
  ∀ ds ∈ n.fraction, ds ≠ [] ∧ ds.getLast? ≠ some '0'

/-- One digit before the point, which is not zero, and an exponent of value `e` with its sign and at
least `width` digits, of which the first is no zero if there are more than these. -/
structure IsScientific (n : Numeral) (width : Nat) (e : Int) : Prop where
  whole : ∃ c, n.whole = [c] ∧ c ≠ '0'
  exponent : ∃ x ∈ n.exponent, x.value = e ∧ x.mark = 'e' ∧
    x.sign = [if e < 0 then '-' else '+'] ∧ width ≤ x.digits.length ∧
    (width < x.digits.length → x.digits.head? ≠ some '0')

/-- No exponent, and the first digit that is not zero has the place of `10 ^ e`: behind the point, a
single zero, and the zeros that lead up to it; or as the first of all digits up to the units. -/
structure IsPlain (n : Numeral) (e : Int) : Prop where
  exponent : n.exponent = none
  behind : e < 0 → n.whole = ['0'] ∧
    ∃ ds, n.fraction = some (List.replicate (-e - 1).toNat '0' ++ ds) ∧ ds.head? ≠ some '0'
  before : 0 ≤ e → n.whole.length = e + 1 ∧ n.whole.head? ≠ some '0'

/-- A numeral with digits before the point begins with a digit. -/
theorem head?_spelling {n : Numeral} (hn : n.IsSpelled) (hne : n.whole ≠ []) :
    ∃ c, n.spelling.head? = some c ∧ c.isDigit = true := by
  obtain ⟨c, cs, hcs⟩ := List.exists_cons_of_ne_nil hne
  refine ⟨c, ?_, hn.whole c (by simp [hcs])⟩
  rw [spelling, hcs]
  rfl

end Numeral

/-! ## The parts of what is written -/

namespace Layout

/-- Digits behind a point, if there are any. -/
def fractionOf (ds : List Char) : Option (List Char) := if ds.isEmpty then none else some ds

/-- The exponent of a number in scientific notation. -/
def exponentOf (l : Layout) (e : Int) : Exponent :=
  let ds := Nat.toDigits 10 e.natAbs
  ⟨'e', [if e < 0 then '-' else '+'], List.replicate (l.exponentWidth - ds.length) '0' ++ ds⟩

/-- The parts of scientific notation. -/
def scientificNumeral (l : Layout) (ds : List Char) (e : Int) : Numeral :=
  ⟨ds.take 1, fractionOf (ds.drop 1), some (l.exponentOf e)⟩

/-- The parts of plain notation. -/
def plainNumeral (ds : List Char) (e : Int) : Numeral :=
  if e < 0 then ⟨['0'], some (List.replicate (-e - 1).toNat '0' ++ ds), none⟩
  else
    let n := e.toNat + 1
    ⟨ds.take n ++ List.replicate (n - ds.length) '0', fractionOf (ds.drop n), none⟩

/-- The parts of what a layout writes. -/
def numeral (l : Layout) (d : Decimal) : Numeral :=
  if d.leading < l.leastPlain ∨ (l.precision : Int) ≤ d.leading then
    l.scientificNumeral d.significant d.leading
  else plainNumeral d.significant d.leading

variable {l : Layout} {d : Decimal} {ds : List Char} {e : Int}

theorem joinFraction_eq (whole ds : List Char) :
    joinFraction whole ds = whole ++ (fractionOf ds).elim [] ('.' :: ·) := by
  cases ds with
  | nil => exact (List.append_nil whole).symm
  | cons c ds => rfl

/-- What is written is the spelling of its parts. -/
theorem spelling_numeral (l : Layout) (d : Decimal) : (l.numeral d).spelling = l.write d := by
  rw [numeral, write_eq]
  split
  · rw [scientificNumeral, scientific, Numeral.spelling, joinFraction_eq]
    rfl
  · rw [plainNumeral, plain]
    split
    · simp [Numeral.spelling]
    · simp only [Numeral.spelling, joinFraction_eq, Option.elim_none, List.append_nil]

/-! ### Spelling -/

theorem mem_fractionOf {front : List Char} : ds ∈ fractionOf front ↔ ds = front ∧ ds ≠ [] := by
  cases front with
  | nil => simp [fractionOf]
  | cons c front =>
    simp only [fractionOf, List.isEmpty_cons, Bool.false_eq_true, if_false, Option.mem_some_iff]
    exact ⟨by rintro rfl; exact ⟨rfl, List.cons_ne_nil _ _⟩, fun h => h.1.symm⟩

theorem isDigit_of_mem_zeros {k : Nat} {c : Char} (h : c ∈ List.replicate k '0') :
    c.isDigit = true := by
  rw [List.eq_of_mem_replicate h]
  rfl

theorem isSpelled_exponentOf (l : Layout) (e : Int) : (l.exponentOf e).IsSpelled where
  mark := .inl rfl
  sign := by
    unfold exponentOf
    dsimp only
    split
    · exact .inr (.inr rfl)
    · exact .inr (.inl rfl)
  digits := by
    intro c hc
    rcases List.mem_append.1 hc with hc | hc
    · exact isDigit_of_mem_zeros hc
    · exact Nat.isDigit_of_mem_toDigits (by decide) (by decide) hc

theorem isSpelled_scientificNumeral (h : IsSignificant ds) :
    (l.scientificNumeral ds e).IsSpelled where
  whole := fun c hc => h.digits c (List.mem_of_mem_take hc)
  fraction := by
    intro ds' hds' c hc
    obtain ⟨rfl, -⟩ := mem_fractionOf.1 hds'
    exact h.digits c (List.mem_of_mem_drop hc)
  exponent := by
    rintro x ⟨⟩
    exact isSpelled_exponentOf l e

theorem isSpelled_plainNumeral (h : IsSignificant ds) : (plainNumeral ds e).IsSpelled := by
  unfold plainNumeral
  split
  · refine ⟨fun c hc => by rw [List.mem_singleton.1 hc]; rfl, ?_, nofun⟩
    rintro ds' ⟨⟩ c hc
    rcases List.mem_append.1 hc with hc | hc
    · exact isDigit_of_mem_zeros hc
    · exact h.digits c hc
  · refine ⟨fun c hc => ?_, fun ds' hds' c hc => ?_, nofun⟩
    · rcases List.mem_append.1 hc with hc | hc
      · exact h.digits c (List.mem_of_mem_take hc)
      · exact isDigit_of_mem_zeros hc
    · obtain ⟨rfl, -⟩ := mem_fractionOf.1 hds'
      exact h.digits c (List.mem_of_mem_drop hc)

theorem isSpelled_numeral (h : 0 < d.digits) : (l.numeral d).IsSpelled := by
  have hds := Decimal.isSignificant_significant h
  unfold numeral
  split
  · exact isSpelled_scientificNumeral hds
  · exact isSpelled_plainNumeral hds

/-! ### Value -/

theorem getD_fractionOf (ds : List Char) : (fractionOf ds).getD [] = ds := by
  cases ds <;> rfl

theorem value_exponentOf (l : Layout) (e : Int) : (l.exponentOf e).value = e := by
  have hread : readDigits (List.replicate (l.exponentWidth - (Nat.toDigits 10 e.natAbs).length) '0'
      ++ Nat.toDigits 10 e.natAbs) = e.natAbs := by
    rw [readDigits_append, readDigits_zeros, Nat.zero_mul, Nat.zero_add, readDigits_toDigits]
  unfold Exponent.value exponentOf
  dsimp only
  rw [hread]
  by_cases he : e < 0
  · rw [if_pos he, if_pos rfl]
    omega
  · rw [if_neg he, if_neg (by decide)]
    omega

theorem toDecimal_scientificNumeral (hne : ds ≠ []) :
    (l.scientificNumeral ds e).toDecimal = ⟨readDigits ds, e + 1 - ds.length⟩ := by
  have hlength := List.length_pos_of_ne_nil hne
  simp only [Numeral.toDecimal, scientificNumeral, getD_fractionOf, List.take_append_drop,
    Option.elim_some, value_exponentOf, List.length_drop, Decimal.mk.injEq, true_and]
  omega

theorem toRat_plainNumeral (ds : List Char) (e : Int) :
    (plainNumeral ds e).toDecimal.toRat = Decimal.toRat ⟨readDigits ds, e + 1 - ds.length⟩ := by
  unfold plainNumeral
  split
  · next he =>
    have hzero : readDigits ['0'] = 0 := rfl
    have hexp : (0 : Int) - ((-e - 1).toNat + ds.length : Nat) = e + 1 - ds.length := by omega
    simp only [Numeral.toDecimal, Option.getD_some, Option.elim_none, readDigits_append, hzero,
      readDigits_zeros, Nat.zero_mul, Nat.zero_add, List.length_append, List.length_replicate, hexp]
  · next he =>
    obtain ⟨n, rfl⟩ := Int.eq_ofNat_of_zero_le (not_lt.1 he)
    simp only [Numeral.toDecimal, getD_fractionOf, Option.elim_none, Int.toNat_natCast,
      List.length_drop]
    rcases Nat.lt_or_ge ds.length (n + 1) with hlt | hge
    · -- zeros fill up to the units
      have hexp : (n : Int) + 1 - ds.length = ((n + 1 - ds.length : Nat) : Int) := by omega
      have hexp0 : (0 : Int) - ((ds.length - (n + 1) : Nat) : Int) = 0 := by omega
      rw [List.take_of_length_le hlt.le, List.drop_of_length_le hlt.le, List.append_nil,
        readDigits_append, readDigits_zeros, List.length_replicate, Nat.add_zero, Decimal.toRat,
        Decimal.toRat, hexp, hexp0, zpow_natCast]
      push_cast
      ring
    · have hexp : (0 : Int) - ((ds.length - (n + 1) : Nat) : Int) = n + 1 - ds.length := by omega
      rw [Nat.sub_eq_zero_of_le hge, List.replicate_zero, List.append_nil, List.take_append_drop,
        hexp]

/-- The parts denote the decimal. -/
theorem toRat_numeral (h : 0 < d.digits) : (l.numeral d).toDecimal.toRat = d.toRat := by
  rw [← d.toRat_significant]
  unfold numeral
  split
  · rw [toDecimal_scientificNumeral (Decimal.isSignificant_significant h).ne_nil]
  · exact toRat_plainNumeral _ _

/-! ### Look -/

theorem getLast?_drop_ne (h : IsSignificant ds) {n : Nat} (hne : ds.drop n ≠ []) :
    (ds.drop n).getLast? ≠ some '0' := by
  have happend := List.take_append_drop n ds
  have hlast := h.last
  rw [← happend, List.getLast?_append_of_ne_nil _ hne] at hlast
  exact hlast

theorem isTrimmed_numeral (h : 0 < d.digits) : (l.numeral d).IsTrimmed := by
  have hds := Decimal.isSignificant_significant h
  intro front hfront
  unfold numeral at hfront
  split at hfront
  · obtain ⟨rfl, hne⟩ := mem_fractionOf.1 hfront
    exact ⟨hne, getLast?_drop_ne hds hne⟩
  · unfold plainNumeral at hfront
    split at hfront
    · cases hfront
      refine ⟨List.append_ne_nil_of_right_ne_nil _ hds.ne_nil, ?_⟩
      rw [List.getLast?_append_of_ne_nil _ hds.ne_nil]
      exact hds.last
    · obtain ⟨rfl, hne⟩ := mem_fractionOf.1 hfront
      exact ⟨hne, getLast?_drop_ne hds hne⟩

/-- Zeros in front only fill the exponent up to its least width. -/
theorem head?_exponentOf (hwidth : 0 < l.exponentWidth)
    (hlong : l.exponentWidth < (l.exponentOf e).digits.length) :
    (l.exponentOf e).digits.head? ≠ some '0' := by
  unfold exponentOf at *
  dsimp only at *
  rw [List.length_append, List.length_replicate] at hlong
  have hfill : l.exponentWidth - (Nat.toDigits 10 e.natAbs).length = 0 := by omega
  rw [hfill, List.replicate_zero, List.nil_append]
  refine head?_toDigits (Nat.pos_of_ne_zero fun hzero => ?_)
  rw [hzero] at hlong
  have hlength : (Nat.toDigits 10 0).length = 1 := rfl
  omega

theorem isScientific_numeral (h : 0 < d.digits) (hwidth : 0 < l.exponentWidth)
    (hfar : d.leading < l.leastPlain ∨ (l.precision : Int) ≤ d.leading) :
    (l.numeral d).IsScientific l.exponentWidth d.leading := by
  rw [numeral, if_pos hfar]
  refine ⟨?_, l.exponentOf d.leading, rfl, value_exponentOf l d.leading, rfl, rfl, ?_, ?_⟩
  · obtain ⟨c, cs, hcs, hc⟩ := (Decimal.isSignificant_significant h).exists_cons
    rw [hcs]
    exact ⟨c, rfl, hc⟩
  · simp only [exponentOf, List.length_append, List.length_replicate]
    omega
  · exact head?_exponentOf hwidth

theorem isPlain_numeral (h : 0 < d.digits)
    (hnear : ¬ (d.leading < l.leastPlain ∨ (l.precision : Int) ≤ d.leading)) :
    (l.numeral d).IsPlain d.leading := by
  have hds := Decimal.isSignificant_significant h
  rw [numeral, if_neg hnear, plainNumeral]
  split
  · next he =>
    exact ⟨rfl, fun _ => ⟨rfl, _, rfl, hds.head⟩, fun hge => absurd he (not_lt.2 hge)⟩
  · next he =>
    refine ⟨rfl, fun hlt => absurd hlt he, fun hge => ⟨?_, ?_⟩⟩
    · simp only [List.length_append, List.length_take, List.length_replicate]
      omega
    · obtain ⟨c, cs, hcs, hc⟩ := hds.exists_cons
      rw [hcs]
      exact fun h => hc (Option.some.inj h)

theorem whole_numeral_ne_nil (h : 0 < d.digits) : (l.numeral d).whole ≠ [] := by
  obtain ⟨c, cs, hcs, -⟩ := (Decimal.isSignificant_significant h).exists_cons
  unfold numeral
  split
  · rw [hcs]
    exact List.cons_ne_nil c _
  · rw [plainNumeral]
    split
    · exact List.cons_ne_nil '0' _
    · rw [hcs]
      exact List.cons_ne_nil c _

/-- An exponent is written with a small mark and with digits. -/
theorem exponent_numeral {x : Exponent} (h : x ∈ (l.numeral d).exponent) :
    x.mark = 'e' ∧ x.digits ≠ [] := by
  unfold numeral at h
  split at h
  · cases h
    exact ⟨rfl, List.append_ne_nil_of_right_ne_nil _ Nat.toDigits_ne_nil⟩
  · rw [plainNumeral] at h
    split at h <;> cases h

/-- Without a point and an exponent, notation is plain. -/
theorem leading_lt_of_isWhole (h : (l.numeral d).isWhole = true) : d.leading < l.precision := by
  unfold numeral at h
  split at h
  · rw [Numeral.isWhole, scientificNumeral, Option.isNone_some, Bool.and_false] at h
    cases h
  · next hnear => exact not_le.1 fun hle => hnear (.inr hle)

/-! ### Length -/

theorem length_joinFraction_le (whole ds : List Char) :
    (joinFraction whole ds).length ≤ whole.length + ds.length + 1 := by
  cases ds with
  | nil => exact Nat.le_succ whole.length
  | cons c ds =>
    rw [joinFraction, List.isEmpty_cons, if_neg Bool.false_ne_true, List.length_append,
      List.length_cons]
    omega

theorem length_significant_le (d : Decimal) : d.significant.length ≤ digitCount 10 d.digits := by
  obtain ⟨k, hk⟩ := d.exists_toDigits_eq
  rw [← length_toDigits, hk, List.length_append]
  exact Nat.le_add_right _ _

theorem length_toDigits_le (n : Nat) : (Nat.toDigits 10 n).length ≤ n + 1 :=
  (Nat.length_toDigits_le_iff (by decide) (Nat.succ_pos n)).2
    ((Nat.lt_succ_self n).trans (Nat.lt_pow_self (by decide)))

/-- Neither the zeros of plain notation nor the exponent of scientific notation take more characters
than the order of magnitude counts. -/
theorem length_write_le (l : Layout) (d : Decimal) :
    (l.write d).length
      ≤ digitCount 10 d.digits + d.leading.natAbs + l.exponentWidth + 4 := by
  have hds := length_significant_le d
  rw [write_eq]
  split
  · have hjoin := length_joinFraction_le (d.significant.take 1) (d.significant.drop 1)
    have hexp := length_toDigits_le d.leading.natAbs
    rw [List.length_take, List.length_drop] at hjoin
    simp only [scientific, writeExponent, List.length_append, List.length_cons,
      List.length_replicate]
    omega
  · unfold plain
    split
    · simp only [List.length_append, List.length_cons, List.length_replicate]
      omega
    · refine (length_joinFraction_le _ _).trans ?_
      rw [List.length_append, List.length_take, List.length_replicate, List.length_drop]
      omega

end Layout

end Formula
