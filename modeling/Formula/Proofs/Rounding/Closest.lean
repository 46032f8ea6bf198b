import Formula.Proofs.Rounding.Decimal

/-!
# The closest decimal of so many digits

* `NearestEven.dist_le`, `NearestEven.tie`: the nearest integer, by its distance.
* `Decimal.IsClosest n q d`: of all decimals of exactly `n` digits, `d` is the closest to `q`; of
  two that are equally close the one whose last digit is even.
* `Decimal.exists_isClosest`: rounding finds it, up to a zero at the end.
  `Decimal.IsClosest.unique`: there is only one.

A decimal of a smaller order of magnitude is never as close. Of the same or of a larger one, it is a
multiple of the unit to which the number is rounded, so its distance is that of an integer.
-/

namespace Formula

/-! ## The nearest integer -/

section NearestEven

variable {q : Rat} {m k : Int}

theorem NearestEven.abs_sub_le (h : NearestEven q m) : |(m : Rat) - q| ≤ 1 / 2 :=
  abs_le.2 ⟨by linarith [h.sub_le], by linarith [h.le_add]⟩

/-- An integer that is less than a half away is the nearest one. -/
theorem NearestEven.eq_of_abs_lt (h : NearestEven q m) (hk : |(k : Rat) - q| < 1 / 2) : k = m := by
  obtain ⟨hgt, hlt⟩ := abs_lt.1 hk
  exact (nearestEven_of_lt (by linarith) (by linarith)).unique h

/-- No integer is nearer. -/
theorem NearestEven.dist_le (h : NearestEven q m) (k : Int) :
    |(m : Rat) - q| ≤ |(k : Rat) - q| := by
  by_contra hlt
  have hlt := not_le.1 hlt
  rw [h.eq_of_abs_lt (hlt.trans_le h.abs_sub_le)] at hlt
  exact lt_irrefl _ hlt

/-- If another one is as near, it is odd and the nearest one is even. -/
theorem NearestEven.tie (h : NearestEven q m) (hk : |(k : Rat) - q| = |(m : Rat) - q|)
    (hne : k ≠ m) : m % 2 = 0 ∧ k % 2 = 1 := by
  have hhalf : |(m : Rat) - q| = 1 / 2 :=
    h.abs_sub_le.eq_of_not_lt fun hlt => hne (h.eq_of_abs_lt (hk.trans_lt hlt))
  rw [hhalf] at hk
  have heven : m % 2 = 0 := by
    refine h.even ?_
    rcases (abs_eq (by norm_num)).1 hhalf with hm | hm
    · exact .inl (by linarith)
    · exact .inr (by linarith)
  -- both are half a unit away, on different sides
  have hneighbour : (k : Rat) = m + 1 ∨ (m : Rat) = k + 1 := by
    have hne : (k : Rat) ≠ m := by exact_mod_cast hne
    rcases (abs_eq (by norm_num)).1 hhalf with hm | hm <;>
      rcases (abs_eq (by norm_num)).1 hk with hk | hk
    · exact absurd (by linarith) hne
    · exact .inr (by linarith)
    · exact .inl (by linarith)
    · exact absurd (by linarith) hne
  rcases hneighbour with hkm | hkm
  · have hkm : k = m + 1 := by exact_mod_cast hkm
    omega
  · have hkm : m = k + 1 := by exact_mod_cast hkm
    omega

end NearestEven

/-! ## Decimals of so many digits -/

namespace Decimal

/-- Exactly `n` digits, of which the first is not zero. -/
def HasDigits (n : Nat) (d : Decimal) : Prop := 10 ^ (n - 1) ≤ d.digits ∧ d.digits < 10 ^ n

/-- Of all decimals of `n` digits the closest to `q`; if another one is as close, the last digit is
even. -/
structure IsClosest (n : Nat) (q : Rat) (d : Decimal) : Prop where
  hasDigits : d.HasDigits n
  dist_le : ∀ d' : Decimal, d'.HasDigits n → |d.toRat - q| ≤ |d'.toRat - q|
  even : ∀ d' : Decimal, d'.HasDigits n → d' ≠ d → |d'.toRat - q| = |d.toRat - q| → d.digits % 2 = 0

variable {n : Nat} {q : Rat} {d d' : Decimal}

theorem HasDigits.bounds (h : d.HasDigits (n + 1)) :
    (10 : Rat) ^ (d.exponent + n) ≤ d.toRat ∧ d.toRat < (10 : Rat) ^ (d.exponent + n + 1) := by
  have hlow : (10 ^ n : Rat) ≤ d.digits := by exact_mod_cast h.1
  have hhigh : (d.digits : Rat) < 10 ^ (n + 1) := by exact_mod_cast h.2
  have hunit : (0 : Rat) < (10 : Rat) ^ d.exponent := zpow_pos (by norm_num) _
  have hpow : ∀ k : Nat, (10 : Rat) ^ (d.exponent + k) = 10 ^ k * (10 : Rat) ^ d.exponent := by
    intro k
    rw [zpow_add₀ (by norm_num), zpow_natCast, mul_comm]
  have hnext := hpow (n + 1)
  push_cast at hnext
  rw [add_assoc, hnext, hpow, toRat]
  exact ⟨mul_le_mul_of_nonneg_right hlow hunit.le, mul_lt_mul_of_pos_right hhigh hunit⟩

/-- A number is written with so many digits in one way only. -/
theorem HasDigits.eq_of_toRat_eq (h : d.HasDigits (n + 1)) (h' : d'.HasDigits (n + 1))
    (heq : d.toRat = d'.toRat) : d = d' := by
  have hb := h.bounds
  have hb' := h'.bounds
  rw [heq] at hb
  have hpos : 0 < d'.toRat := (zpow_pos (by norm_num) _).trans_le hb.1
  have hexp : d.exponent + n = d'.exponent + n :=
    ((log_eq_iff (b := 10) (by decide) hpos).2 hb).symm.trans
      ((log_eq_iff (b := 10) (by decide) hpos).2 hb')
  have hexp : d.exponent = d'.exponent := by omega
  have hunit : (10 : Rat) ^ d'.exponent ≠ 0 := (zpow_pos (by norm_num) _).ne'
  rw [toRat, toRat, hexp] at heq
  have hdigits := mul_right_cancel₀ hunit heq
  obtain ⟨digits, exponent⟩ := d
  obtain ⟨digits', exponent'⟩ := d'
  simp only at hexp hdigits
  rw [hexp, Nat.cast_inj.1 hdigits]

theorem toRat_eq_mul (d : Decimal) :
    d.toRat = ((d.digits : Int) : Rat) * (10 : Rat) ^ d.exponent := by
  rw [toRat, Int.cast_natCast]

/-- A decimal with an exponent from `e` on is a multiple of the unit `10 ^ e`. -/
theorem toRat_eq_mul_unit {e : Int} (he : e ≤ d.exponent) :
    d.toRat = ((d.digits * 10 ^ (d.exponent - e).toNat : Nat) : Int) * (10 : Rat) ^ e := by
  obtain ⟨k, hk⟩ := Int.eq_ofNat_of_zero_le (Int.sub_nonneg.2 he)
  have hexp : d.exponent = e + k := by omega
  rw [toRat, hk, Int.toNat_natCast, hexp, zpow_add₀ (by norm_num), zpow_natCast]
  push_cast
  ring

theorem abs_mul_unit_sub {u : Rat} (hu : 0 < u) (k : Int) :
    |(k : Rat) * u - q| = |(k : Rat) - q / u| * u := by
  have hmul : (k : Rat) * u - q = (k - q / u) * u := by
    rw [sub_mul, div_mul_cancel₀ q hu.ne']
  rw [hmul, abs_mul, abs_of_pos hu]

namespace IsNearest

/-- A decimal of a smaller order of magnitude is farther away than the nearest one. -/
theorem dist_lt_of_exponent_lt (h : IsNearest n q d) (h' : d'.HasDigits (n + 1))
    (he : d'.exponent < d.exponent) : |d.toRat - q| < |d'.toRat - q| := by
  have hunit : (0 : Rat) < (10 : Rat) ^ d.exponent := zpow_pos (by norm_num) _
  -- the power of ten in between is a multiple of the unit
  have hpow : (10 : Rat) ^ (d.exponent + n)
      = (((10 ^ n : Nat) : Int) : Rat) * (10 : Rat) ^ d.exponent := by
    rw [zpow_add₀ (by norm_num), zpow_natCast, mul_comm]
    push_cast
    rfl
  have hle : |d.toRat - q| ≤ |(10 : Rat) ^ (d.exponent + n) - q| := by
    rw [toRat_eq_mul, hpow, abs_mul_unit_sub hunit, abs_mul_unit_sub hunit]
    exact mul_le_mul_of_nonneg_right (h.digits.dist_le _) hunit.le
  have hlt : d'.toRat < (10 : Rat) ^ (d.exponent + n) :=
    h'.bounds.2.trans_le (zpow_le_zpow_right₀ (by norm_num) (by omega))
  have hq := h.le
  rw [abs_of_nonpos (by linarith : (10 : Rat) ^ (d.exponent + n) - q ≤ 0)] at hle
  rw [abs_of_nonpos (by linarith : d'.toRat - q ≤ 0)]
  linarith

/-- No decimal is closer than the nearest one. -/
theorem dist_le (h : IsNearest n q d) (h' : d'.HasDigits (n + 1)) :
    |d.toRat - q| ≤ |d'.toRat - q| := by
  rcases lt_or_ge d'.exponent d.exponent with he | he
  · exact (h.dist_lt_of_exponent_lt h' he).le
  · have hunit : (0 : Rat) < (10 : Rat) ^ d.exponent := zpow_pos (by norm_num) _
    rw [toRat_eq_mul, toRat_eq_mul_unit he, abs_mul_unit_sub hunit, abs_mul_unit_sub hunit]
    exact mul_le_mul_of_nonneg_right (h.digits.dist_le _) hunit.le

/-- If another decimal is as close, its last digit is odd, and that of the nearest one is even. -/
theorem tie (h : IsNearest n q d) (h' : d'.HasDigits (n + 1)) (hne : d'.toRat ≠ d.toRat)
    (heq : |d'.toRat - q| = |d.toRat - q|) : d.digits % 2 = 0 ∧ d'.digits % 2 = 1 := by
  rcases lt_or_ge d'.exponent d.exponent with he | he
  · exact absurd heq (h.dist_lt_of_exponent_lt h' he).ne'
  have hunit : (0 : Rat) < (10 : Rat) ^ d.exponent := zpow_pos (by norm_num) _
  have hmul := toRat_eq_mul_unit he
  rw [hmul, toRat_eq_mul, abs_mul_unit_sub hunit, abs_mul_unit_sub hunit] at heq
  rw [hmul, toRat_eq_mul] at hne
  obtain ⟨hd, hd'⟩ := h.digits.tie (mul_right_cancel₀ hunit.ne' heq) fun hk => hne (by rw [hk])
  have hmod : d'.digits * 10 ^ (d'.exponent - d.exponent).toNat % 2 = 1 := by omega
  exact ⟨by omega, Nat.odd_iff.1 (Nat.odd_mul.1 (Nat.odd_iff.2 hmod)).1⟩

end IsNearest

/-- **Rounding finds the closest decimal**, up to a zero at the end. -/
theorem exists_isClosest (hn : 0 < n) (hq : 0 < q) :
    ∃ d, d.IsClosest (n + 1) q ∧ (nearest (n + 1) q).Alike d := by
  have h := isNearest_nearest n hq
  generalize nearest (n + 1) q = d₀ at h
  -- digits that round up to the next power of ten have one zero more than so many digits
  obtain ⟨d, hdigits, halike, heven⟩ : ∃ d : Decimal, d.HasDigits (n + 1) ∧ d₀.Alike d ∧
      (d₀.digits % 2 = 0 → d.digits % 2 = 0) := by
    rcases Nat.lt_or_eq_of_le h.digits_le with hlt | heq
    · exact ⟨d₀, ⟨h.le_digits, hlt⟩, .refl _, id⟩
    · refine ⟨⟨10 ^ n, d₀.exponent + 1⟩, ⟨Nat.le_refl _, ?_⟩, ?_, fun _ => ?_⟩
      · exact Nat.pow_lt_pow_right (by decide) (Nat.lt_succ_self n)
      · have halike := alike_tenfold (Nat.pow_pos (n := n) (by decide : 0 < 10)) d₀.exponent
        rwa [← Nat.pow_succ', ← heq] at halike
      · obtain ⟨k, rfl⟩ := Nat.exists_eq_succ_of_ne_zero hn.ne'
        show 10 ^ (k + 1) % 2 = 0
        omega
  refine ⟨d, ⟨hdigits, fun d' h' => ?_, fun d' h' hne heq => ?_⟩, halike⟩
  · rw [← halike.toRat_eq]
    exact h.dist_le h'
  · rw [← halike.toRat_eq] at heq
    refine heven (h.tie h' (fun htoRat => hne ?_) heq).1
    exact h'.eq_of_toRat_eq hdigits (htoRat.trans halike.toRat_eq)

/-- There is only one closest decimal. -/
theorem IsClosest.unique (hn : 0 < n) (hq : 0 < q) (h : d.IsClosest (n + 1) q)
    (h' : d'.IsClosest (n + 1) q) : d = d' := by
  obtain ⟨d₁, h₁, halike⟩ := exists_isClosest hn hq
  suffices hall : ∀ d₂ : Decimal, d₂.IsClosest (n + 1) q → d₂ = d₁ by rw [hall d h, hall d' h']
  intro d₂ h₂
  by_contra hne
  have heq : |d₂.toRat - q| = |d₁.toRat - q| :=
    le_antisymm (h₂.dist_le d₁ h₁.hasDigits) (h₁.dist_le d₂ h₂.hasDigits)
  have heven := h₂.even d₁ h₁.hasDigits (Ne.symm hne) heq.symm
  have htoRat : d₂.toRat ≠ d₁.toRat := fun h =>
    hne (h₂.hasDigits.eq_of_toRat_eq h₁.hasDigits h)
  rw [← halike.toRat_eq] at heq htoRat
  have hodd := ((isNearest_nearest n hq).tie h₂.hasDigits htoRat heq).2
  omega

end Decimal

end Formula
