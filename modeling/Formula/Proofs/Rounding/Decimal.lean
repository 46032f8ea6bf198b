import Formula.Decimal.Layout
import Formula.Proofs.Rounding.Binary64
import Mathlib.Tactic.FieldSimp

/-!
# Rounding to decimal digits

* `Decimal.leading_eq_log`: the power of ten of the first digit is the order of magnitude.
* `Decimal.Alike`: decimals that are the same number, with the same digits up to zeros at the end;
  such decimals are written alike. `alike_tenfold`: a zero at the end may be dropped.
* `Decimal.nearest_eq`, `Decimal.nearest_spec`: the decimal of some digits nearest to a number.
* `Decimal.bits_eq_nearest`: the double of a decimal is the one nearest to it, however large or
  small the exponent is.
* `Decimal.alike_nearest`: a number that is near enough to a decimal of so many digits is rounded
  to it. Just below a power of ten the digits are ten times as fine, so there it has to be nearer.
-/

namespace Formula.Decimal

variable {d d' : Decimal} {n m : Nat} {e : Int} {q : Rat}

theorem toRat_pos (h : 0 < d.digits) : 0 < d.toRat := by
  have hdigits : (0 : Rat) < d.digits := by exact_mod_cast h
  exact mul_pos hdigits (zpow_pos (by norm_num) _)

/-- The power of ten of the first digit is the order of magnitude. -/
theorem leading_eq_log (h : 0 < d.digits) : d.leading = Int.log 10 d.toRat := by
  have hle : (10 : Rat) ^ (Nat.log 10 d.digits : Int) ≤ d.digits := by
    exact_mod_cast Nat.pow_log_le_self 10 h.ne'
  have hlt : (d.digits : Rat) < (10 : Rat) ^ ((Nat.log 10 d.digits : Int) + 1) := by
    exact_mod_cast Nat.lt_pow_succ_log_self (by decide) d.digits
  have hunit : (0 : Rat) < (10 : Rat) ^ d.exponent := zpow_pos (by norm_num) _
  have hleading : d.leading = Nat.log 10 d.digits + d.exponent := by
    rw [leading, digitCount_eq_log]
    omega
  symm
  rw [log_eq_iff (by decide) (toRat_pos h), Nat.cast_ofNat, hleading, toRat]
  constructor
  · rw [zpow_add₀ (by norm_num)]
    exact mul_le_mul_of_nonneg_right hle hunit.le
  · rw [add_right_comm, zpow_add₀ (by norm_num)]
    exact mul_lt_mul_of_pos_right hlt hunit

/-! ## Zeros at the end -/

/-- The same number, with the same digits up to zeros at the end. -/
structure Alike (d d' : Decimal) : Prop where
  toRat_eq : d.toRat = d'.toRat
  leading_eq : d.leading = d'.leading
  significant_eq : d.significant = d'.significant

theorem Alike.refl (d : Decimal) : d.Alike d := ⟨rfl, rfl, rfl⟩

theorem Alike.symm (h : d.Alike d') : d'.Alike d :=
  ⟨h.toRat_eq.symm, h.leading_eq.symm, h.significant_eq.symm⟩

theorem Alike.write_eq (h : d.Alike d') (l : Layout) : l.write d = l.write d' := by
  rw [Layout.write, Layout.write, h.leading_eq, h.significant_eq]

/-- A zero at the end may be dropped. -/
theorem alike_tenfold (hn : 0 < n) (e : Int) : Alike ⟨10 * n, e⟩ ⟨n, e + 1⟩ := by
  have htoRat : toRat ⟨10 * n, e⟩ = toRat ⟨n, e + 1⟩ := by
    rw [toRat, toRat, zpow_add_one₀ (by norm_num)]
    push_cast
    ring
  refine ⟨htoRat, ?_, ?_⟩
  · rw [leading_eq_log (Nat.mul_pos (by decide) hn), leading_eq_log hn, htoRat]
  · have hdigits : Nat.toDigits 10 (10 * n) = Nat.toDigits 10 n ++ ['0'] := by
      have h := Nat.toDigits_append_toDigits (b := 10) (by decide) hn (by decide : 0 < 10)
      rw [Nat.add_zero] at h
      exact h.symm
    rw [significant, significant, hdigits, List.reverse_append]
    rfl

/-! ## The nearest decimal -/

theorem nearest_eq (hle : (10 : Rat) ^ (e + n) ≤ q) (hlt : q < (10 : Rat) ^ (e + n + 1))
    (h : NearestEven (q / (10 : Rat) ^ e) m) : nearest (n + 1) q = ⟨m, e⟩ := by
  have hpow : (0 : Rat) < (10 : Rat) ^ (e + n) := zpow_pos (by norm_num) _
  have hlog : floorLog 10 q = e + n := by
    rw [floorLog_eq_log (by decide) (hpow.trans_le hle), log_eq_iff (by decide) (hpow.trans_le hle)]
    exact ⟨hle, hlt⟩
  have he : floorLog 10 q - (n + 1 : Nat) + 1 = e := by
    rw [hlog]
    push_cast
    omega
  rw [nearest]
  simp only [he]
  rw [roundHalfEven_eq_iff.2 h, Int.toNat_natCast]

/-- The nearest decimal of `n + 1` digits: it has so many digits, or is the next power of ten. -/
structure IsNearest (n : Nat) (q : Rat) (d : Decimal) : Prop where
  le_digits : 10 ^ n ≤ d.digits
  digits_le : d.digits ≤ 10 ^ (n + 1)
  le : (10 : Rat) ^ (d.exponent + n) ≤ q
  lt : q < (10 : Rat) ^ (d.exponent + n + 1)
  digits : NearestEven (q / (10 : Rat) ^ d.exponent) d.digits

/-- The nearest decimal is no more than half a unit of its last digit away. -/
theorem IsNearest.error (h : IsNearest n q d) :
    d.toRat ≤ q + (10 : Rat) ^ d.exponent / 2 ∧ q - (10 : Rat) ^ d.exponent / 2 ≤ d.toRat :=
  h.digits.mul_le (zpow_pos (by norm_num) _)

theorem isNearest_nearest (n : Nat) (hq : 0 < q) : IsNearest n q (nearest (n + 1) q) := by
  have hle := Int.zpow_log_le_self (b := 10) (by decide) hq
  have hlt := Int.lt_zpow_succ_log_self (b := 10) (by decide) q
  obtain ⟨e, he⟩ : ∃ e, e = floorLog 10 q - (n + 1 : Nat) + 1 := ⟨_, rfl⟩
  have hlog : floorLog 10 q = e + n := by
    rw [he]
    push_cast
    omega
  rw [← floorLog_eq_log (by decide) hq, Nat.cast_ofNat, hlog] at hle hlt
  have hunit : (0 : Rat) < (10 : Rat) ^ e := zpow_pos (by norm_num) _
  have hlow : ((10 ^ n : Nat) : Int) ≤ roundHalfEven (q / (10 : Rat) ^ e) := by
    refine le_roundHalfEven_div hunit ?_
    rw [add_comm, zpow_add₀ (by norm_num)] at hle
    exact_mod_cast hle
  have hhigh : roundHalfEven (q / (10 : Rat) ^ e) ≤ ((10 ^ (n + 1) : Nat) : Int) := by
    refine roundHalfEven_div_le hunit ?_
    rw [add_assoc, add_comm, zpow_add₀ (by norm_num)] at hlt
    exact_mod_cast hlt.le
  obtain ⟨m, hm⟩ := Int.eq_ofNat_of_zero_le ((Int.natCast_nonneg _).trans hlow)
  have hnearest : nearest (n + 1) q = ⟨m, e⟩ := by
    rw [nearest]
    simp only [← he, hm, Int.toNat_natCast]
  rw [hm] at hlow hhigh
  rw [hnearest]
  exact ⟨by exact_mod_cast hlow, by exact_mod_cast hhigh, hle, hlt, roundHalfEven_eq_iff.1 hm⟩

/-! ## Numbers near a decimal -/

section Near

variable {u : Rat}

theorem ten_zpow_add (hu : (10 : Rat) ^ e = u) (n : Nat) :
    (10 : Rat) ^ (e + n) = (10 ^ n : Nat) * u := by
  rw [zpow_add₀ (by norm_num), hu, zpow_natCast, mul_comm]
  push_cast
  rfl

/-- Just below a power of ten the unit is a tenth of that of this power. -/
theorem alike_nearest_below (hu : (10 : Rat) ^ e = u) (hlt : q < (10 ^ n : Nat) * u)
    (hge : (10 ^ n : Nat) * u - u / 20 ≤ q) : (nearest (n + 1) q).Alike ⟨10 ^ n, e⟩ := by
  have hp : 0 < 10 ^ n := Nat.pow_pos (by decide)
  have hunit : 0 < u := hu ▸ zpow_pos (by norm_num) _
  have hunit' : (10 : Rat) ^ (e - 1) = u / 10 := by
    rw [zpow_sub_one₀ (by norm_num), hu, div_eq_mul_inv]
  have hpow := ten_zpow_add hunit' n
  generalize 10 ^ n = p at *
  have hpu : u ≤ p * u := le_mul_of_one_le_left hunit.le (by exact_mod_cast hp)
  have hround : NearestEven (q / (10 : Rat) ^ (e - 1)) (10 * p : Nat) := by
    rw [hunit']
    refine nearestEven_div_of_even (by linarith) (by omega) ?_ ?_ <;> push_cast <;> linarith
  rw [nearest_eq (by linarith) (by rw [zpow_add_one₀ (by norm_num), hpow]; linarith) hround]
  have halike := alike_tenfold hp (e - 1)
  rwa [Int.sub_add_cancel] at halike

/-- From a power of ten on the unit is ten times that of the digits below it. -/
theorem alike_nearest_above (hu : (10 : Rat) ^ e = u) (hge : 10 * (10 ^ n : Nat) * u ≤ q)
    (hlt : q < 10 * (10 ^ n : Nat) * u + u / 2) :
    (nearest (n + 1) q).Alike ⟨10 * 10 ^ n, e⟩ := by
  have hp : 0 < 10 ^ n := Nat.pow_pos (by decide)
  have hunit : 0 < u := hu ▸ zpow_pos (by norm_num) _
  have hunit' : (10 : Rat) ^ (e + 1) = 10 * u := by
    rw [zpow_add_one₀ (by norm_num), hu, mul_comm]
  have hpow := ten_zpow_add hunit' n
  generalize 10 ^ n = p at *
  have hpu : u ≤ p * u := le_mul_of_one_le_left hunit.le (by exact_mod_cast hp)
  have hround : NearestEven (q / (10 : Rat) ^ (e + 1)) p := by
    rw [hunit']
    exact nearestEven_div_of_lt (by linarith) (by linarith) (by linarith)
  rw [nearest_eq (by linarith) (by rw [zpow_add_one₀ (by norm_num), hpow]; linarith) hround]
  exact (alike_tenfold hp e).symm

/-- A number that is near enough to a decimal is rounded to it. -/
theorem alike_nearest (hlow : 10 ^ n ≤ d.digits) (hhigh : d.digits ≤ 10 ^ (n + 1))
    (hlt : q < d.toRat + (10 : Rat) ^ d.exponent / 2)
    (hgt : d.toRat - (10 : Rat) ^ d.exponent / 2 < q)
    (hfine : d.digits = 10 ^ n → d.toRat - (10 : Rat) ^ d.exponent / 20 ≤ q) :
    (nearest (n + 1) q).Alike d := by
  obtain ⟨m, e⟩ := d
  simp only [toRat] at hlow hhigh hlt hgt hfine
  have hunit : (0 : Rat) < (10 : Rat) ^ e := zpow_pos (by norm_num) _
  generalize hu : (10 : Rat) ^ e = u at hlt hgt hfine hunit
  have hpow := ten_zpow_add hu n
  rw [Nat.pow_succ] at hhigh
  -- Below the decimals with this unit, among them, or past all of them: only among them is the unit
  -- of `q` that of `d`.
  by_cases hbelow : q < (10 ^ n : Nat) * u
  · have hm : (m : Rat) - 1 / 2 < (10 ^ n : Nat) :=
      lt_of_mul_lt_mul_right (by linarith) hunit.le
    have hm : (m : Rat) < (10 ^ n : Nat) + 1 := by linarith
    obtain rfl : m = 10 ^ n := Nat.le_antisymm (Nat.lt_succ_iff.1 (by exact_mod_cast hm)) hlow
    exact alike_nearest_below hu hbelow (hfine rfl)
  by_cases habove : q < 10 * (10 ^ n : Nat) * u
  · have hround : NearestEven (q / (10 : Rat) ^ e) m := by
      rw [hu]
      exact nearestEven_div_of_lt hunit (by linarith) (by linarith)
    rw [nearest_eq (by linarith) (by rw [zpow_add_one₀ (by norm_num), hpow]; linarith) hround]
    exact .refl _
  · have habove := not_lt.1 habove
    have hm : 10 * ((10 ^ n : Nat) : Rat) - 1 / 2 < m :=
      lt_of_mul_lt_mul_right (by linarith) hunit.le
    have hm : 10 * ((10 ^ n : Nat) : Rat) < m + 1 := by linarith
    have hm : 10 * 10 ^ n < m + 1 := by exact_mod_cast hm
    obtain rfl : m = 10 * 10 ^ n := by omega
    rw [Nat.cast_mul, Nat.cast_ofNat] at hlt
    exact alike_nearest_above hu habove hlt

end Near

/-! ## The nearest double -/

/-- Neither huge nor tiny exponents are treated specially. -/
theorem bits_eq_nearest (d : Decimal) : d.bits = Binary64.nearest d.toRat := by
  rw [bits]
  split
  · next hzero =>
    rw [toRat, hzero, Nat.cast_zero, zero_mul]
    rfl
  next hdigits =>
  have hdigits := Nat.pos_of_ne_zero hdigits
  have hpos := toRat_pos hdigits
  rw [leading_eq_log hdigits]
  split
  · next hhuge =>
    have hle := (Int.zpow_le_iff_le_log (b := 10) (by decide) hpos).2 hhuge
    have hthreshold : (2 ^ 53 - 1 / 2) * (2 : Rat) ^ (971 : Int) ≤ (10 : Rat) ^ (310 : Int) := by
      decide +kernel
    refine le_antisymm (not_lt.1 fun hlt => ?_) (Binary64.nearest_le_infinity _)
    have hlt := (Binary64.nearest_lt_infinity_iff hpos).1 hlt
    exact absurd (hle.trans_lt hlt) (not_lt.2 hthreshold)
  split
  · next htiny =>
    have hlt := (Int.lt_zpow_iff_log_lt (b := 10) (by decide) hpos).2 htiny
    have hhalf : (10 : Rat) ^ (-330 : Int) < (2 : Rat) ^ Binary64.leastExponent / 2 := by
      decide +kernel
    exact (Binary64.nearest_eq_zero (hlt.trans hhalf)).symm
  · rfl

theorem Alike.bits_eq (h : d.Alike d') : d.bits = d'.bits := by
  rw [bits_eq_nearest, bits_eq_nearest, h.toRat_eq]

end Formula.Decimal
