import Formula.Binary64
import Formula.Proofs.Rounding.Integer
import Mathlib.Tactic.NormNum

/-!
# Rounding to doubles

* `Binary64.magnitude_pattern`: `k` units of one spacing, as a pattern.
  `Binary64.exists_pattern`: every pattern is of this form.
* `Binary64.ulpExponent q`: the spacing of magnitudes around `q`. `Binary64.nearest_spec`: a number
  goes to the nearest multiple of the spacing. `Binary64.magnitude_nearest_eq`: a multiple that is
  less than half a spacing away is found again. `Binary64.nearest_error`: the error.
* `Binary64.nearest_lt_infinity_iff`: which numbers stay finite.
-/

namespace Formula

namespace Binary64

variable {bits i k : Nat} {q : Rat}

/-! ## Patterns -/

theorem binade_eq : binade = 2 ^ 52 := rfl

theorem infinity_eq : infinity = 2047 * 2 ^ 52 := rfl

theorem signBit_eq : signBit = 2 ^ 63 := rfl

theorem magnitude_zero : magnitude 0 = 0 := by simp [magnitude, binade_eq]

/-- The pattern of `k` units of one spacing. If `k` is the first number of units of the next
spacing, the pattern is that of this number too. -/
theorem magnitude_pattern (hk : k ≤ 2 * binade) (h : i = 0 ∨ binade ≤ k) :
    magnitude (i * binade + k) = k * (2 : Rat) ^ (leastExponent + i) := by
  have hbinade : 0 < binade := by decide
  rw [magnitude]
  split
  · next hlt =>
    obtain rfl : i = 0 := by
      rcases h with rfl | h
      · rfl
      · omega
    simp
  · next hge =>
    -- a normal number: the leading bit of `k` is left out, and counts in the exponent instead
    have hk' : binade ≤ k := by
      rcases h with rfl | h
      · omega
      · exact h
    rcases Nat.lt_or_ge k (2 * binade) with hlt | hge'
    · have hdiv : (i * binade + k) / binade = i + 1 := by
        rw [Nat.div_eq_iff hbinade]
        constructor <;> rw [Nat.add_mul] <;> omega
      have hmod : binade + (i * binade + k) % binade = k := by
        rw [Nat.mul_add_mod_self_right, Nat.mod_eq_sub_mod hk', Nat.mod_eq_of_lt (by omega)]
        omega
      rw [hdiv, hmod]
      congr 2
      push_cast
      omega
    · -- The significand is full, so the pattern is the first one of the next exponent.
      obtain rfl : k = 2 * binade := by omega
      have hdiv : (i * binade + 2 * binade) / binade = i + 2 := by
        rw [← Nat.add_mul, Nat.mul_div_cancel _ hbinade]
      have hmod : (i * binade + 2 * binade) % binade = 0 := by
        rw [← Nat.add_mul, Nat.mul_mod_left]
      have hexp : leastExponent + ((i + 2 : Nat) : Int) - 1 = leastExponent + i + 1 := by
        push_cast
        omega
      rw [hdiv, hmod, hexp, zpow_add_one₀ (by norm_num), Nat.add_zero]
      push_cast
      ring

/-- Every finite pattern is of this form. -/
theorem exists_pattern (h : bits < infinity) :
    ∃ i k, bits = i * binade + k ∧ k < 2 * binade ∧ (i = 0 ∨ binade ≤ k) ∧ i ≤ 2045 := by
  rw [infinity_eq] at h
  rw [binade_eq]
  rcases Nat.lt_or_ge bits (2 ^ 52) with hlt | hge
  · exact ⟨0, bits, by omega, by omega, .inl rfl, by omega⟩
  · exact ⟨bits / 2 ^ 52 - 1, 2 ^ 52 + bits % 2 ^ 52, by omega, by omega, .inr (by omega),
      by omega⟩

/-- All magnitudes are multiples of the least one. -/
theorem exists_magnitude_eq (h : bits < infinity) :
    ∃ n : Nat, magnitude bits = n * (2 : Rat) ^ leastExponent := by
  obtain ⟨i, k, rfl, hk, hik, -⟩ := exists_pattern h
  refine ⟨k * 2 ^ i, ?_⟩
  rw [magnitude_pattern hk.le hik, zpow_add₀ (by norm_num), zpow_natCast]
  push_cast
  ring

theorem magnitude_nonneg (h : bits < infinity) : 0 ≤ magnitude bits := by
  obtain ⟨n, hn⟩ := exists_magnitude_eq h
  rw [hn]
  exact mul_nonneg (Nat.cast_nonneg n) (zpow_pos (by norm_num) _).le

theorem magnitude_pos (hpos : 0 < bits) (h : bits < infinity) : 0 < magnitude bits := by
  obtain ⟨i, k, rfl, hk, hik, -⟩ := exists_pattern h
  rw [magnitude_pattern hk.le hik]
  have hk : 0 < k := by
    rcases hik with rfl | hik
    · omega
    · exact Nat.lt_of_lt_of_le (by decide) hik
  exact mul_pos (by exact_mod_cast hk) (zpow_pos (by norm_num) _)

theorem magnitude_lt (h : bits < infinity) : magnitude bits < (2 : Rat) ^ (1024 : Int) := by
  obtain ⟨i, k, rfl, hk, hik, hi⟩ := exists_pattern h
  rw [magnitude_pattern hk.le hik]
  have hk : (k : Rat) < (2 : Rat) ^ (53 : Int) := by
    have hbinade : 2 * binade = 2 ^ 53 := rfl
    rw [hbinade] at hk
    exact_mod_cast hk
  have hi : (2 : Rat) ^ (leastExponent + i) ≤ (2 : Rat) ^ (971 : Int) :=
    zpow_le_zpow_right₀ (by norm_num) (by rw [leastExponent]; omega)
  calc (k : Rat) * (2 : Rat) ^ (leastExponent + i)
      ≤ k * (2 : Rat) ^ (971 : Int) := mul_le_mul_of_nonneg_left hi (Nat.cast_nonneg k)
    _ < (2 : Rat) ^ (53 : Int) * (2 : Rat) ^ (971 : Int) :=
      mul_lt_mul_of_pos_right hk (zpow_pos (by norm_num) _)
    _ = (2 : Rat) ^ (1024 : Int) := (zpow_add₀ (by norm_num) 53 971).symm

/-! ## The nearest magnitude -/

/-- The exponent of the spacing of magnitudes around `q`. -/
def ulpExponent (q : Rat) : Int := max (floorLog 2 q - 52) leastExponent

theorem two_zpow_add (e : Int) (n : Nat) : (2 : Rat) ^ (e + n) = 2 ^ n * (2 : Rat) ^ e := by
  rw [zpow_add₀ (by norm_num), zpow_natCast, mul_comm]

/-- The spacing is the least one, or small in relation to the number. -/
theorem ulpExponent_cases (hq : 0 < q) :
    ulpExponent q = leastExponent ∨ 2 ^ 52 * (2 : Rat) ^ ulpExponent q ≤ q := by
  rcases le_total (floorLog 2 q - 52) leastExponent with h | h
  · exact .inl (max_eq_right h)
  · right
    rw [ulpExponent, max_eq_left h, ← two_zpow_add, Nat.cast_ofNat, sub_add_cancel]
    rw [floorLog_eq_log (by decide) hq]
    exact Int.zpow_log_le_self (by decide) hq

theorem lt_ulpExponent (hq : 0 < q) : q < 2 ^ 53 * (2 : Rat) ^ ulpExponent q := by
  rw [← two_zpow_add]
  refine (Int.lt_zpow_iff_log_lt (b := 2) (by decide) hq).2 ?_
  rw [ulpExponent, floorLog_eq_log (by decide) hq]
  omega

theorem ulpExponent_eq_least (hq : 0 < q) (h : q < 2 ^ 53 * (2 : Rat) ^ leastExponent) :
    ulpExponent q = leastExponent := by
  rw [← two_zpow_add] at h
  have hlog := (Int.lt_zpow_iff_log_lt (b := 2) (by decide) hq).1 h
  rw [ulpExponent, floorLog_eq_log (by decide) hq]
  omega

/-- How a number is rounded: to `k` units of the spacing, `i` steps above the least one. -/
theorem exists_nearest_eq (hq : 0 < q) :
    ∃ i k : Nat, ulpExponent q = leastExponent + i ∧ (i = 0 ∨ binade ≤ k) ∧ k ≤ 2 * binade ∧
      NearestEven (q / (2 : Rat) ^ ulpExponent q) k ∧
      nearest q = min (i * binade + k) infinity := by
  have hunit : (0 : Rat) < (2 : Rat) ^ ulpExponent q := zpow_pos (by norm_num) _
  have hbinade : (binade : Rat) = 2 ^ 52 := by norm_num [binade]
  obtain ⟨i, hi⟩ := Int.eq_ofNat_of_zero_le (Int.sub_nonneg.2 (le_max_right (floorLog 2 q - 52) _))
  have hlow : ((0 : Nat) : Int) ≤ roundHalfEven (q / (2 : Rat) ^ ulpExponent q) :=
    le_roundHalfEven_div hunit (by rw [Nat.cast_zero, zero_mul]; exact hq.le)
  obtain ⟨k, hk⟩ := Int.eq_ofNat_of_zero_le hlow
  have hi : ulpExponent q - leastExponent = i := hi
  refine ⟨i, k, by omega, ?_, ?_, roundHalfEven_eq_iff.1 hk, ?_⟩
  · -- above the least spacing the number has a leading bit, which rounding keeps
    refine (ulpExponent_cases hq).imp (by omega) fun h => ?_
    have hmono : (binade : Int) ≤ k :=
      hk ▸ le_roundHalfEven_div hunit (by rw [hbinade]; exact h)
    exact_mod_cast hmono
  · have hmono : (k : Int) ≤ (2 * binade : Nat) := by
      refine hk ▸ roundHalfEven_div_le hunit ?_
      rw [Nat.cast_mul, hbinade, Nat.cast_ofNat]
      linarith [lt_ulpExponent hq]
    exact_mod_cast hmono
  · rw [nearest, if_neg (not_le.2 hq)]
    show min ((ulpExponent q - leastExponent).toNat * binade
      + (roundHalfEven (q / (2 : Rat) ^ ulpExponent q)).toNat) infinity = _
    rw [hi, hk, Int.toNat_natCast, Int.toNat_natCast]

/-- A number goes to the nearest multiple of the spacing. -/
theorem nearest_spec (hq : 0 < q) (hfin : nearest q < infinity) :
    ∃ k : Nat, NearestEven (q / (2 : Rat) ^ ulpExponent q) k ∧
      magnitude (nearest q) = k * (2 : Rat) ^ ulpExponent q := by
  obtain ⟨i, k, hulp, hik, hk, hround, hnearest⟩ := exists_nearest_eq hq
  refine ⟨k, hround, ?_⟩
  have hpattern : nearest q = i * binade + k := by omega
  rw [hpattern, magnitude_pattern hk hik, hulp]

/-- A multiple of the spacing that is less than half of it away is found again. -/
theorem magnitude_nearest_eq (hq : 0 < q) (hfin : nearest q < infinity)
    (hlt : k * (2 : Rat) ^ ulpExponent q < q + (2 : Rat) ^ ulpExponent q / 2)
    (hgt : q - (2 : Rat) ^ ulpExponent q / 2 < k * (2 : Rat) ^ ulpExponent q) :
    magnitude (nearest q) = k * (2 : Rat) ^ ulpExponent q := by
  obtain ⟨n, hround, hmagnitude⟩ := nearest_spec hq hfin
  have hunique := hround.unique (nearestEven_div_of_lt (zpow_pos (by norm_num) _) hlt hgt)
  rw [hmagnitude, Int.ofNat_inj.1 hunique]

/-- A number is moved by no more than half a spacing. -/
theorem nearest_error (hq : 0 < q) (hfin : nearest q < infinity) :
    magnitude (nearest q) ≤ q + (2 : Rat) ^ ulpExponent q / 2 ∧
      q - (2 : Rat) ^ ulpExponent q / 2 ≤ magnitude (nearest q) := by
  obtain ⟨k, hround, hmagnitude⟩ := nearest_spec hq hfin
  rw [hmagnitude]
  exact hround.mul_le (zpow_pos (by norm_num) _)

theorem nearest_le_infinity (q : Rat) : nearest q ≤ infinity := by
  rw [nearest]
  split
  · exact Nat.zero_le _
  · exact Nat.min_le_right _ _

/-- Half a unit past the largest finite magnitude is a tie between an odd significand and infinity,
and goes to infinity. -/
theorem two_pow_le_of_nearestEven (h : (2 ^ 53 - 1 / 2 : Rat) ≤ q) (hk : NearestEven q k) :
    2 ^ 53 ≤ k := by
  have hle := hk.sub_le
  push_cast at hle
  have hk1 : (2 ^ 53 : Rat) ≤ k + 1 := by linarith
  have hk1 : 2 ^ 53 ≤ k + 1 := by exact_mod_cast hk1
  by_contra hlt
  obtain rfl : k = 2 ^ 53 - 1 := by omega
  have htie : (((2 ^ 53 - 1 : Nat) : Int) : Rat) = q - 1 / 2 := by
    refine le_antisymm ?_ hk.sub_le
    norm_num at h ⊢
    linarith
  have heven := hk.even (.inr htie)
  norm_num at heven

/-- Numbers are rounded to infinity from half a unit past the largest finite magnitude on. -/
theorem nearest_lt_infinity_iff (hq : 0 < q) :
    nearest q < infinity ↔ q < (2 ^ 53 - 1 / 2) * (2 : Rat) ^ (971 : Int) := by
  obtain ⟨i, k, hulp, hik, hk, hround, hnearest⟩ := exists_nearest_eq hq
  have hunit : (0 : Rat) < (2 : Rat) ^ (971 : Int) := zpow_pos (by norm_num) _
  have hlast : i = 2045 → ulpExponent q = 971 := by
    rintro rfl
    rw [hulp]
    rfl
  rw [hnearest, infinity_eq]
  rw [binade_eq] at hik hk ⊢
  constructor
  · intro hlt
    by_contra hge
    have hge := not_lt.1 hge
    have hlog : 971 + (52 : Nat) ≤ floorLog 2 q := by
      rw [floorLog_eq_log (by decide) hq]
      refine (Int.zpow_le_iff_le_log (by decide) hq).1 (le_trans ?_ hge)
      rw [Nat.cast_ofNat, two_zpow_add]
      exact mul_le_mul_of_nonneg_right (by norm_num) hunit.le
    rw [ulpExponent, leastExponent] at hulp
    -- Of the largest finite spacing there are then too many units; a larger one is not finite.
    rcases (by omega : i = 2045 ∨ 2046 ≤ i) with rfl | hi
    · rw [hlast rfl] at hround
      have hk := two_pow_le_of_nearestEven ((le_div_iff₀ hunit).2 hge) hround
      omega
    · omega
  · intro hlt
    have hlog : floorLog 2 q < 971 + (53 : Nat) := by
      rw [floorLog_eq_log (by decide) hq]
      refine (Int.lt_zpow_iff_log_lt (by decide) hq).1 (hlt.trans_le ?_)
      rw [Nat.cast_ofNat, two_zpow_add]
      exact mul_le_mul_of_nonneg_right (by norm_num) hunit.le
    -- Only with the largest spacing may the significand be full, and the bound excludes this.
    rcases (by rw [ulpExponent, leastExponent] at hulp; omega : i ≤ 2044 ∨ i = 2045) with hi | rfl
    · omega
    · rw [hlast rfl] at hround
      have hlt := (div_lt_iff₀ hunit).2 hlt
      generalize q / (2 : Rat) ^ (971 : Int) = t at hround hlt
      have hle := hround.le_add
      push_cast at hle
      have hk : (k : Rat) < 2 ^ 53 := by linarith
      have hk : k < 2 ^ 53 := by exact_mod_cast hk
      omega

/-- Numbers of less than half the least magnitude vanish. -/
theorem nearest_eq_zero (hq : q < (2 : Rat) ^ leastExponent / 2) : nearest q = 0 := by
  rcases le_or_gt q 0 with hneg | hpos
  · rw [nearest, if_pos hneg]
  have hleast : (0 : Rat) < (2 : Rat) ^ leastExponent := zpow_pos (by norm_num) _
  obtain ⟨i, k, hulp, hik, hk, hround, hnearest⟩ := exists_nearest_eq hpos
  have hulp' : ulpExponent q = leastExponent := by
    exact ulpExponent_eq_least hpos (by linarith)
  rw [hulp'] at hround hulp
  have hzero : NearestEven (q / (2 : Rat) ^ leastExponent) (0 : Nat) :=
    nearestEven_div_of_lt hleast (by push_cast; linarith) (by push_cast; linarith)
  obtain rfl : k = 0 := Int.ofNat_inj.1 (hround.unique hzero)
  obtain rfl : i = 0 := by omega
  rw [hnearest, Nat.zero_mul, Nat.zero_add]
  exact Nat.zero_min _

end Binary64

end Formula
