import Formula.Rounding
import Mathlib.Algebra.Order.Field.Power
import Mathlib.Data.Int.Log
import Mathlib.Data.Rat.Cast.Order
import Mathlib.Data.Rat.Floor
import Mathlib.Tactic.Linarith
import Mathlib.Tactic.Positivity
import Mathlib.Tactic.Ring

/-!
# Rounding to integers, and orders of magnitude

* `NearestEven q n`: `n` is an integer nearest to `q`, and is even if there are two.
  `roundHalfEven_eq_iff`: there is one such integer, and `roundHalfEven` finds it.
* `roundHalfEven_mono`: rounding keeps the order.
* `digitCount_eq_log`, `floorLog_eq_log`: the numbers of digits, and with them the orders of
  magnitude, are logarithms.
-/

namespace Formula

/-! ## The nearest integer -/

/-- An integer nearest to `q`; of two equally near ones the even one. -/
structure NearestEven (q : Rat) (n : Int) : Prop where
  le_add : (n : Rat) ≤ q + 1 / 2
  sub_le : q - 1 / 2 ≤ n
  even : (n : Rat) = q + 1 / 2 ∨ (n : Rat) = q - 1 / 2 → n % 2 = 0

section NearestEven

variable {q r : Rat} {m n : Int}

theorem nearestEven_roundHalfEven (q : Rat) : NearestEven q (roundHalfEven q) := by
  have hle := Rat.floor_le q
  have hlt := Rat.lt_floor_add_one q
  have hcast : ((q.floor + 1 : Int) : Rat) = q.floor + 1 := by push_cast; rfl
  rw [hcast] at hlt
  unfold roundHalfEven
  dsimp only
  split
  · next hgap =>
    refine ⟨by linarith, by linarith, ?_⟩
    rintro (h | h) <;> linarith
  split
  · next hgap =>
    refine ⟨by linarith, by linarith, ?_⟩
    rintro (h | h) <;> linarith
  split
  · next heven => exact ⟨by linarith, by linarith, fun _ => heven⟩
  · next hodd => exact ⟨by linarith, by linarith, fun _ => by omega⟩

/-- There is only one such integer. -/
theorem NearestEven.unique (hm : NearestEven q m) (hn : NearestEven q n) : m = n := by
  have hle : (m : Rat) ≤ n + 1 := by linarith [hm.le_add, hn.sub_le]
  have hge : (n : Rat) ≤ m + 1 := by linarith [hn.le_add, hm.sub_le]
  have hle : m ≤ n + 1 := by exact_mod_cast hle
  have hge : n ≤ m + 1 := by exact_mod_cast hge
  -- If they differed they would be neighbours, both as near as can be, and both even.
  by_contra hne
  rcases (by omega : m = n + 1 ∨ n = m + 1) with rfl | rfl
  · have hcast : ((n + 1 : Int) : Rat) = n + 1 := by push_cast; rfl
    have h1 := hm.le_add
    have h2 := hn.sub_le
    rw [hcast] at h1
    have he := hm.even (.inl (by linarith))
    have ho := hn.even (.inr (by linarith))
    omega
  · have hcast : ((m + 1 : Int) : Rat) = m + 1 := by push_cast; rfl
    have h1 := hn.le_add
    have h2 := hm.sub_le
    rw [hcast] at h1
    have he := hn.even (.inl (by linarith))
    have ho := hm.even (.inr (by linarith))
    omega

theorem roundHalfEven_eq_iff : roundHalfEven q = n ↔ NearestEven q n := by
  constructor
  · rintro rfl
    exact nearestEven_roundHalfEven q
  · exact (nearestEven_roundHalfEven q).unique

/-- An integer less than a half away is the nearest one. -/
theorem nearestEven_of_lt (hlt : (n : Rat) < q + 1 / 2) (hgt : q - 1 / 2 < n) :
    NearestEven q n := by
  refine ⟨hlt.le, hgt.le, ?_⟩
  rintro (h | h) <;> linarith

/-- A multiple of a unit that is less than half a unit away is the nearest one. -/
theorem nearestEven_div_of_lt {u : Rat} {k : Nat} (hu : 0 < u) (hlt : k * u < q + u / 2)
    (hgt : q - u / 2 < k * u) : NearestEven (q / u) k := by
  have hmul : q / u * u = q := div_mul_cancel₀ q hu.ne'
  refine nearestEven_of_lt ?_ ?_
  · refine lt_of_mul_lt_mul_right ?_ hu.le
    rw [add_mul, hmul]
    push_cast
    linarith
  · refine lt_of_mul_lt_mul_right ?_ hu.le
    rw [sub_mul, hmul]
    push_cast
    linarith

/-- An even multiple of a unit that is no more than half a unit away is the nearest one. -/
theorem nearestEven_div_of_even {u : Rat} {k : Nat} (hu : 0 < u) (heven : k % 2 = 0)
    (hle : k * u ≤ q + u / 2) (hge : q - u / 2 ≤ k * u) : NearestEven (q / u) k := by
  have hmul : q / u * u = q := div_mul_cancel₀ q hu.ne'
  refine ⟨?_, ?_, fun _ => by omega⟩
  · refine le_of_mul_le_mul_right ?_ hu
    rw [add_mul, hmul]
    push_cast
    linarith
  · refine le_of_mul_le_mul_right ?_ hu
    rw [sub_mul, hmul]
    push_cast
    linarith

/-- The nearest multiple of a unit is no more than half a unit away. -/
theorem NearestEven.mul_le {u : Rat} {k : Nat} (hu : 0 < u) (h : NearestEven (q / u) k) :
    k * u ≤ q + u / 2 ∧ q - u / 2 ≤ k * u := by
  have hmul : q / u * u = q := div_mul_cancel₀ q hu.ne'
  have hle := mul_le_mul_of_nonneg_right h.le_add hu.le
  have hge := mul_le_mul_of_nonneg_right h.sub_le hu.le
  rw [add_mul, hmul] at hle
  rw [sub_mul, hmul] at hge
  push_cast at hle hge
  constructor <;> linarith

/-- Rounding keeps the order. -/
theorem roundHalfEven_mono (h : q ≤ r) : roundHalfEven q ≤ roundHalfEven r := by
  by_contra hlt
  have hcast : ((roundHalfEven r + 1 : Int) : Rat) ≤ roundHalfEven q := by
    exact_mod_cast Int.not_le.1 hlt
  push_cast at hcast
  have hq := (nearestEven_roundHalfEven q).le_add
  have hr := (nearestEven_roundHalfEven r).sub_le
  obtain rfl : q = r := by linarith
  exact hlt (Int.le_refl _)

/-- Rounding does not pass a multiple of the unit from above. -/
theorem le_roundHalfEven_div {u : Rat} {k : Nat} (hu : 0 < u) (h : k * u ≤ q) :
    (k : Int) ≤ roundHalfEven (q / u) := by
  rw [← roundHalfEven_intCast (k : Int)]
  exact roundHalfEven_mono ((le_div_iff₀ hu).2 (by exact_mod_cast h))

/-- Rounding does not pass a multiple of the unit from below. -/
theorem roundHalfEven_div_le {u : Rat} {k : Nat} (hu : 0 < u) (h : q ≤ k * u) :
    roundHalfEven (q / u) ≤ k := by
  rw [← roundHalfEven_intCast (k : Int)]
  exact roundHalfEven_mono ((div_le_iff₀ hu).2 (by exact_mod_cast h))

end NearestEven

/-! ## Orders of magnitude -/

section FloorLog

variable {b n : Nat} {q : Rat} {e : Int}

theorem digitCount_eq_log (b n : Nat) : digitCount b n = Nat.log b n + 1 := by
  fun_induction digitCount b n with
  | case1 n h ih => rw [ih, Nat.log_of_one_lt_of_le h.1 h.2]
  | case2 n h => rw [Nat.log_eq_zero_iff.2 (by omega)]

theorem mul_den_eq (hq : 0 < q) : q * q.den = q.num.natAbs := by
  have hcast : ((q.num.natAbs : Int) : Rat) = q.num := by
    rw [Int.natAbs_of_nonneg (Rat.num_pos.2 hq).le]
  rw [Rat.mul_den_eq_num, ← hcast, Rat.intCast_natCast]

/-- The order of magnitude of a quotient is the difference of the two orders or one less. -/
theorem log_quotient_bounds (hb : 1 < b) (hq : 0 < q) {d : Nat} (hn : 0 < n) (hd : 0 < d)
    (hmul : q * d = n) :
    (Nat.log b n : Int) - Nat.log b d - 1 ≤ Int.log b q ∧
      Int.log b q ≤ Nat.log b n - Nat.log b d := by
  have hb0 : (b : Rat) ≠ 0 := by exact_mod_cast (by omega : b ≠ 0)
  have hpow : ∀ e : Int, (0 : Rat) < (b : Rat) ^ e := fun e =>
    zpow_pos (by exact_mod_cast (by omega : 0 < b)) e
  have hdpos : (0 : Rat) < d := by exact_mod_cast hd
  have hnlow : (b : Rat) ^ (Nat.log b n : Int) ≤ n := by
    exact_mod_cast Nat.pow_log_le_self b hn.ne'
  have hnhigh : (n : Rat) < (b : Rat) ^ ((Nat.log b n : Int) + 1) := by
    exact_mod_cast Nat.lt_pow_succ_log_self hb n
  have hdlow : (b : Rat) ^ (Nat.log b d : Int) ≤ d := by
    exact_mod_cast Nat.pow_log_le_self b hd.ne'
  have hdhigh : (d : Rat) < (b : Rat) ^ ((Nat.log b d : Int) + 1) := by
    exact_mod_cast Nat.lt_pow_succ_log_self hb d
  generalize (Nat.log b n : Int) = i at *
  generalize (Nat.log b d : Int) = j at *
  constructor
  · refine (Int.zpow_le_iff_le_log hb hq).1 (le_of_mul_le_mul_right ?_ hdpos)
    calc (b : Rat) ^ (i - j - 1) * d
        ≤ (b : Rat) ^ (i - j - 1) * (b : Rat) ^ (j + 1) :=
          mul_le_mul_of_nonneg_left hdhigh.le (hpow _).le
      _ = (b : Rat) ^ i := by rw [← zpow_add₀ hb0, (by omega : i - j - 1 + (j + 1) = i)]
      _ ≤ n := hnlow
      _ = q * d := hmul.symm
  · refine Int.lt_add_one_iff.1 ((Int.lt_zpow_iff_log_lt hb hq).1 ?_)
    refine lt_of_mul_lt_mul_right ?_ hdpos.le
    calc q * d = n := hmul
      _ < (b : Rat) ^ (i + 1) := hnhigh
      _ = (b : Rat) ^ (i - j + 1) * (b : Rat) ^ j := by
        rw [← zpow_add₀ hb0, (by omega : i - j + 1 + j = i + 1)]
      _ ≤ (b : Rat) ^ (i - j + 1) * d := mul_le_mul_of_nonneg_left hdlow (hpow _).le

/-- Two counts of digits and one comparison find the logarithm. -/
theorem floorLog_eq_log (hb : 1 < b) (hq : 0 < q) : floorLog b q = Int.log b q := by
  have hnum : 0 < q.num.natAbs := Int.natAbs_pos.2 (Rat.num_pos.2 hq).ne'
  obtain ⟨hlower, hupper⟩ := log_quotient_bounds hb hq hnum q.den_pos (mul_den_eq hq)
  rw [floorLog, digitCount_eq_log, digitCount_eq_log]
  push_cast
  rw [add_sub_add_right_eq_sub]
  split
  · next hle => exact le_antisymm ((Int.zpow_le_iff_le_log hb hq).1 hle) hupper
  · next hlt =>
    have hlog := (Int.lt_zpow_iff_log_lt hb hq).1 (not_le.1 hlt)
    omega

/-- The logarithm is the only exponent with these bounds. -/
theorem log_eq_iff (hb : 1 < b) (hq : 0 < q) :
    Int.log b q = e ↔ (b : Rat) ^ e ≤ q ∧ q < (b : Rat) ^ (e + 1) := by
  rw [Int.zpow_le_iff_le_log hb hq, Int.lt_zpow_iff_log_lt hb hq]
  omega

end FloorLog

end Formula
