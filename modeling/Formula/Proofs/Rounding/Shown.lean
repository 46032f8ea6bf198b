import Formula.Operand
import Formula.Proofs.Rounding.Decimal
import Formula.Proofs.Rounding.Reading

/-!
# Computed doubles are shown as they are kept

A computed double is rounded to the five digits that are shown of it. Reading these digits gives a
double that is mostly another one, of which the same digits are shown: where doubles are finer than
the last digit, its distance from the decimal is too small to matter, and where they are coarser
there is no other double in reach. Two places are left. Of the doubles past `1.79765e308` a decimal
is shown that is nearer to infinity than to any double. And `20241 * 2 ^ -1074` is rounded down to
the decimal `1e-319`, where doubles are finer than the last digit and yet coarser than it is below
this power of ten.

* `alike_shownDecimal`: the double of the digits shows these digits.
* `bits_shownDecimal_lt`, `shownDecimal_past`: where the double of the digits is finite.
* `shownFloat_shownFloat`: rounding again changes nothing. `floatText_shownFloat_ne`: in the two
  places it does.
* `display_ofResult_iff`: the value of a computed operand is shown by its text, but for these two
  places.
-/

namespace Formula

open Binary64

variable {bits : Nat} {m : Rat} {x : Float} {negative : Bool}

/-! ## The digits of a magnitude -/

/-- The decimal that is shown has five digits, or is the next power of ten. -/
theorem isNearest_shownDecimal (hm : 0 < m) : (shownDecimal m).IsNearest 4 m :=
  Decimal.isNearest_nearest 4 hm

/-- The largest magnitude of which a smaller decimal is shown than `1.7977e308`. -/
def greatestShown : Rat := 179765 * (10 : Rat) ^ (303 : Int)

/-- The magnitude that is rounded down to `1e-319`. -/
def leastAmiss : Rat := 20241 * (2 : Rat) ^ leastExponent

/-- The powers of ten around the least magnitude, and one past all magnitudes. -/
theorem magnitudes_between :
    (10 : Rat) ^ (-324 : Int) < (2 : Rat) ^ leastExponent ∧
      (2 : Rat) ^ leastExponent < (10 : Rat) ^ (-323 : Int) ∧
      (2 : Rat) ^ (1024 : Int) ≤ (10 : Rat) ^ (309 : Int) := by
  decide +kernel

section Digits

variable {d : Decimal}

/-- Where doubles are coarser than the last digit, no other double is in reach. -/
theorem magnitude_nearest_of_coarse (hbits : bits < infinity)
    (hd : d.IsNearest 4 (magnitude bits)) (hexp : d.exponent ≤ -324)
    (hfin : nearest d.toRat < infinity) : magnitude (nearest d.toRat) = magnitude bits := by
  obtain ⟨n, hn⟩ := exists_magnitude_eq hbits
  obtain ⟨hle, hge⟩ := hd.error
  have hpos : 0 < d.toRat := Decimal.toRat_pos ((by decide : 0 < 10 ^ 4).trans_le hd.le_digits)
  have hunit : (10 : Rat) ^ d.exponent < (2 : Rat) ^ leastExponent :=
    (zpow_le_zpow_right₀ (by norm_num) hexp).trans_lt magnitudes_between.1
  have hulp : ulpExponent d.toRat = leastExponent := by
    have hdigits : (d.digits : Rat) ≤ 10 ^ 5 := by exact_mod_cast hd.digits_le
    have hunit_pos : (0 : Rat) < (10 : Rat) ^ d.exponent := zpow_pos (by norm_num) _
    refine ulpExponent_eq_least hpos ?_
    have hlt : d.toRat ≤ 10 ^ 5 * (10 : Rat) ^ d.exponent :=
      mul_le_mul_of_nonneg_right hdigits hunit_pos.le
    generalize (2 : Rat) ^ leastExponent = least at hunit
    linarith
  rw [hn] at hle hge ⊢
  rw [← hulp] at hunit hle hge ⊢
  exact magnitude_nearest_eq hpos hfin (by linarith) (by linarith)

/-- Where doubles are finer than the last digit. -/
theorem ulp_lt (hdigits : d.digits ≤ 10 ^ 5) (hpos : 0 < d.toRat) (hexp : -323 ≤ d.exponent) :
    (2 : Rat) ^ ulpExponent d.toRat < (10 : Rat) ^ d.exponent := by
  rcases ulpExponent_cases hpos with h | h
  · rw [h]
    exact magnitudes_between.2.1.trans_le (zpow_le_zpow_right₀ (by norm_num) hexp)
  · have hdigits : (d.digits : Rat) ≤ 10 ^ 5 := by exact_mod_cast hdigits
    have hunit : (0 : Rat) < (10 : Rat) ^ d.exponent := zpow_pos (by norm_num) _
    have hle : d.toRat ≤ 10 ^ 5 * (10 : Rat) ^ d.exponent :=
      mul_le_mul_of_nonneg_right hdigits hunit.le
    linarith

/-- Where doubles are finer than the last digit below a power of ten. -/
theorem ten_ulp_le (hdigits : d.digits = 10 ^ 4) (hpos : 0 < d.toRat) (hexp : -322 ≤ d.exponent) :
    10 * (2 : Rat) ^ ulpExponent d.toRat ≤ (10 : Rat) ^ d.exponent := by
  rcases ulpExponent_cases hpos with h | h
  · rw [h]
    refine le_trans ?_ (zpow_le_zpow_right₀ (by norm_num) hexp)
    have hten : (10 : Rat) ^ (-322 : Int) = (10 : Rat) ^ (-323 : Int) * 10 :=
      zpow_add_one₀ (by norm_num) (-323)
    linarith [magnitudes_between.2.1]
  · have hunit : (0 : Rat) < (10 : Rat) ^ d.exponent := zpow_pos (by norm_num) _
    have heq : d.toRat = 10 ^ 4 * (10 : Rat) ^ d.exponent := by
      rw [Decimal.toRat, hdigits, Nat.cast_pow, Nat.cast_ofNat]
    linarith

/-- The magnitude between these two spacings of which a power of ten is shown. -/
theorem eq_leastAmiss (hbits : bits < infinity) (hd : d.IsNearest 4 (magnitude bits))
    (hdigits : d.digits = 10 ^ 4) (hexp : d.exponent = -323) : magnitude bits = leastAmiss := by
  obtain ⟨n, hn⟩ := exists_magnitude_eq hbits
  have hle := hd.le
  have hge := hd.error.2
  rw [hn, hexp] at hle hge
  have htoRat : d.toRat = 10 ^ 4 * (10 : Rat) ^ (-323 : Int) := by
    rw [Decimal.toRat, hdigits, hexp, Nat.cast_pow, Nat.cast_ofNat]
  have hleast : (0 : Rat) < (2 : Rat) ^ leastExponent := zpow_pos (by norm_num) _
  have hlow : 20240 * (2 : Rat) ^ leastExponent < (10 : Rat) ^ (-323 + (4 : Nat) : Int) := by
    decide +kernel
  have hhigh : 10 ^ 4 * (10 : Rat) ^ (-323 : Int) + (10 : Rat) ^ (-323 : Int) / 2
      < 20242 * (2 : Rat) ^ leastExponent := by
    decide +kernel
  have hmore : (20240 : Rat) < n := lt_of_mul_lt_mul_right (hlow.trans_le hle) hleast.le
  have hless : (n : Rat) < 20242 := lt_of_mul_lt_mul_right (by linarith) hleast.le
  have hmore : 20240 < n := by exact_mod_cast hmore
  have hless : n < 20242 := by exact_mod_cast hless
  obtain rfl : n = 20241 := by omega
  rw [hn, leastAmiss]
  push_cast
  rfl

/-- Where doubles are finer than the last digit, the double is too near to the decimal to show
other digits. -/
theorem alike_of_fine (hbits : bits < infinity) (hd : d.IsNearest 4 (magnitude bits))
    (hexp : -323 ≤ d.exponent) (hamiss : magnitude bits ≠ leastAmiss)
    (hfin : nearest d.toRat < infinity) :
    0 < magnitude (nearest d.toRat) ∧ (shownDecimal (magnitude (nearest d.toRat))).Alike d := by
  have hpos : 0 < d.toRat := Decimal.toRat_pos ((by decide : 0 < 10 ^ 4).trans_le hd.le_digits)
  obtain ⟨hle, hge⟩ := nearest_error hpos hfin
  have hulp := ulp_lt hd.digits_le hpos hexp
  have hunit : (0 : Rat) < (10 : Rat) ^ d.exponent := zpow_pos (by norm_num) _
  have hdigits : (10 ^ 4 : Rat) ≤ d.digits := by exact_mod_cast hd.le_digits
  have hlow : 10 ^ 4 * (10 : Rat) ^ d.exponent ≤ d.toRat :=
    mul_le_mul_of_nonneg_right hdigits hunit.le
  refine ⟨by linarith, Decimal.alike_nearest hd.le_digits hd.digits_le (by linarith) (by linarith)
    fun hpower => ?_⟩
  -- a power of ten with the exponent `-323` is shown of `leastAmiss` only
  have hexp : -322 ≤ d.exponent := by
    by_contra hlt
    exact hamiss (eq_leastAmiss hbits hd hpower (by omega))
  have hten := ten_ulp_le hpower hpos hexp
  linarith

/-- The double of the digits that are shown of a double shows them too. -/
theorem alike_shownDecimal (hbits : bits < infinity) (hpos : 0 < magnitude bits)
    (hamiss : magnitude bits ≠ leastAmiss)
    (hfin : (shownDecimal (magnitude bits)).bits < infinity) :
    0 < magnitude (shownDecimal (magnitude bits)).bits ∧
      (shownDecimal (magnitude (shownDecimal (magnitude bits)).bits)).Alike
        (shownDecimal (magnitude bits)) := by
  have hd := isNearest_shownDecimal hpos
  rw [Decimal.bits_eq_nearest] at hfin ⊢
  by_cases hexp : (shownDecimal (magnitude bits)).exponent ≤ -324
  · rw [magnitude_nearest_of_coarse hbits hd hexp hfin]
    exact ⟨hpos, .refl _⟩
  · exact alike_of_fine hbits hd (by omega) hamiss hfin

/-- Up to the greatest decimal but one, the double of the digits is finite. -/
theorem bits_shownDecimal_lt (hpos : 0 < m) (hle : m ≤ greatestShown) :
    (shownDecimal m).bits < infinity := by
  have hd := isNearest_shownDecimal hpos
  have hdpos : 0 < (shownDecimal m).toRat :=
    Decimal.toRat_pos ((by decide : 0 < 10 ^ 4).trans_le hd.le_digits)
  rw [Decimal.bits_eq_nearest, nearest_lt_infinity_iff hdpos]
  generalize shownDecimal m = d at hd
  have hlog : d.exponent + (4 : Nat) < 309 := by
    refine (zpow_lt_zpow_iff_right₀ (by norm_num : (1 : Rat) < 10)).1 ?_
    exact hd.le.trans_lt (hle.trans_lt (by decide +kernel))
  have hgreatest : 17976 * (10 : Rat) ^ (304 : Int)
      < (2 ^ 53 - 1 / 2) * (2 : Rat) ^ (971 : Int) := by
    decide +kernel
  refine lt_of_le_of_lt ?_ hgreatest
  rw [Decimal.toRat]
  -- Of the last order of magnitude only the digits up to 17976 occur; all decimals of the orders
  -- below are smaller anyway.
  rcases (by omega : d.exponent = 304 ∨ d.exponent ≤ 303) with hexp | hexp
  · have hround := roundHalfEven_eq_iff.2 hd.digits
    rw [hexp] at hround
    have hmono : roundHalfEven (m / (10 : Rat) ^ (304 : Int))
        ≤ roundHalfEven (greatestShown / (10 : Rat) ^ (304 : Int)) :=
      roundHalfEven_mono (div_le_div_of_nonneg_right hle (zpow_pos (by norm_num) _).le)
    have hlast : roundHalfEven (greatestShown / (10 : Rat) ^ (304 : Int)) = 17976 := by
      decide +kernel
    have hdigits : d.digits ≤ 17976 := by omega
    rw [hexp]
    exact mul_le_mul_of_nonneg_right (by exact_mod_cast hdigits) (zpow_pos (by norm_num) _).le
  · have hdigits : (d.digits : Rat) ≤ 10 ^ 5 := by exact_mod_cast hd.digits_le
    calc (d.digits : Rat) * (10 : Rat) ^ d.exponent
        ≤ 10 ^ 5 * (10 : Rat) ^ (303 : Int) :=
          mul_le_mul hdigits (zpow_le_zpow_right₀ (by norm_num) hexp)
            (zpow_pos (by norm_num) _).le (by norm_num)
      _ ≤ 17976 * (10 : Rat) ^ (304 : Int) := by decide +kernel

/-- Past this a decimal is shown that is nearer to infinity. -/
theorem shownDecimal_past (hbits : bits < infinity) (hlt : greatestShown < magnitude bits) :
    shownDecimal (magnitude bits) = ⟨17977, 304⟩ := by
  have hmax := magnitude_lt hbits
  have hlow : (10 : Rat) ^ ((304 : Int) + (4 : Nat)) ≤ greatestShown := by decide +kernel
  have hhigh : (2 : Rat) ^ (1024 : Int) ≤ (10 : Rat) ^ ((304 : Int) + (4 : Nat) + 1) :=
    magnitudes_between.2.2
  have hdigits : greatestShown
      = 17976 * (10 : Rat) ^ (304 : Int) + (10 : Rat) ^ (304 : Int) / 2 := by
    decide +kernel
  have hdigits' : (2 : Rat) ^ (1024 : Int)
      ≤ 17977 * (10 : Rat) ^ (304 : Int) + (10 : Rat) ^ (304 : Int) / 2 := by
    decide +kernel
  have hround : NearestEven (magnitude bits / (10 : Rat) ^ (304 : Int)) (17977 : Nat) := by
    have hunit : (0 : Rat) < (10 : Rat) ^ (304 : Int) := zpow_pos (by norm_num) _
    rw [hdigits] at hlt
    have hmax := hmax.trans_le hdigits'
    generalize (10 : Rat) ^ (304 : Int) = u at hlt hmax hunit
    refine nearestEven_div_of_lt hunit ?_ ?_ <;> rw [Nat.cast_ofNat] <;> linarith
  exact Decimal.nearest_eq (hlow.trans hlt.le) (hmax.trans_le hhigh) hround

end Digits

/-! ## Computed doubles -/

section Floats

theorem shownFloat_snd (x : Float) : (shownFloat x).2 = floatText x := by
  unfold shownFloat
  dsimp only
  split
  · split <;> rfl
  · rfl

theorem shownFloat_of_finite (h : Reading.ofFloat x = .finite negative m) (hm : m ≠ 0) :
    shownFloat x = (ofSigned negative (shownDecimal m).bits,
      String.ofList (signed negative (floatLayout.write (shownDecimal m)))) := by
  simp only [shownFloat, floatText, h, if_neg hm]

/-- Zeros, infinities and the undefined number are not rounded. -/
theorem shownFloat_fst_of_other (h : ∀ negative m, Reading.ofFloat x = .finite negative m → m = 0) :
    (shownFloat x).1 = x := by
  unfold shownFloat
  dsimp only
  split
  · next negative m hx => rw [if_pos (h negative m hx)]
  · rfl

/-- The digits that are shown of a magnitude are shown of their double too. -/
def Reading.Stable : Reading → Prop
  | .finite _ m => m ≤ greatestShown ∧ m ≠ leastAmiss
  | .infinite _ | .nan => True

/-- Rounding again changes nothing. -/
theorem shownFloat_shownFloat (h : (Reading.ofFloat x).Stable) :
    shownFloat (shownFloat x).1 = shownFloat x := by
  by_cases hother : ∀ negative m, Reading.ofFloat x = .finite negative m → m = 0
  · rw [shownFloat_fst_of_other hother]
  simp only [not_forall] at hother
  obtain ⟨negative, m, hx, hm⟩ := hother
  rw [hx] at h
  obtain ⟨bits, hbits, rfl⟩ := Reading.exists_magnitude_of_finite hx
  have hpos := lt_of_le_of_ne (magnitude_nonneg hbits) (Ne.symm hm)
  have hfin := bits_shownDecimal_lt hpos h.1
  obtain ⟨hpos', halike⟩ := alike_shownDecimal hbits hpos h.2 hfin
  have hagain := Reading.ofFloat_ofSigned hfin negative
  rw [shownFloat_of_finite hx hm, shownFloat_of_finite hagain hpos'.ne', halike.bits_eq,
    halike.write_eq]

/-- Elsewhere the value is shown by another text. -/
theorem floatText_shownFloat_ne (h : ¬ (Reading.ofFloat x).Stable) :
    floatText (shownFloat x).1 ≠ (shownFloat x).2 := by
  cases hx : Reading.ofFloat x with
  | nan | infinite => exact absurd (by rw [hx]; trivial) h
  | finite negative m =>
    obtain ⟨bits, hbits, rfl⟩ := Reading.exists_magnitude_of_finite hx
    rw [hx, Reading.Stable, not_and_or, not_le, not_not] at h
    rcases h with hpast | hamiss
    · -- The text is finite and the value is not.
      have hgreatest : (0 : Rat) < greatestShown := by decide +kernel
      have hd : (⟨17977, 304⟩ : Decimal).bits = infinity := by decide +kernel
      rw [shownFloat_of_finite hx (hgreatest.trans hpast).ne', shownDecimal_past hbits hpast, hd]
      simp only [floatText, Reading.ofFloat_infinite]
      cases negative <;> decide +kernel
    · -- The double below the power of ten has digits of its own.
      have hne : leastAmiss ≠ 0 := by decide +kernel
      have hshown : shownDecimal leastAmiss = ⟨10000, -323⟩ := by decide +kernel
      have hd : (⟨10000, -323⟩ : Decimal).bits = 20240 := by decide +kernel
      have hne' : magnitude 20240 ≠ 0 := by decide +kernel
      have hshown' : shownDecimal (magnitude 20240) = ⟨99999, -324⟩ := by decide +kernel
      have hx' := Reading.ofFloat_ofSigned (by decide : 20240 < infinity) negative
      rw [hamiss] at hx
      rw [shownFloat_of_finite hx hne, hshown, hd, ← shownFloat_snd,
        shownFloat_of_finite hx' hne', hshown']
      cases negative <;> decide +kernel

/-- **The value of a computed operand is shown by its text**, but for the doubles from `1.79765e308`
on and for `20241 * 2 ^ -1074`. Where it is, it is not changed by being computed again. -/
theorem display_ofResult_iff (x : Float) (position : Nat) :
    let computed := Operand.ofResult (.float x) position
    (computed.value.display = computed.text ↔ (Reading.ofFloat x).Stable) ∧
      ((Reading.ofFloat x).Stable → Operand.ofResult computed.value position = computed) := by
  dsimp only [Operand.ofResult, Value.display]
  refine ⟨⟨fun htext => ?_, fun hstable => ?_⟩, fun hstable => ?_⟩
  · by_contra hunstable
    exact floatText_shownFloat_ne hunstable htext
  · rw [← shownFloat_snd, shownFloat_shownFloat hstable]
  · rw [shownFloat_shownFloat hstable]

/-- The greatest double becomes infinite, and `20241 * 2 ^ -1074` loses a digit. -/
theorem display_ofResult_amiss :
    let greatest := Operand.ofResult (.float (Float.ofBits 0x7FEFFFFFFFFFFFFF)) 0
    let least := Operand.ofResult (.float (Float.ofBits 0x4F11)) 0
    (greatest.text = "1.7977e+308" ∧ greatest.value.display = "+Inf") ∧
      least.text = "1e-319" ∧ least.value.display = "9.9999e-320" := by
  decide +kernel

end Floats

end Formula
