import Formula.Proofs.Rounding.Text

/-!
# Rounding keeps order and sign

A computed double goes from its magnitude to a decimal, and from the decimal to the nearest
magnitude. Each of the two steps keeps the order, and none looks at the sign.

* `Binary64.magnitude_mono`, `Decimal.nearest_mono`, `Binary64.nearest_mono`: the steps.
* `shownBits`: the magnitude bits of what is kept of a double. `shownBits_mono`: they rise with
  those of the double.
* `shownFloat_le_and_neg`: rounding keeps the order of doubles, and their negation.
-/

namespace Formula

open Binary64

/-! ## The steps -/

section Steps

variable {bits bits' n : Nat} {q r : Rat}

theorem Binary64.binade_step {i i' : Nat} (h : i < i') : i * binade + binade ≤ i' * binade := by
  rw [← Nat.succ_mul]
  exact Nat.mul_le_mul_right _ h

/-- Larger patterns stand for larger magnitudes. -/
theorem Binary64.magnitude_mono (hle : bits ≤ bits') (h : bits' < infinity) :
    magnitude bits ≤ magnitude bits' := by
  obtain ⟨i, k, rfl, hk, hik, -⟩ := exists_pattern (hle.trans_lt h)
  obtain ⟨i', k', rfl, hk', hik', -⟩ := exists_pattern h
  rw [magnitude_pattern hk.le hik, magnitude_pattern hk'.le hik']
  have hunit : (0 : Rat) < (2 : Rat) ^ (leastExponent + i) := zpow_pos (by norm_num) _
  rcases lt_trichotomy i i' with hlt | rfl | hgt
  · -- a spacing of at least twice the size, and at least half as many units
    have hk : (k : Rat) ≤ 2 * k' := by
      have hk : k ≤ 2 * k' := by omega
      exact_mod_cast hk
    calc (k : Rat) * (2 : Rat) ^ (leastExponent + i)
        ≤ 2 * k' * (2 : Rat) ^ (leastExponent + i) := mul_le_mul_of_nonneg_right hk hunit.le
      _ = k' * (2 : Rat) ^ (leastExponent + i + 1) := by rw [zpow_add_one₀ (by norm_num)]; ring
      _ ≤ k' * (2 : Rat) ^ (leastExponent + i') :=
        mul_le_mul_of_nonneg_left (zpow_le_zpow_right₀ (by norm_num) (by omega))
          (Nat.cast_nonneg k')
  · have hk : k ≤ k' := Nat.le_of_add_le_add_left hle
    exact mul_le_mul_of_nonneg_right (by exact_mod_cast hk) hunit.le
  · have hstep := binade_step hgt
    omega

/-- A larger number goes to a larger decimal. -/
theorem Decimal.nearest_mono (n : Nat) (hq : 0 < q) (hle : q ≤ r) :
    (nearest (n + 1) q).toRat ≤ (nearest (n + 1) r).toRat := by
  have hd := isNearest_nearest n hq
  have hd' := isNearest_nearest n (hq.trans_le hle)
  generalize nearest (n + 1) q = d at hd
  generalize nearest (n + 1) r = d' at hd'
  have hlog : d.exponent + n < d'.exponent + n + 1 :=
    (zpow_lt_zpow_iff_right₀ (by norm_num)).1 (hd.le.trans_lt (hle.trans_lt hd'.lt))
  have hunit : (0 : Rat) < (10 : Rat) ^ d.exponent := zpow_pos (by norm_num) _
  rw [toRat, toRat]
  rcases (by omega : d.exponent = d'.exponent ∨ d.exponent + 1 ≤ d'.exponent) with he | he
  · have hround := roundHalfEven_mono (div_le_div_of_nonneg_right hle hunit.le)
    have hdigits' := hd'.digits
    rw [← he] at hdigits' ⊢
    rw [roundHalfEven_eq_iff.2 hd.digits, roundHalfEven_eq_iff.2 hdigits'] at hround
    exact mul_le_mul_of_nonneg_right (by exact_mod_cast hround) hunit.le
  · -- the power of ten that follows all decimals of the smaller order of magnitude
    have hhigh : (d.digits : Rat) ≤ 10 ^ (n + 1) := by exact_mod_cast hd.digits_le
    have hlow : (10 : Rat) ^ n ≤ d'.digits := by exact_mod_cast hd'.le_digits
    calc (d.digits : Rat) * (10 : Rat) ^ d.exponent
        ≤ 10 ^ (n + 1) * (10 : Rat) ^ d.exponent := mul_le_mul_of_nonneg_right hhigh hunit.le
      _ = 10 ^ n * (10 : Rat) ^ (d.exponent + 1) := by rw [zpow_add_one₀ (by norm_num)]; ring
      _ ≤ 10 ^ n * (10 : Rat) ^ d'.exponent :=
        mul_le_mul_of_nonneg_left (zpow_le_zpow_right₀ (by norm_num) he) (by positivity)
      _ ≤ d'.digits * (10 : Rat) ^ d'.exponent :=
        mul_le_mul_of_nonneg_right hlow (zpow_pos (by norm_num) _).le

/-- A larger number goes to a larger magnitude. -/
theorem Binary64.nearest_mono (hle : q ≤ r) : nearest q ≤ nearest r := by
  rcases le_or_gt q 0 with hneg | hpos
  · rw [nearest, if_pos hneg]
    exact Nat.zero_le _
  have hpos' := hpos.trans_le hle
  obtain ⟨i, k, hulp, hik, hk, hround, hnearest⟩ := exists_nearest_eq hpos
  obtain ⟨i', k', hulp', hik', hk', hround', hnearest'⟩ := exists_nearest_eq hpos'
  have hlog : floorLog 2 q ≤ floorLog 2 r := by
    rw [floorLog_eq_log (by decide) hpos, floorLog_eq_log (by decide) hpos']
    exact Int.log_mono_right hpos hle
  have hi : ulpExponent q ≤ ulpExponent r := by
    rw [ulpExponent, ulpExponent]
    omega
  rw [hnearest, hnearest']
  refine min_le_min_right infinity ?_
  -- On one spacing rounding is monotone; all patterns of a wider spacing come behind those of the
  -- narrower one.
  rcases (by omega : i = i' ∨ i < i') with rfl | hlt
  · rw [hulp', ← hulp] at hround'
    have hunit : (0 : Rat) < (2 : Rat) ^ ulpExponent q := zpow_pos (by norm_num) _
    have hmono := roundHalfEven_mono (div_le_div_of_nonneg_right hle hunit.le)
    rw [roundHalfEven_eq_iff.2 hround, roundHalfEven_eq_iff.2 hround'] at hmono
    omega
  · calc i * binade + k
        ≤ i * binade + 2 * binade := Nat.add_le_add_left hk _
      _ = i * binade + binade + binade := by rw [Nat.two_mul, Nat.add_assoc]
      _ ≤ i' * binade + k' :=
        Nat.add_le_add (binade_step hlt) (hik'.resolve_left (Nat.ne_zero_of_lt hlt))

end Steps

/-! ## Computed doubles -/

section Doubles

variable {bits bits' : Nat} {x y : Float} {negative negative' : Bool} {m : Rat}

/-- The magnitude bits of what is kept of a computed double. -/
def shownBits (bits : Nat) : Nat :=
  if bits = 0 then 0 else (shownDecimal (magnitude bits)).bits

/-- Sign and magnitude are rounded and shown on their own. -/
theorem shownFloat_ofSigned (h : bits < infinity) (negative : Bool) :
    shownFloat (ofSigned negative bits) = (ofSigned negative (shownBits bits),
      String.ofList ((if negative then ['-'] else [])
        ++ (magnitudeNumeral (magnitude bits)).spelling)) := by
  have hx := Reading.ofFloat_ofSigned h negative
  rw [← floatText_of_finite hx, ← shownFloat_snd, Prod.ext_iff]
  refine ⟨?_, rfl⟩
  rw [shownBits]
  split
  · next hzero =>
    rw [hzero, shownFloat_fst_zero]
  · next hne => rw [shownFloat_of_finite hx (magnitude_pos (Nat.pos_of_ne_zero hne) h).ne']

theorem shownBits_le_infinity (bits : Nat) : shownBits bits ≤ infinity := by
  rw [shownBits, Decimal.bits_eq_nearest]
  split
  · exact Nat.zero_le _
  · exact nearest_le_infinity _

/-- A larger double is rounded to a larger one. -/
theorem shownBits_mono (hle : bits ≤ bits') (h : bits' < infinity) :
    shownBits bits ≤ shownBits bits' := by
  rcases Nat.eq_zero_or_pos bits with rfl | hpos
  · exact Nat.zero_le _
  rw [shownBits, shownBits, if_neg (by omega), if_neg (by omega), Decimal.bits_eq_nearest,
    Decimal.bits_eq_nearest]
  exact nearest_mono (Decimal.nearest_mono 4 (magnitude_pos hpos (hle.trans_lt h))
    (magnitude_mono hle h))

/-- The rank rises with the magnitude bits of a positive double and falls with those of a negative
one. -/
theorem rank_shownBits_le (h : bits < infinity) (h' : bits' < infinity)
    (hle : rank negative bits ≤ rank negative' bits') :
    rank negative (shownBits bits) ≤ rank negative' (shownBits bits') := by
  have hzero : shownBits 0 = 0 := rfl
  cases negative <;> cases negative' <;>
    simp only [rank, Bool.false_eq_true, if_true, if_false] at *
  · exact Int.ofNat_le.2 (shownBits_mono (Int.ofNat_le.1 hle) h')
  · -- a positive double up to a negative one: both are zero
    obtain ⟨rfl, rfl⟩ : bits = 0 ∧ bits' = 0 := by omega
    rw [hzero]
    rfl
  · omega
  · have hmono := shownBits_mono (by omega : bits' ≤ bits) h
    omega

/-- **Rounding a computed double keeps order and sign.** Of two finite doubles the larger one is
rounded to the larger value, which may be infinite. The negated double is rounded to the negated
value, and shown by the same text but for the minus sign of one of them; so are the two zeros. The
rounded value is what the text is read as. -/
theorem shownFloat_le_and_neg (hx : x.isFinite = true) (hy : y.isFinite = true) :
    (x ≤ y → (shownFloat x).1 ≤ (shownFloat y).1) ∧
      (shownFloat (-x)).1 = -(shownFloat x).1 ∧
      (∃ negative m text, Reading.ofFloat x = .finite negative m ∧ text.head? ≠ some '-' ∧
        (shownFloat x).2 = String.ofList ((if negative then ['-'] else []) ++ text) ∧
        (shownFloat (-x)).2 = String.ofList ((if negative then [] else ['-']) ++ text)) ∧
      readFloat? (shownFloat x).2.toList = some (shownFloat x).1 := by
  have hvalue := readFloat?_floatText hx
  rw [← shownFloat_snd] at hvalue
  obtain ⟨negative, m, hx⟩ := Reading.isFinite_iff.1 hx
  obtain ⟨bits, hbits, rfl, rfl⟩ := Reading.eq_ofSigned_of_finite hx
  obtain ⟨negative', m', hy⟩ := Reading.isFinite_iff.1 hy
  obtain ⟨bits', hbits', rfl, rfl⟩ := Reading.eq_ofSigned_of_finite hy
  rw [shownFloat_ofSigned hbits] at hvalue
  rw [neg_ofSigned hbits.le, shownFloat_ofSigned hbits, shownFloat_ofSigned hbits,
    shownFloat_ofSigned hbits', ofSigned_le_iff hbits.le hbits'.le,
    ofSigned_le_iff (shownBits_le_infinity bits) (shownBits_le_infinity bits'),
    neg_ofSigned (shownBits_le_infinity bits)]
  refine ⟨rank_shownBits_le hbits hbits', rfl,
    ⟨negative, _, (magnitudeNumeral (magnitude bits)).spelling, hx, fun hminus => ?_, rfl, ?_⟩,
    hvalue⟩
  · have hm := magnitude_nonneg hbits
    obtain ⟨c, hc, hdigit⟩ :=
      Numeral.head?_spelling (isSpelled_magnitudeNumeral hm) (whole_magnitudeNumeral_ne_nil hm)
    rw [hc] at hminus
    cases hminus
    exact absurd hdigit (by decide)
  · cases negative <;> rfl

/-- Negative zero and the greatest double, which becomes infinite. -/
theorem shownFloat_le_and_neg_zero :
    let zero := Float.ofBits 0x8000000000000000
    let greatest := Float.ofBits 0x7FEFFFFFFFFFFFFF
    shownFloat zero = (zero, "-0") ∧ shownFloat (-zero) = (-zero, "0") ∧
      shownFloat greatest = (ofSigned false infinity, "1.7977e+308") ∧
      (shownFloat zero).1 ≤ (shownFloat greatest).1 ∧
      (shownFloat (-zero)).1 = -(shownFloat zero).1 := by
  intro zero greatest
  obtain ⟨hle, hneg, -⟩ := shownFloat_le_and_neg (x := zero) (y := greatest) (by decide +kernel)
    (by decide +kernel)
  exact ⟨by decide +kernel, by decide +kernel, by decide +kernel, hle (by decide +kernel), hneg⟩

end Doubles

end Formula
