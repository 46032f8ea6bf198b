import Formula.Proofs.Decimal.Numeral
import Formula.Proofs.Decimal.Written
import Formula.Proofs.Rounding.Closest
import Formula.Proofs.Rounding.Shown
import Formula.Proofs.Rounding.Sign

/-!
# The text of a double

* `magnitudeNumeral`: the numeral that shows a magnitude. `floatText_of_finite`: the text of a
  finite double is its spelling, behind a minus sign if there is one.
  `shownFloat_fst_of_finite`: the double that is kept is the one nearest to it.
* `readFloat?_floatText`: what is kept of a finite double is what its text is read as.
* `exists_closest_text`: the numeral denotes the closest decimal of five digits, in plain notation
  from `0.0001` up to `99999` and in scientific notation elsewhere.
-/

namespace Formula

open Binary64

variable {bits : Nat} {x : Float} {negative : Bool} {m : Rat}

/-! ## Numerals of magnitudes -/

/-- The numeral that shows a magnitude. -/
def magnitudeNumeral (m : Rat) : Numeral :=
  if m = 0 then ⟨['0'], none, none⟩ else floatLayout.numeral (shownDecimal m)

theorem toRat_magnitudeNumeral_zero : (magnitudeNumeral 0).toDecimal.toRat = 0 := by
  have hdigits : readDigits ['0'] = 0 := rfl
  simp [magnitudeNumeral, Numeral.toDecimal, Decimal.toRat, hdigits]

theorem signed_eq (negative : Bool) (cs : List Char) :
    signed negative cs = (if negative then ['-'] else []) ++ cs := by
  cases negative <;> rfl

theorem floatText_of_finite (h : Reading.ofFloat x = .finite negative m) :
    floatText x
      = String.ofList ((if negative then ['-'] else []) ++ (magnitudeNumeral m).spelling) := by
  by_cases hm : m = 0
  · simp only [floatText, h, magnitudeNumeral, signed_eq, if_pos hm]
    rfl
  · simp only [floatText, h, magnitudeNumeral, signed_eq, if_neg hm, Layout.spelling_numeral]

theorem shownDecimal_digits_pos (hm : 0 < m) : 0 < (shownDecimal m).digits :=
  (by decide : 0 < 10 ^ 4).trans_le (isNearest_shownDecimal hm).le_digits

theorem isSpelled_magnitudeNumeral (hm : 0 ≤ m) : (magnitudeNumeral m).IsSpelled := by
  unfold magnitudeNumeral
  split
  · exact ⟨fun c hc => by rw [List.mem_singleton.1 hc]; rfl, nofun, nofun⟩
  · next hne =>
    exact Layout.isSpelled_numeral (shownDecimal_digits_pos (hm.lt_of_ne' hne))

theorem whole_magnitudeNumeral_ne_nil (hm : 0 ≤ m) : (magnitudeNumeral m).whole ≠ [] := by
  unfold magnitudeNumeral
  split
  · exact List.cons_ne_nil '0' _
  · next hne =>
    exact Layout.whole_numeral_ne_nil (shownDecimal_digits_pos (hm.lt_of_ne' hne))

/-- Zeros are kept. -/
theorem shownFloat_fst_zero (negative : Bool) :
    (shownFloat (ofSigned negative 0)).1 = ofSigned negative 0 := by
  have hzero := Reading.ofFloat_ofSigned (by decide : 0 < infinity) negative
  refine shownFloat_fst_of_other fun negative' m h => ?_
  rw [hzero, magnitude_zero] at h
  cases h
  rfl

/-- What is kept of a finite double is the double nearest to the numeral. -/
theorem shownFloat_fst_of_finite (h : Reading.ofFloat x = .finite negative m) :
    (shownFloat x).1 = ofSigned negative (nearest (magnitudeNumeral m).toDecimal.toRat) := by
  obtain ⟨bits, hbits, rfl, rfl⟩ := Reading.eq_ofSigned_of_finite h
  rcases Nat.eq_zero_or_pos bits with rfl | hpos
  · rw [shownFloat_fst_zero, magnitude_zero, toRat_magnitudeNumeral_zero, nearest,
      if_pos (le_refl _)]
  · have hm := magnitude_pos hpos hbits
    rw [shownFloat_of_finite h hm.ne', magnitudeNumeral, if_neg hm.ne', Decimal.bits_eq_nearest,
      Layout.toRat_numeral (shownDecimal_digits_pos hm)]

theorem exponent_magnitudeNumeral {e : Exponent} (h : e ∈ (magnitudeNumeral m).exponent) :
    e.mark = 'e' ∧ e.digits ≠ [] := by
  unfold magnitudeNumeral at h
  split at h
  · cases h
  · exact Layout.exponent_numeral h

theorem exponentIsEmpty_magnitudeNumeral (m : Rat) :
    (magnitudeNumeral m).exponentIsEmpty = false := by
  cases he : (magnitudeNumeral m).exponent with
  | none => simp [Numeral.exponentIsEmpty, he]
  | some e => simp [Numeral.exponentIsEmpty, he, (exponent_magnitudeNumeral he).2]

/-- **What is kept of a finite double is what its text is read as.** -/
theorem readFloat?_floatText (h : x.isFinite = true) :
    readFloat? (floatText x).toList = some (shownFloat x).1 := by
  obtain ⟨negative, m, h⟩ := Reading.isFinite_iff.1 h
  have hm : 0 ≤ m := by
    obtain ⟨bits, hbits, rfl⟩ := Reading.exists_magnitude_of_finite h
    exact magnitude_nonneg hbits
  rw [floatText_of_finite h, String.toList_ofList,
    readFloat?_signed (isSpelled_magnitudeNumeral hm)
      (Numeral.hasDigits_of_whole_ne_nil (whole_magnitudeNumeral_ne_nil hm))
      (exponentIsEmpty_magnitudeNumeral m) negative,
    shownFloat_fst_of_finite h, Decimal.bits_eq_nearest]

/-- A numeral without a point and an exponent has five digits at most. -/
theorem toRat_magnitudeNumeral_lt (hm : 0 ≤ m) (h : (magnitudeNumeral m).isWhole = true) :
    (magnitudeNumeral m).toDecimal.toRat < (10 : Rat) ^ (5 : Int) := by
  rcases hm.eq_or_lt with rfl | hpos
  · rw [toRat_magnitudeNumeral_zero]
    norm_num
  · rw [magnitudeNumeral, if_neg hpos.ne'] at h ⊢
    have hdigits := shownDecimal_digits_pos hpos
    rw [Layout.toRat_numeral hdigits]
    have hlog := Layout.leading_lt_of_isWhole h
    rw [Decimal.leading_eq_log hdigits] at hlog
    exact (Int.lt_zpow_iff_log_lt (b := 10) (by decide) (Decimal.toRat_pos hdigits)).2 hlog

/-- Doubles are neither so large nor so small that their text could be long. -/
theorem length_spelling_magnitudeNumeral_le (h : bits < infinity) :
    (magnitudeNumeral (magnitude bits)).spelling.length ≤ 1000 := by
  rcases Nat.eq_zero_or_pos bits with rfl | hpos
  · rw [magnitude_zero, magnitudeNumeral, if_pos rfl]
    decide
  have hm := magnitude_pos hpos h
  have hd := isNearest_shownDecimal hm
  rw [magnitudeNumeral, if_neg hm.ne', Layout.spelling_numeral]
  refine (Layout.length_write_le _ _).trans ?_
  have hwidth : floatLayout.exponentWidth = 2 := rfl
  have hleading : (shownDecimal (magnitude bits)).leading
      = (shownDecimal (magnitude bits)).exponent
        + digitCount 10 (shownDecimal (magnitude bits)).digits - 1 := rfl
  -- five digits, or six if they are rounded up to the next power of ten
  have hcount : Nat.log 10 (shownDecimal (magnitude bits)).digits ≤ 5 :=
    (Nat.pow_le_pow_iff_right (by decide)).1
      ((Nat.pow_log_le_self 10 (shownDecimal_digits_pos hm).ne').trans hd.digits_le)
  rw [digitCount_eq_log] at hleading ⊢
  generalize shownDecimal (magnitude bits) = d at *
  have hhigh : d.exponent + (4 : Nat) < 309 := by
    refine (zpow_lt_zpow_iff_right₀ (by norm_num)).1 (hd.le.trans_lt ?_)
    exact (magnitude_lt h).trans_le magnitudes_between.2.2
  have hlow : (-324 : Int) < d.exponent + (4 : Nat) + 1 := by
    refine (zpow_lt_zpow_iff_right₀ (by norm_num)).1 (lt_of_le_of_lt ?_ hd.lt)
    obtain ⟨n, hn⟩ := exists_magnitude_eq h
    rw [hn] at hm ⊢
    have hunit : (0 : Rat) < (2 : Rat) ^ leastExponent := zpow_pos (by norm_num) _
    have hn : (1 : Rat) ≤ n := by
      have hn : 0 < n := Nat.pos_of_ne_zero (by rintro rfl; simp at hm)
      exact_mod_cast hn
    exact magnitudes_between.1.le.trans (le_mul_of_one_le_left hunit.le hn)
  omega

/-! ## The sign -/

/-- A finite double that is not zero is negative if its sign bit is set. -/
theorem negative_iff_lt_zero (h : Reading.ofFloat x = .finite negative m) (hm : m ≠ 0) :
    negative = true ↔ x < 0 := by
  obtain ⟨bits, hbits, rfl, rfl⟩ := Reading.eq_ofSigned_of_finite h
  have hzero : (0 : Float) = ofSigned false 0 := rfl
  have hpos : bits ≠ 0 := by
    rintro rfl
    exact hm magnitude_zero
  rw [hzero, ofSigned_lt_iff hbits.le (Nat.zero_le _)]
  cases negative
  · simp [rank]
  · simp [rank]
    omega

/-! ## The text -/

/-- **What is shown of a finite double that is not zero** is the closest decimal of five digits, a
minus sign standing in front of negative ones. The text has no superfluous zero or point at its end.
It is in scientific notation, with an exponent of two digits or more, if the first digit has a place
below `10 ^ -4` or from `10 ^ 5` on, and otherwise in plain notation. -/
theorem exists_closest_text (h : Reading.ofFloat x = .finite negative m) (hm : m ≠ 0) :
    (negative = true ↔ x < 0) ∧
      ∃ d : Decimal, d.IsClosest 5 m ∧ (∀ d' : Decimal, d'.IsClosest 5 m → d' = d) ∧
        ∃ n : Numeral, n.IsSpelled ∧
          floatText x = String.ofList ((if x < 0 then ['-'] else []) ++ n.spelling) ∧
          n.toDecimal.toRat = d.toRat ∧ n.IsTrimmed ∧
          if d.exponent + 4 < -4 ∨ 5 ≤ d.exponent + 4 then n.IsScientific 2 (d.exponent + 4)
          else n.IsPlain (d.exponent + 4) := by
  refine ⟨negative_iff_lt_zero h hm, ?_⟩
  have hpos : 0 < m := by
    obtain ⟨bits, hbits, rfl⟩ := Reading.exists_magnitude_of_finite h
    exact (magnitude_nonneg hbits).lt_of_ne' hm
  obtain ⟨d, hclosest, halike⟩ := Decimal.exists_isClosest (n := 4) (by decide) hpos
  have halike : (shownDecimal m).Alike d := halike
  have hdigits := shownDecimal_digits_pos hpos
  -- the layout goes by the place of the first digit, which zeros at the end do not move
  have hleading : (shownDecimal m).leading = d.exponent + 4 := by
    have hdpos : 0 < d.digits := (by decide : 0 < 10 ^ 4).trans_le hclosest.hasDigits.1
    rw [halike.leading_eq, Decimal.leading_eq_log hdpos,
      log_eq_iff (by decide) (Decimal.toRat_pos hdpos)]
    exact hclosest.hasDigits.bounds
  refine ⟨d, hclosest, fun d' h' => h'.unique (by decide) hpos hclosest,
    floatLayout.numeral (shownDecimal m), Layout.isSpelled_numeral hdigits, ?_, ?_,
    Layout.isTrimmed_numeral hdigits, ?_⟩
  · simp only [floatText_of_finite h, magnitudeNumeral, if_neg hm, negative_iff_lt_zero h hm]
  · rw [Layout.toRat_numeral hdigits, halike.toRat_eq]
  · rw [← hleading]
    split
    · next hfar => exact Layout.isScientific_numeral hdigits (by decide) hfar
    · next hnear => exact Layout.isPlain_numeral hdigits hnear

/-- `-99999.5` is shown as the next power of ten, behind its sign. -/
theorem exists_closest_text_carry :
    let x := Float.ofBits 0xC0F869F800000000
    floatText x = "-1e+05" ∧ x < 0 ∧ ∃ d : Decimal, d.IsClosest 5 (199999 / 2) ∧
      ∃ n : Numeral, n.IsSpelled ∧ floatText x = String.ofList ('-' :: n.spelling) ∧
        n.toDecimal.toRat = d.toRat ∧ n.IsTrimmed := by
  intro x
  have hx : Reading.ofFloat x = .finite true (199999 / 2) := by decide +kernel
  obtain ⟨hsign, d, hclosest, -, n, hn, htext, htoRat, htrimmed, -⟩ :=
    exists_closest_text hx (by norm_num)
  have hneg : x < 0 := hsign.1 rfl
  rw [if_pos hneg] at htext
  exact ⟨by decide +kernel, hneg, d, hclosest, n, hn, htext, htoRat, htrimmed⟩

end Formula
