import Formula.Proofs.Rounding.Reading

/-!
# The order and the sign of doubles

Doubles are compared and negated in their unpacked form. For a double that is made of a sign and of
magnitude bits, both come down to these.

* `Binary64.unpacked`: what such a double is unpacked to. `Binary64.unpack_bits` says so.
* `Binary64.rank`: the bits with their sign. `Binary64.ofSigned_le_iff`, `Binary64.ofSigned_lt_iff`:
  the order of doubles is that of their ranks, and so the two zeros are one.
* `Binary64.neg_ofSigned`: the negated double has the other sign.
* `Reading.isFinite_iff`, `Reading.eq_ofSigned_of_finite`: the finite doubles are those that are
  read as a sign and a magnitude, and they are made of these.
-/

namespace Formula

namespace Binary64

open Float.Model (Format UnpackedFloat)
open Float.Model.UnpackedFloat (Sign unpackMantissa unpackExponent unpackSign)

/-! ## Unpacked doubles -/

section Fields

variable (b : BitVec Format.binary64.numBits)

theorem toNat_unpackMantissa : (unpackMantissa b).toNat = b.toNat % 2 ^ 52 := by
  simp [unpackMantissa]

theorem toNat_unpackExponent : (unpackExponent b).toNat = b.toNat / 2 ^ 52 % 2 ^ 11 := by
  simp [unpackExponent, Nat.shiftRight_eq_div_pow]

theorem toNat_unpackSign : (unpackSign b).toNat = b.toNat / 2 ^ 63 % 2 := by
  simp [unpackSign, Nat.shiftRight_eq_div_pow]

end Fields

/-- The sign in unpacked doubles. -/
def signOf (negative : Bool) : Sign := if negative then .negative else .positive

/-- What a double with the given sign and magnitude bits is unpacked to. -/
def unpacked (negative : Bool) (bits : Nat) : UnpackedFloat :=
  if h : bits = 0 then .zero (signOf negative)
  else if bits < binade then
    .finite (signOf negative) bits leastExponent (Nat.pos_of_ne_zero h)
  else if bits < infinity then
    .finite (signOf negative) (binade + bits % binade)
      (leastExponent + ((bits / binade : Nat) : Int) - 1)
      (Nat.lt_of_lt_of_le (by decide) (Nat.le_add_right _ _))
  else .infinity (signOf negative)

variable {bits bits' : Nat}

section Bits

variable {negative : Bool} {b : BitVec Format.binary64.numBits}

theorem ofBitVec_unpackSign (h : bits ≤ infinity)
    (hb : b.toNat = if negative then signBit + bits else bits) :
    Sign.ofBitVec (unpackSign b) = signOf negative := by
  rw [infinity_eq] at h
  rw [signBit_eq] at hb
  have hbit : b.toNat / 2 ^ 63 % 2 = if negative then 1 else 0 := by
    rw [hb]
    cases negative <;> simp <;> omega
  have hiff : unpackSign b = 0#1 ↔ negative = false := by
    rw [← BitVec.toNat_inj, toNat_unpackSign, hbit]
    cases negative <;> decide
  unfold Sign.ofBitVec signOf
  cases negative <;> simp [hiff]

theorem toNat_unpackExponent_of_bits (h : bits ≤ infinity)
    (hb : b.toNat = if negative then signBit + bits else bits) :
    (unpackExponent b).toNat = bits / 2 ^ 52 := by
  rw [infinity_eq] at h
  rw [toNat_unpackExponent, hb, signBit_eq]
  cases negative <;> simp <;> omega

theorem toNat_unpackMantissa_of_bits (hb : b.toNat = if negative then signBit + bits else bits) :
    (unpackMantissa b).toNat = bits % 2 ^ 52 := by
  rw [toNat_unpackMantissa, hb, signBit_eq]
  cases negative <;> simp
  omega

/-- The leading bit of the significand is not stored. -/
theorem toNat_append_unpackMantissa (b : BitVec Format.binary64.numBits) :
    (1#1 ++ unpackMantissa b).toNat = 2 ^ 52 + (unpackMantissa b).toNat := by
  rw [BitVec.toNat_append, ← Nat.shiftLeft_add_eq_or_of_lt (unpackMantissa b).isLt]
  rfl

theorem unpack_bits (h : bits ≤ infinity)
    (hb : b.toNat = if negative then signBit + bits else bits) :
    UnpackedFloat.unpack Format.binary64 b = unpacked negative bits := by
  have hE := toNat_unpackExponent_of_bits h hb
  have hM := toNat_unpackMantissa_of_bits hb
  have hones : unpackExponent b = -1#_ ↔ bits / 2 ^ 52 = 2047 := by
    rw [← BitVec.toNat_inj, hE]
    rfl
  have hzero : unpackExponent b = 0#_ ↔ bits / 2 ^ 52 = 0 := by
    rw [← BitVec.toNat_inj, hE]
    rfl
  have hnone : unpackMantissa b = 0#_ ↔ bits % 2 ^ 52 = 0 := by
    rw [← BitVec.toNat_inj, hM]
    rfl
  have hbias : (Format.binary64.exponentBias : Int) + Format.binary64.mantissaBitsWithoutImplicit
      = 1075 := rfl
  have hbinade := binade_eq
  have hinfinity := infinity_eq
  rw [hinfinity] at h
  simp only [unpacked, UnpackedFloat.unpack, ofBitVec_unpackSign h hb, hE, hM, hones, hzero, hnone,
    hbias, leastExponent, hbinade, hinfinity]
  -- zero, the numbers of the least spacing, those with a leading bit, infinity
  by_cases hbits : bits = 0
  · subst hbits
    simp
  by_cases hlow : bits < 2 ^ 52
  · rw [dif_neg hbits, if_pos hlow, if_neg (by omega), if_pos (by omega), dif_neg (by omega)]
    simp only [UnpackedFloat.finite.injEq, true_and]
    omega
  by_cases hfin : bits < 2047 * 2 ^ 52
  · rw [dif_neg hbits, if_neg hlow, if_pos hfin, if_neg (by omega), if_neg (by omega)]
    have hmantissa := toNat_append_unpackMantissa b
    simp only [UnpackedFloat.finite.injEq, true_and, hmantissa, hM]
    omega
  · obtain rfl : bits = 2047 * 2 ^ 52 := by omega
    simp

end Bits

/-- The largest exponent is left to infinity and to the undefined number. -/
theorem isFinite_unpack_of_ones (b : BitVec Format.binary64.numBits)
    (h : b.toNat / 2 ^ 52 % 2 ^ 11 = 2047) :
    (UnpackedFloat.unpack Format.binary64 b).isFinite = false := by
  have hones : unpackExponent b = -1#_ := by
    rw [← BitVec.toNat_inj, toNat_unpackExponent, h]
    rfl
  unfold UnpackedFloat.unpack
  dsimp only
  rw [if_pos hones]
  split <;> rfl

theorem unpack_ofSigned (h : bits ≤ infinity) (negative : Bool) :
    (ofSigned negative bits).toModel.unpack = unpacked negative bits :=
  unpack_bits h (toBits_ofSigned h negative)

/-! ## Order -/

/-- The magnitude bits with the sign. -/
def rank (negative : Bool) (bits : Nat) : Int := if negative then -bits else bits

/-- How unpacked doubles look. -/
theorem unpacked_cases (h : bits ≤ infinity) (negative : Bool) :
    (bits = 0 ∧ unpacked negative bits = .zero (signOf negative)) ∨
      (∃ i k, ∃ hk : 0 < k, bits = i * binade + k ∧ bits < infinity ∧ k < 2 * binade ∧
        (i = 0 ∨ binade ≤ k) ∧
        unpacked negative bits = .finite (signOf negative) k (leastExponent + i) hk) ∨
      (bits = infinity ∧ unpacked negative bits = .infinity (signOf negative)) := by
  have hinfinity := infinity_eq
  have hbinade := binade_eq
  rw [unpacked]
  by_cases hbits : bits = 0
  · exact .inl ⟨hbits, dif_pos hbits⟩
  rw [dif_neg hbits]
  by_cases hlow : bits < binade
  · refine .inr (.inl ⟨0, bits, Nat.pos_of_ne_zero hbits, by omega, by omega, by omega, .inl rfl,
      ?_⟩)
    rw [if_pos hlow]
    simp
  rw [if_neg hlow]
  by_cases hfin : bits < infinity
  · refine .inr (.inl ⟨bits / binade - 1, binade + bits % binade, by omega, ?_, hfin, ?_, ?_, ?_⟩)
    · rw [hbinade] at hlow ⊢
      omega
    · rw [hbinade]
      omega
    · omega
    · rw [if_pos hfin]
      simp only [UnpackedFloat.finite.injEq, true_and]
      rw [hbinade] at hlow ⊢
      omega
  · exact .inr (.inr ⟨by omega, if_neg hfin⟩)

theorem lt_eq_compare {a b : Int} : Ordering.lt = compare a b ↔ a < b := by
  rw [eq_comm, compare_lt_iff_lt]

theorem gt_eq_compare {a b : Int} : Ordering.gt = compare a b ↔ b < a := by
  rw [eq_comm, compare_gt_iff_gt]

/-- Patterns are compared by the spacing first, and then by the number of units. -/
theorem compare_pattern {i i' k k' : Nat} (hk : k < 2 * binade) (hk' : k' < 2 * binade)
    (h : i = 0 ∨ binade ≤ k) (h' : i' = 0 ∨ binade ≤ k') :
    (compare (leastExponent + (i : Int)) (leastExponent + i')).then (compare k k')
      = compare ((i * binade + k : Nat) : Int) (i' * binade + k' : Nat) := by
  simp only [binade_eq] at *
  rcases lt_trichotomy i i' with hi | rfl | hi
  · rw [compare_lt_iff_lt.2 (by omega), Ordering.lt_then, lt_eq_compare]
    omega
  · rw [compare_eq_iff_eq.2 rfl, Ordering.eq_then]
    rcases lt_trichotomy k k' with hk | rfl | hk
    · rw [compare_lt_iff_lt.2 hk, lt_eq_compare]
      omega
    · rw [compare_eq_iff_eq.2 rfl, compare_eq_iff_eq.2 rfl]
    · rw [compare_gt_iff_gt.2 hk, gt_eq_compare]
      omega
  · rw [compare_gt_iff_gt.2 (by omega), Ordering.gt_then, gt_eq_compare]
    omega

theorem compare_neg_neg (a b : Int) : compare (-a) (-b) = (compare a b).swap := by
  rcases lt_trichotomy a b with h | rfl | h
  · rw [compare_lt_iff_lt.2 h, compare_gt_iff_gt.2 (by omega)]
    rfl
  · rw [compare_eq_iff_eq.2 rfl, compare_eq_iff_eq.2 rfl]
    rfl
  · rw [compare_gt_iff_gt.2 h, compare_lt_iff_lt.2 (by omega)]
    rfl

/-- Unpacked doubles are compared by their ranks. -/
theorem compare_unpacked (h : bits ≤ infinity) (h' : bits' ≤ infinity) (negative negative' : Bool) :
    (unpacked negative bits).compare (unpacked negative' bits')
      = some (compare (rank negative bits) (rank negative' bits')) := by
  have hinfinity := infinity_eq
  rcases unpacked_cases h negative with
      ⟨rfl, hu⟩ | ⟨i, k, hk, hb, hfin, hki, hik, hu⟩ | ⟨rfl, hu⟩ <;>
    rcases unpacked_cases h' negative' with
      ⟨rfl, hu'⟩ | ⟨i', k', hk', hb', hfin', hki', hik', hu'⟩ | ⟨rfl, hu'⟩ <;>
    rw [hu, hu']
  case inr.inl.inr.inl =>
    -- two finite doubles; those of one sign are compared by their patterns
    have hpattern := compare_pattern hki hki' hik hik'
    rw [← hb, ← hb'] at hpattern
    cases negative <;> cases negative' <;>
      simp only [UnpackedFloat.compare, signOf, rank, hpattern, compare_neg_neg, Bool.false_eq_true,
        if_true, if_false, Option.some.injEq, lt_eq_compare, gt_eq_compare] <;>
      omega
  all_goals
    cases negative <;> cases negative' <;>
      simp only [UnpackedFloat.compare, signOf, rank, Bool.false_eq_true, if_true, if_false,
        Option.some.injEq, lt_eq_compare, gt_eq_compare] <;>
      first | rfl | omega

/-- Doubles are in the order of their ranks. -/
theorem ofSigned_le_iff (h : bits ≤ infinity) (h' : bits' ≤ infinity) (negative negative' : Bool) :
    ofSigned negative bits ≤ ofSigned negative' bits' ↔
      rank negative bits ≤ rank negative' bits' := by
  show (ofSigned negative bits).le (ofSigned negative' bits') = true ↔ _
  have hle : (ofSigned negative bits).le (ofSigned negative' bits')
      = (unpacked negative bits).le (unpacked negative' bits') := by
    rw [← unpack_ofSigned h, ← unpack_ofSigned h']
    exact Bool.decide_eq_true
  rw [hle, UnpackedFloat.le, compare_unpacked h h', Option.any_some]
  exact Std.isLE_compare

theorem ofSigned_lt_iff (h : bits ≤ infinity) (h' : bits' ≤ infinity) (negative negative' : Bool) :
    ofSigned negative bits < ofSigned negative' bits' ↔
      rank negative bits < rank negative' bits' := by
  show (ofSigned negative bits).lt (ofSigned negative' bits') = true ↔ _
  have hlt : (ofSigned negative bits).lt (ofSigned negative' bits')
      = (unpacked negative bits).lt (unpacked negative' bits') := by
    rw [← unpack_ofSigned h, ← unpack_ofSigned h']
    exact Bool.decide_eq_true
  rw [hlt, UnpackedFloat.lt, compare_unpacked h h', beq_iff_eq, Option.some.injEq,
    compare_lt_iff_lt]

/-! ## Sign -/

theorem neg_unpacked (negative : Bool) (bits : Nat) :
    (unpacked negative bits).neg = unpacked (!negative) bits := by
  have hsign : -signOf negative = signOf (!negative) := by cases negative <;> rfl
  unfold unpacked
  split
  · rw [UnpackedFloat.neg, hsign]
  split
  · rw [UnpackedFloat.neg, hsign]
  split
  · rw [UnpackedFloat.neg, hsign]
  · rw [UnpackedFloat.neg, hsign]

/-- The negated double has the other sign. -/
theorem neg_ofSigned (h : bits ≤ infinity) (negative : Bool) :
    -ofSigned negative bits = ofSigned (!negative) bits := by
  have hneg : -ofSigned negative bits
      = ⟨.pack (ofSigned negative bits).toModel.unpack.neg⟩ := rfl
  rw [hneg, unpack_ofSigned h, neg_unpacked, ← unpack_ofSigned h]
  exact Float.ofBits_toBits _

end Binary64

/-! ## Finite doubles -/

namespace Reading

open Binary64

variable {x : Float} {negative : Bool} {m : Rat}

/-- A finite double is made of the sign and the magnitude that it is read as. -/
theorem eq_ofSigned_of_finite (h : ofFloat x = .finite negative m) :
    ∃ bits, bits < infinity ∧ m = magnitude bits ∧ x = ofSigned negative bits := by
  have hlt := x.toBits.toNat_lt
  unfold ofFloat at h
  dsimp only at h
  split at h
  · next hfin =>
    cases h
    refine ⟨_, hfin, rfl, ?_⟩
    have hbits : (if decide (signBit ≤ x.toBits.toNat) then signBit + x.toBits.toNat % signBit
        else x.toBits.toNat % signBit) = x.toBits.toNat := by
      rw [signBit_eq]
      split <;> simp at * <;> omega
    rw [ofSigned, hbits, UInt64.ofNat_toNat, Float.ofBits_toBits]
  · split at h <;> cases h

theorem isFinite_ofSigned {bits : Nat} (h : bits < infinity) (negative : Bool) :
    (ofSigned negative bits).isFinite = true := by
  show (ofSigned negative bits).toModel.unpack.isFinite = true
  rw [unpack_ofSigned h.le, unpacked]
  split
  · rfl
  split
  · rfl
  · rfl

/-- The finite doubles are those that are read as a sign and a magnitude. -/
theorem isFinite_iff : x.isFinite = true ↔ ∃ negative m, ofFloat x = .finite negative m := by
  constructor
  · intro h
    by_cases hfin : x.toBits.toNat % signBit < infinity
    · exact ⟨_, _, if_pos hfin⟩
    · have hlt := x.toBits.toNat_lt
      have hones : x.toBits.toNat / 2 ^ 52 % 2 ^ 11 = 2047 := by
        rw [signBit_eq, infinity_eq] at hfin
        omega
      have hnot : x.isFinite = false := isFinite_unpack_of_ones x.toBits.toBitVec hones
      rw [hnot] at h
      cases h
  · rintro ⟨negative, m, h⟩
    obtain ⟨bits, hbits, -, rfl⟩ := eq_ofSigned_of_finite h
    exact isFinite_ofSigned hbits negative

end Reading

end Formula
