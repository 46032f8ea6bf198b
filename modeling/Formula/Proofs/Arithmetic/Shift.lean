import Formula.Builtin
import Mathlib.Algebra.Ring.Int.Defs
import Mathlib.Algebra.Ring.Nat

/-!
# Shifts as multiplication and division

* `toInt_shiftedLeft`: a shift to the left multiplies by a power of two and wraps around.
* `toInt_shiftedRight`: a shift to the right divides by a power of two and rounds down.

Both hold for every count that is not negative, however large.
-/

namespace Formula.BinaryBuiltin

variable {n count : Int64}

/-- A count below 64 is taken as it is. -/
theorem toNat_smod_of_lt (h : 0 ≤ count.toInt) (hlt : count.toInt < 64) :
    (count.toBitVec.smod 64).toNat = count.toInt.toNat := by
  have hs : (count.toBitVec.smod 64).toInt = count.toInt := by
    have h64 : (64 : BitVec 64).toInt = 64 := by decide
    rw [BitVec.toInt_smod, h64, Int64.toInt_toBitVec, Int.fmod_eq_emod_of_nonneg _ (by decide),
      Int.emod_eq_of_lt h hlt]
  have hc := BitVec.toInt_eq_toNat_cond (count.toBitVec.smod 64)
  rw [hs] at hc
  split at hc <;> omega

theorem le_of_not_lt_64 (h : ¬ count < 64) : 64 ≤ count.toInt := by
  have h64 : (64 : Int64).toInt = 64 := rfl
  rw [Int64.lt_iff_toInt_lt, h64] at h
  omega

/-- A shift to the left multiplies by a power of two and wraps around. -/
theorem toInt_shiftedLeft (h : 0 ≤ count.toInt) :
    (shiftedLeft n count).toInt = (n.toInt * 2 ^ count.toInt.toNat).bmod (2 ^ 64) := by
  unfold shiftedLeft
  by_cases hlt : count < 64
  · have hcount := toNat_smod_of_lt h (Int64.lt_iff_toInt_lt.1 hlt)
    have hn : n.toInt = (n.toBitVec.toNat : Int).bmod (2 ^ 64) := BitVec.toInt_eq_toNat_bmod _
    rw [if_pos hlt]
    show (n.toBitVec <<< (count.toBitVec.smod 64)).toInt = _
    rw [BitVec.shiftLeft_eq', hcount, BitVec.toInt_shiftLeft, Nat.shiftLeft_eq, hn,
      Int.bmod_mul_bmod, Int.natCast_mul, Int.natCast_pow]
    rfl
  · have hge := le_of_not_lt_64 hlt
    -- all bits are shifted out
    obtain ⟨k, hk⟩ : ∃ k, count.toInt.toNat = 64 + k := Nat.exists_eq_add_of_le (by omega)
    have hpow : (2 : Int) ^ count.toInt.toNat = ((2 ^ 64 : Nat) : Int) * 2 ^ k := by
      rw [hk, Int.pow_add]
      rfl
    rw [if_neg hlt, hpow, Int.mul_left_comm, Int.mul_bmod_right]
    rfl

/-- A shift to the right divides by a power of two and rounds down. -/
theorem toInt_shiftedRight (h : 0 ≤ count.toInt) :
    (shiftedRight n count).toInt = n.toInt / 2 ^ count.toInt.toNat := by
  unfold shiftedRight
  by_cases hlt : count < 64
  · rw [if_pos hlt]
    show (n.toBitVec.sshiftRight' (count.toBitVec.smod 64)).toInt = _
    rw [BitVec.toInt_sshiftRight', toNat_smod_of_lt h (Int64.lt_iff_toInt_lt.1 hlt),
      Int.shiftRight_eq_div_pow, Int.natCast_pow]
    rfl
  · have hge := le_of_not_lt_64 hlt
    have hpow : (2 : Nat) ^ 63 ≤ 2 ^ count.toInt.toNat :=
      Nat.pow_le_pow_right (by decide) (by omega)
    have hpow : (2 : Int) ^ 63 ≤ 2 ^ count.toInt.toNat := Int.ofNat_le.2 hpow
    have hmin := n.le_toInt
    have hmax := n.toInt_lt
    rw [if_neg hlt]
    generalize (2 : Int) ^ count.toInt.toNat = p at hpow
    by_cases hneg : n < 0
    · rw [if_pos hneg]
      have hneg : n.toInt < 0 := Int64.lt_iff_toInt_lt.1 hneg
      have hdiv : n.toInt / p = -1 ∧ n.toInt % p = n.toInt + p :=
        (Int.ediv_emod_unique (by omega)).2 ⟨by omega, by omega, by omega⟩
      rw [hdiv.1]
      rfl
    · rw [if_neg hneg]
      have hpos : 0 ≤ n.toInt := Int.not_lt.1 fun hn => hneg (Int64.lt_iff_toInt_lt.2 hn)
      rw [Int.ediv_eq_zero_of_lt hpos (by omega)]
      rfl

end Formula.BinaryBuiltin
