import Formula.Proofs.Rounding.Binary64
import Mathlib

/-!
# Doubles are read as they are made

* `Binary64.toBits_ofSigned`: the pattern of a double that is made of a sign and a magnitude.
* `Reading.ofFloat_ofSigned`, `Reading.ofFloat_infinite`: such a double is read as this sign and
  this magnitude.
* `Reading.exists_magnitude_of_finite`: every finite magnitude has a pattern.
-/

namespace Formula

namespace Binary64

variable {bits : Nat}

/-- No pattern up to that of infinity is one of an undefined number, which has only one pattern. -/
theorem valid_of_mod_le {n : Nat} (h : n % signBit ≤ infinity) :
    Float.Model.Format.binary64.Valid (UInt64.ofNat n).toBitVec := by
  rw [infinity_eq, signBit_eq] at h
  refine ⟨fun hexponent hmantissa => absurd ?_ hmantissa⟩
  have hexponent := congrArg BitVec.toNat hexponent
  apply BitVec.eq_of_toNat_eq
  simp [Float.Model.UnpackedFloat.unpackExponent, Float.Model.UnpackedFloat.unpackMantissa,
    Nat.shiftRight_eq_div_pow] at hexponent ⊢
  omega

theorem toBits_ofSigned (h : bits ≤ infinity) (negative : Bool) :
    (ofSigned negative bits).toBits.toNat = if negative then signBit + bits else bits := by
  rw [ofSigned]
  generalize hn : (if negative then signBit + bits else bits) = n
  have hmod : n % signBit ≤ infinity ∧ n < 2 ^ 64 := by
    rw [infinity_eq] at h
    rw [← hn, signBit_eq, infinity_eq]
    split <;> omega
  have hbits : (Float.ofBits (UInt64.ofNat n)).toBits = UInt64.ofNat n :=
    congrArg Float.toBits (Float.ofBits_toBits ⟨⟨UInt64.ofNat n, valid_of_mod_le hmod.1⟩⟩)
  rw [hbits, UInt64.toNat_ofNat', Nat.mod_eq_of_lt hmod.2]

end Binary64

namespace Reading

open Binary64

variable {bits : Nat}

/-- A double is read as the sign and the magnitude that it is made of. -/
theorem ofFloat_ofSigned (h : bits < infinity) (negative : Bool) :
    ofFloat (ofSigned negative bits) = .finite negative (magnitude bits) := by
  have hnegative : decide (signBit ≤ if negative then signBit + bits else bits) = negative := by
    rw [infinity_eq] at h
    rw [signBit_eq]
    cases negative
    · simp; omega
    · simp
  have hmod : (if negative then signBit + bits else bits) % signBit = bits := by
    rw [infinity_eq] at h
    rw [signBit_eq]
    split <;> omega
  rw [ofFloat]
  simp only [toBits_ofSigned h.le, hnegative, hmod, if_pos h]

theorem ofFloat_infinite (negative : Bool) :
    ofFloat (ofSigned negative infinity) = .infinite negative := by
  have hbits := toBits_ofSigned (Nat.le_refl infinity) negative
  rw [ofFloat]
  simp only [hbits]
  cases negative <;> rfl

theorem exists_magnitude_of_finite {x : Float} {negative : Bool} {m : Rat}
    (h : ofFloat x = .finite negative m) : ∃ bits, bits < infinity ∧ m = magnitude bits := by
  unfold ofFloat at h
  dsimp only at h
  split at h
  · next hlt =>
    cases h
    exact ⟨_, hlt, rfl⟩
  · split at h <;> cases h

end Reading

end Formula
