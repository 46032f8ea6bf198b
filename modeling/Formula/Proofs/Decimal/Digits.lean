import Formula.Decimal.Basic
import Mathlib.Data.List.Induction
import Mathlib.Tactic.Ring

/-!
# Decimal digits

* `readDigits_toDigits`: the digits of a number denote it.
* `toDigits_readDigits`: digits without superfluous zeros are those of the number they denote.
* `length_toDigits`, `head?_toDigits`: how many digits a number has; no zero is in front of them.
* `readDigits_append`: what two rows of digits denote together.
* `toString_int_inj`: different integers are shown differently.
-/

namespace Formula

theorem readDigits_toDigits (n : Nat) : readDigits (Nat.toDigits 10 n) = n :=
  Nat.ofDigitChars_ten_toDigits

theorem length_toDigits (n : Nat) : (Nat.toDigits 10 n).length = digitCount 10 n := by
  fun_induction digitCount 10 n with
  | case1 n h ih =>
    rw [Nat.toDigits_of_base_le h.1 h.2, List.length_append, ih, List.length_singleton]
  | case2 n h => rw [Nat.toDigits_of_lt_base (by omega), List.length_singleton]

/-- The digits of a positive number have no zero in front. -/
theorem head?_toDigits {n : Nat} (hn : 0 < n) : (Nat.toDigits 10 n).head? ≠ some '0' := by
  induction n using Nat.strongRecOn with
  | ind n ih =>
    rcases Nat.lt_or_ge n 10 with hlt | hge
    · rw [Nat.toDigits_of_lt_base hlt, List.head?_cons, Ne, Option.some.injEq,
        Nat.digitChar_eq_zero]
      omega
    · obtain ⟨c, cs, hcs⟩ :=
        List.exists_cons_of_ne_nil (Nat.toDigits_ne_nil (b := 10) (n := n / 10))
      have hhead := ih (n / 10) (by omega) (by omega)
      rw [Nat.toDigits_of_base_le (by decide) hge]
      rw [hcs] at hhead ⊢
      exact hhead

theorem readDigits_append (ds ds' : List Char) :
    readDigits (ds ++ ds') = readDigits ds * 10 ^ ds'.length + readDigits ds' := by
  induction ds' using List.reverseRecOn with
  | nil => simp [readDigits]
  | append_singleton ds' c ih =>
    rw [← List.append_assoc, readDigits_append_digit, ih, readDigits_append_digit,
      List.length_append, List.length_singleton, Nat.pow_succ]
    ring

theorem readDigits_zeros (k : Nat) : readDigits (List.replicate k '0') = 0 := by
  induction k with
  | zero => rfl
  | succ k ih =>
    rw [List.replicate_succ', readDigits_append_digit, ih]
    rfl

theorem digitChar_of_isDigit {c : Char} (h : c.isDigit = true) :
    c.toNat - '0'.toNat < 10 ∧ (c.toNat - '0'.toNat).digitChar = c := by
  rw [Char.isDigit_iff_toNat] at h
  have h0 : '0'.toNat = 48 := rfl
  have h9 : '9'.toNat = 57 := rfl
  have hlt : c.toNat - '0'.toNat < 10 := by omega
  refine ⟨hlt, Char.toNat_inj.1 ?_⟩
  rw [Nat.toNat_digitChar_of_lt_ten hlt]
  omega

/-- Digits without zeros in front are those of the number they denote. -/
theorem toDigits_readDigits_of_head {ds : List Char} (hds : ∀ c ∈ ds, c.isDigit = true)
    (hne : ds ≠ []) (hhead : ds.head? ≠ some '0') :
    0 < readDigits ds ∧ Nat.toDigits 10 (readDigits ds) = ds := by
  induction ds using List.reverseRecOn with
  | nil => exact absurd rfl hne
  | append_singleton ds c ih =>
    have hc := digitChar_of_isDigit (hds c (by simp))
    rw [readDigits_append_digit]
    by_cases hnil : ds = []
    · subst hnil
      have hpos : 0 < c.toNat - '0'.toNat := by
        refine Nat.pos_of_ne_zero fun hz => hhead ?_
        rw [hz] at hc
        simp [← hc.2]
      have hz : readDigits [] = 0 := rfl
      rw [hz, Nat.mul_zero, Nat.zero_add, Nat.toDigits_of_lt_base hc.1, hc.2]
      exact ⟨hpos, rfl⟩
    · have hhead : ds.head? ≠ some '0' := by
        obtain ⟨d, ds, rfl⟩ := List.exists_cons_of_ne_nil hnil
        simpa using hhead
      obtain ⟨hpos, hdigits⟩ := ih (fun d hd => hds d (by simp [hd])) hnil hhead
      refine ⟨by omega, ?_⟩
      rw [← Nat.toDigits_append_toDigits (by decide) hpos hc.1, hdigits,
        Nat.toDigits_of_lt_base hc.1, hc.2]

/-- Digits without superfluous zeros are those of the number they denote. -/
theorem toDigits_readDigits {ds : List Char} (hds : ∀ c ∈ ds, c.isDigit = true) (hne : ds ≠ [])
    (hhead : ds = ['0'] ∨ ds.head? ≠ some '0') : Nat.toDigits 10 (readDigits ds) = ds := by
  rcases hhead with rfl | hhead
  · rfl
  · exact (toDigits_readDigits_of_head hds hne hhead).2

theorem repr_inj {m n : Nat} (h : m.repr = n.repr) : m = n := by
  have hm := readDigits_toDigits m
  rw [← Nat.toList_repr, h, Nat.toList_repr, readDigits_toDigits] at hm
  exact hm.symm

/-- No number is shown with a minus sign that is not negative. -/
theorem repr_ne_minus (m n : Nat) : m.repr ≠ "-" ++ n.repr := by
  intro h
  have hmem : '-' ∈ m.repr.toList := by
    rw [h, String.toList_append]
    simp
  rw [Nat.toList_repr] at hmem
  exact absurd (Nat.isDigit_of_mem_toDigits (by decide) (by decide) hmem) (by decide)

/-- Different integers are shown differently. -/
theorem toString_int_inj {m n : Int} : toString m = toString n ↔ m = n := by
  refine ⟨fun h => ?_, fun h => by rw [h]⟩
  rw [Int.toString_eq_repr, Int.toString_eq_repr, Int.repr_eq_if, Int.repr_eq_if] at h
  split at h <;> split at h
  · have hnat := repr_inj h
    omega
  · exact absurd h (repr_ne_minus _ _)
  · exact absurd h.symm (repr_ne_minus _ _)
  · have hnat := repr_inj (String.append_right_inj _ |>.1 h)
    omega

end Formula
