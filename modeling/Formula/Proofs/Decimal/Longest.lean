import Formula.Proofs.Decimal.Digits
import Formula.Proofs.Decimal.Numeral
import Mathlib.Computability.RegularExpressions
import Mathlib.Tactic.IntervalCases

/-!
# The longest numeral at the front of a text

* `Longest P cs front`: of all texts at the front of `cs` for which `P` holds, `front` is the
  longest.
* `numeralPattern`: numerals as a regular expression. `mem_numeralPattern` says that its texts are
  the spellings of numerals.
* `longest_split`: splitting a text finds the longest of them.
* `HasMark`, `HasExponentDigit`: what a text shows of the exponent of a numeral. With these,
  `isWhole_iff` and `exponentIsEmpty_eq_false_iff` tell from the spelling what a numeral is.
-/

namespace Formula

/-- Of all texts at the front of `cs` for which `P` holds, `front` is the longest. -/
structure Longest (P : List Char → Prop) (cs front : List Char) : Prop where
  starts : front <+: cs
  holds : P front
  length_le : ∀ other, other <+: cs → P other → other.length ≤ front.length

theorem Longest.unique {P : List Char → Prop} {cs front front' : List Char}
    (h : Longest P cs front) (h' : Longest P cs front') : front = front' := by
  have hle := h'.length_le front h.starts h.holds
  have hle' := h.length_le front' h'.starts h'.holds
  exact (List.prefix_of_prefix_length_le h.starts h'.starts hle).eq_of_length
    (Nat.le_antisymm hle hle')

/-! ## Numerals as a regular expression -/

open RegularExpression (char star)

/-- One of some characters. -/
def oneOf (cs : List Char) : RegularExpression Char := (cs.map char).sum

/-- A row of digits, which may be empty. -/
def digitsPattern : RegularExpression Char := star (oneOf "0123456789".toList)

/-- Digits, then perhaps a point and digits, then perhaps an exponent: its mark, perhaps a sign, and
digits. Every row of digits may be empty. -/
def numeralPattern : RegularExpression Char :=
  digitsPattern * (1 + char '.' * digitsPattern) *
    (1 + oneOf ['e', 'E'] * (1 + oneOf ['+', '-']) * digitsPattern)

section Pattern

variable {w : List Char}

theorem mem_oneOf {cs : List Char} : w ∈ (oneOf cs).matches' ↔ ∃ c ∈ cs, w = [c] := by
  induction cs with
  | nil => simp [oneOf, Language.notMem_zero]
  | cons c cs ih =>
    have hsum : (oneOf (c :: cs)).matches' = {[c]} + (oneOf cs).matches' := rfl
    rw [hsum, Language.mem_add, ih, List.exists_mem_cons_iff]
    rfl

theorem isDigit_iff_mem {c : Char} : c.isDigit = true ↔ c ∈ "0123456789".toList := by
  constructor
  · intro h
    obtain ⟨hlt, hc⟩ := digitChar_of_isDigit h
    rw [← hc]
    generalize c.toNat - '0'.toNat = n at hlt
    interval_cases n <;> decide
  · intro h
    have hall : ("0123456789".toList.all Char.isDigit) = true := by decide
    exact List.all_eq_true.1 hall c h

theorem mem_digitsPattern : w ∈ digitsPattern.matches' ↔ ∀ c ∈ w, c.isDigit = true := by
  rw [digitsPattern, RegularExpression.matches'_star, Language.mem_kstar]
  constructor
  · rintro ⟨parts, rfl, hparts⟩ c hc
    obtain ⟨part, hpart, hc⟩ := List.mem_flatten.1 hc
    obtain ⟨d, hd, rfl⟩ := mem_oneOf.1 (hparts part hpart)
    rw [List.mem_singleton.1 hc]
    exact isDigit_iff_mem.2 hd
  · intro hw
    refine ⟨w.map fun c => [c], ?_, fun part hpart => ?_⟩
    · rw [← List.flatMap_def, List.flatMap_singleton']
    obtain ⟨c, hc, rfl⟩ := List.mem_map.1 hpart
    exact mem_oneOf.2 ⟨c, isDigit_iff_mem.1 (hw c hc), rfl⟩

theorem mem_fractionPattern : w ∈ (1 + char '.' * digitsPattern).matches' ↔
    ∃ fraction : Option (List Char), (∀ ds ∈ fraction, ∀ c ∈ ds, c.isDigit = true) ∧
      fraction.elim [] ('.' :: ·) = w := by
  rw [RegularExpression.matches'_add, Language.mem_add, RegularExpression.matches'_mul,
    Language.mem_mul]
  constructor
  · rintro (h | ⟨_, rfl, ds, hds, rfl⟩)
    · exact ⟨none, by simp, h.symm⟩
    · exact ⟨some ds, by simpa using mem_digitsPattern.1 hds, rfl⟩
  · rintro ⟨_ | ds, hds, rfl⟩
    · exact .inl rfl
    · exact .inr ⟨['.'], rfl, ds, mem_digitsPattern.2 (hds ds rfl), rfl⟩

theorem mem_exponentPattern :
    w ∈ (1 + oneOf ['e', 'E'] * (1 + oneOf ['+', '-']) * digitsPattern).matches' ↔
      ∃ exponent : Option Exponent, (∀ e ∈ exponent, e.IsSpelled) ∧
        exponent.elim [] Exponent.spelling = w := by
  rw [RegularExpression.matches'_add, Language.mem_add, RegularExpression.matches'_mul,
    Language.mem_mul, RegularExpression.matches'_mul, RegularExpression.matches'_add]
  constructor
  · rintro (h | ⟨_, ⟨_, hfirst, sign, hsign, rfl⟩, ds, hds, rfl⟩)
    · exact ⟨none, by simp, h.symm⟩
    · obtain ⟨mark, hmark, rfl⟩ := mem_oneOf.1 hfirst
      have hsign : sign = [] ∨ sign = ['+'] ∨ sign = ['-'] := by
        rcases hsign with hsign | hsign
        · exact .inl hsign
        · obtain ⟨c, hc, rfl⟩ := mem_oneOf.1 hsign
          simpa using hc
      refine ⟨some ⟨mark, sign, ds⟩, ?_, ?_⟩
      · rintro e ⟨⟩
        exact ⟨by simpa using hmark, hsign, mem_digitsPattern.1 hds⟩
      · simp [Exponent.spelling]
  · rintro ⟨_ | ⟨mark, sign, ds⟩, he, rfl⟩
    · exact .inl rfl
    · obtain ⟨hmark, hsign, hds⟩ := he _ rfl
      refine .inr ⟨mark :: sign, ⟨[mark], ?_, sign, ?_, rfl⟩, ds, mem_digitsPattern.2 hds, ?_⟩
      · exact mem_oneOf.2 ⟨mark, by simpa using hmark, rfl⟩
      · rcases hsign with hsign | hsign
        · exact .inl hsign
        · refine .inr (mem_oneOf.2 ?_)
          simpa using hsign
      · simp [Exponent.spelling]

/-- The texts of the expression are the spellings of numerals. -/
theorem mem_numeralPattern :
    w ∈ numeralPattern.matches' ↔ ∃ n : Numeral, n.IsSpelled ∧ n.spelling = w := by
  rw [numeralPattern, RegularExpression.matches'_mul, Language.mem_mul,
    RegularExpression.matches'_mul]
  constructor
  · rintro ⟨_, ⟨whole, hwhole, _, hmiddle, rfl⟩, _, hlast, rfl⟩
    obtain ⟨fraction, hfraction, rfl⟩ := mem_fractionPattern.1 hmiddle
    obtain ⟨exponent, hexponent, rfl⟩ := mem_exponentPattern.1 hlast
    exact ⟨⟨whole, fraction, exponent⟩, ⟨mem_digitsPattern.1 hwhole, hfraction, hexponent⟩, rfl⟩
  · rintro ⟨n, hn, rfl⟩
    exact ⟨_, ⟨n.whole, mem_digitsPattern.2 hn.whole, _,
      mem_fractionPattern.2 ⟨n.fraction, hn.fraction, rfl⟩, rfl⟩, _,
      mem_exponentPattern.2 ⟨n.exponent, hn.exponent, rfl⟩, rfl⟩

end Pattern

/-! ## Splitting finds the longest -/

section Split

variable {ds rest : List Char}

theorem dropWhile_isDigit_append_of_digits (hds : ∀ c ∈ ds, c.isDigit = true) :
    (ds ++ rest).dropWhile Char.isDigit = rest.dropWhile Char.isDigit :=
  List.dropWhile_append_of_pos hds

theorem length_dropWhile_isDigit_le (cs : List Char) :
    (cs.dropWhile Char.isDigit).length ≤ cs.length :=
  (List.dropWhile_suffix Char.isDigit).length_le

theorem Numeral.length_splitFraction_le (cs : List Char) :
    (splitFraction cs).2.length ≤ cs.length := by
  have h := congrArg List.length (splitFraction_append cs)
  rw [List.length_append] at h
  omega

theorem Exponent.length_split_le (cs : List Char) : (split cs).2.length ≤ cs.length := by
  have h := congrArg List.length (spelling_split cs)
  rw [List.length_append] at h
  omega

/-- No more is left of a text behind an exponent than what follows this exponent. -/
theorem Exponent.length_split_spelling_le {e : Exponent} (he : e.IsSpelled) (tail : List Char) :
    (split (e.spelling ++ tail)).2.length ≤ tail.length := by
  obtain ⟨mark, sign, digits⟩ := e
  obtain ⟨hmark, hsign, hdigits⟩ := he
  rw [spelling, List.cons_append, List.append_assoc, split, if_pos hmark]
  rcases hsign with hsign | hsign | hsign <;> simp only at hsign <;> subst hsign
  · cases digits with
    | nil =>
      -- a sign may follow, which the longer exponent takes
      have hs := congrArg List.length (splitSign_append tail)
      rw [List.length_append] at hs
      have hle := length_dropWhile_isDigit_le (splitSign tail).2
      simp only [List.nil_append]
      omega
    | cons d digits =>
      have hd := hdigits d (by simp)
      have hsign : ¬ (d = '+' ∨ d = '-') := by
        rintro (rfl | rfl) <;> revert hd <;> decide
      simp only [List.nil_append, List.cons_append, splitSign, if_neg hsign]
      rw [← List.cons_append, dropWhile_isDigit_append_of_digits hdigits]
      exact length_dropWhile_isDigit_le tail
  · show ((digits ++ tail).dropWhile Char.isDigit).length ≤ tail.length
    rw [dropWhile_isDigit_append_of_digits hdigits]
    exact length_dropWhile_isDigit_le tail
  · show ((digits ++ tail).dropWhile Char.isDigit).length ≤ tail.length
    rw [dropWhile_isDigit_append_of_digits hdigits]
    exact length_dropWhile_isDigit_le tail

/-- No more is left of a text behind a numeral than what follows this numeral. -/
theorem Numeral.length_split_spelling_le {n : Numeral} (hn : n.IsSpelled) (tail : List Char) :
    (split (n.spelling ++ tail)).2.length ≤ tail.length := by
  obtain ⟨whole, fraction, exponent⟩ := n
  obtain ⟨hwhole, hfraction, hexponent⟩ := hn
  -- an exponent begins with its mark, so no digit and no point of it is taken before
  have hexp : ∀ e ∈ exponent, ((e.spelling ++ tail).dropWhile Char.isDigit = e.spelling ++ tail ∧
      splitFraction (e.spelling ++ tail) = (none, e.spelling ++ tail)) := by
    intro e he
    have hdigit : e.mark.isDigit = false ∧ e.mark ≠ '.' := by
      rcases (hexponent e he).mark with hm | hm <;> rw [hm] <;> decide
    refine ⟨List.dropWhile_cons_of_neg (by simp [hdigit.1]), ?_⟩
    rw [splitFraction]
    intro cs hcs
    exact hdigit.2 (List.cons.inj hcs).1
  simp only [spelling, List.append_assoc, split, dropWhile_isDigit_append_of_digits hwhole]
  -- Where a part is missing, it may be found in what follows; this only takes more.
  cases fraction with
  | none =>
    simp only [Option.elim_none, List.nil_append]
    cases exponent with
    | none =>
      have h₁ := Exponent.length_split_le (splitFraction (tail.dropWhile Char.isDigit)).2
      have h₂ := length_splitFraction_le (tail.dropWhile Char.isDigit)
      have h₃ := length_dropWhile_isDigit_le tail
      simp only [Option.elim_none, List.nil_append]
      omega
    | some e =>
      obtain ⟨hdrop, hfrac⟩ := hexp e rfl
      rw [Option.elim_some, hdrop, hfrac]
      exact Exponent.length_split_spelling_le (hexponent e rfl) tail
  | some ds =>
    have hds := hfraction ds rfl
    have hpoint : Char.isDigit '.' = false := by decide
    simp only [Option.elim_some, List.cons_append, List.dropWhile_cons, hpoint, splitFraction,
      dropWhile_isDigit_append_of_digits hds, Bool.false_eq_true, if_false]
    cases exponent with
    | none =>
      have h₁ := Exponent.length_split_le (tail.dropWhile Char.isDigit)
      have h₂ := length_dropWhile_isDigit_le tail
      simp only [Option.elim_none, List.nil_append]
      omega
    | some e =>
      rw [Option.elim_some, (hexp e rfl).1]
      exact Exponent.length_split_spelling_le (hexponent e rfl) tail

end Split

/-- **Splitting a text finds the longest numeral at its front.** -/
theorem longest_split (cs : List Char) :
    Longest (· ∈ numeralPattern.matches') cs (Numeral.split cs).1.spelling where
  starts := ⟨_, Numeral.spelling_split cs⟩
  holds := mem_numeralPattern.2 ⟨_, Numeral.isSpelled_split cs, rfl⟩
  length_le := by
    rintro other ⟨tail, rfl⟩ hother
    obtain ⟨n, hn, rfl⟩ := mem_numeralPattern.1 hother
    have hle := Numeral.length_split_spelling_le hn tail
    have hsplit := congrArg List.length (Numeral.spelling_split (n.spelling ++ tail))
    simp only [List.length_append] at hsplit
    omega

/-! ## What the spelling shows -/

/-- A text has the mark of an exponent. -/
def HasMark (w : List Char) : Prop := 'e' ∈ w ∨ 'E' ∈ w

/-- A text has a digit behind the mark of an exponent. -/
def HasExponentDigit (w : List Char) : Prop :=
  ∃ before mark behind, w = before ++ mark :: behind ∧ (mark = 'e' ∨ mark = 'E') ∧
    ∃ c ∈ behind, c.isDigit = true

namespace Numeral

variable {n : Numeral}

/-- In front of an exponent there are only digits and a point. -/
theorem mem_of_mem_mantissa (hn : n.IsSpelled) {c : Char}
    (hc : c ∈ n.whole ++ n.fraction.elim [] ('.' :: ·)) : c.isDigit = true ∨ c = '.' := by
  rcases List.mem_append.1 hc with hc | hc
  · exact .inl (hn.whole c hc)
  · cases hf : n.fraction with
    | none => simp [hf] at hc
    | some ds =>
      rw [hf, Option.elim_some, List.mem_cons] at hc
      exact hc.symm.imp_left (hn.fraction ds hf c)

theorem hasMark_spelling_iff (hn : n.IsSpelled) : HasMark n.spelling ↔ n.exponent.isSome := by
  constructor
  · intro h
    cases he : n.exponent with
    | some e => rfl
    | none =>
      rw [spelling, he, Option.elim_none, List.append_nil] at h
      rcases h with h | h <;> have hc := mem_of_mem_mantissa hn h <;> revert hc <;> decide
  · intro h
    obtain ⟨e, he⟩ := Option.isSome_iff_exists.1 h
    rw [spelling, he]
    rcases (hn.exponent e he).mark with hm | hm
    · exact .inl (by simp [Exponent.spelling, hm])
    · exact .inr (by simp [Exponent.spelling, hm])

theorem isWhole_iff (hn : n.IsSpelled) :
    n.isWhole = true ↔ ∀ c ∈ n.spelling, c.isDigit = true := by
  rw [isWhole, Bool.and_eq_true, Option.isNone_iff_eq_none, Option.isNone_iff_eq_none]
  constructor
  · rintro ⟨hf, he⟩
    rw [spelling, hf, he, Option.elim_none, Option.elim_none, List.append_nil, List.append_nil]
    exact hn.whole
  · intro h
    have hpoint : Char.isDigit '.' = false := by decide
    refine ⟨Option.eq_none_iff_forall_ne_some.2 fun ds hds => ?_,
      Option.eq_none_iff_forall_ne_some.2 fun e he => ?_⟩
    · have hc := h '.' (by simp [spelling, hds])
      rw [hpoint] at hc
      cases hc
    · have hc := h e.mark (by simp [spelling, he, Exponent.spelling])
      rcases (hn.exponent e he).mark with hm | hm <;> rw [hm] at hc <;> revert hc <;> decide

/-- Digits stand behind the mark of an exponent exactly if the exponent has digits. -/
theorem hasExponentDigit_spelling_iff (hn : n.IsSpelled) {e : Exponent} (he : n.exponent = some e) :
    HasExponentDigit n.spelling ↔ e.digits ≠ [] := by
  obtain ⟨hmark, hsign, hdigits⟩ := hn.exponent e he
  have hspelling : n.spelling
      = (n.whole ++ n.fraction.elim [] ('.' :: ·)) ++ e.mark :: (e.sign ++ e.digits) := by
    rw [spelling, he, Option.elim_some, Exponent.spelling]
  constructor
  · rintro ⟨before, mark, behind, heq, hm, c, hc, hdigit⟩ hnil
    -- neither the mantissa nor a sign has a mark
    have hmantissa : mark ∉ n.whole ++ n.fraction.elim [] ('.' :: ·) := fun h => by
      rcases hm with rfl | rfl <;> have hc := mem_of_mem_mantissa hn h <;> revert hc <;> decide
    have hnosign : mark ∉ e.sign ++ e.digits := by
      rw [hnil, List.append_nil]
      rcases hm with rfl | rfl <;> rcases hsign with hs | hs | hs <;> rw [hs] <;> decide
    rw [hspelling] at heq
    obtain ⟨-, -, hbehind⟩ := (List.append_cons_inj_of_notMem hmantissa hnosign).1 heq
    rw [← hbehind, hnil, List.append_nil] at hc
    rcases hsign with hs | hs | hs <;> rw [hs] at hc
    · cases hc
    · rw [List.mem_singleton.1 hc] at hdigit
      revert hdigit
      decide
    · rw [List.mem_singleton.1 hc] at hdigit
      revert hdigit
      decide
  · intro hne
    obtain ⟨d, ds, hds⟩ := List.exists_cons_of_ne_nil hne
    exact ⟨_, _, _, hspelling, hmark, d, by simp [hds], hdigits d (by simp [hds])⟩

theorem exponentIsEmpty_eq_false_iff (hn : n.IsSpelled) :
    n.exponentIsEmpty = false ↔ (HasMark n.spelling → HasExponentDigit n.spelling) := by
  rw [hasMark_spelling_iff hn, exponentIsEmpty]
  cases he : n.exponent with
  | none => simp
  | some e =>
    rw [hasExponentDigit_spelling_iff hn he]
    simp

end Numeral

end Formula
