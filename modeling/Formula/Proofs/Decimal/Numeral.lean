import Formula.Decimal.Numeral

/-!
# Numerals that are split off again

* `Numeral.IsSpelled`: parts that a text can have, as those of `Numeral.split` do.
* `Numeral.StopsAt`: a character with which a numeral does not go on. What is split off ends in
  front of one (`Numeral.stopsAt_of_split`).
* `Numeral.split_append`: the spelling of such parts is split into these parts again.
* `readInt64?_digits`, `readFloat?_signed`: a row of digits is read as the number it denotes, and a
  numeral with its sign as the nearest double.
-/

namespace Formula

section Front

variable {p : Char → Bool} {ds rest : List Char}

/-- Characters of a class end in front of one that is none of it. -/
theorem takeWhile_append_of_head (hds : ∀ c ∈ ds, p c = true)
    (hrest : ∀ c ∈ rest.head?, p c = false) : (ds ++ rest).takeWhile p = ds := by
  rw [List.takeWhile_append_of_pos hds]
  cases rest with
  | nil => simp
  | cons c rest => simp [hrest c rfl]

theorem dropWhile_append_of_head (hds : ∀ c ∈ ds, p c = true)
    (hrest : ∀ c ∈ rest.head?, p c = false) : (ds ++ rest).dropWhile p = rest := by
  rw [List.dropWhile_append_of_pos hds]
  cases rest with
  | nil => simp
  | cons c rest => simp [hrest c rfl]

theorem of_mem_takeWhile (p : Char → Bool) (cs : List Char) : ∀ c ∈ cs.takeWhile p, p c = true :=
  List.all_eq_true.1 List.all_takeWhile

theorem head_dropWhile (p : Char → Bool) (cs : List Char) :
    ∀ c ∈ (cs.dropWhile p).head?, p c = false := by
  intro c hc
  have hnot := List.head?_dropWhile_not p cs
  rw [Option.mem_def.1 hc] at hnot
  simpa using hnot

end Front

namespace Exponent

/-- Parts that a text can have. -/
structure IsSpelled (e : Exponent) : Prop where
  mark : e.mark = 'e' ∨ e.mark = 'E'
  sign : e.sign = [] ∨ e.sign = ['+'] ∨ e.sign = ['-']
  digits : ∀ c ∈ e.digits, c.isDigit = true

theorem splitSign_cases (cs : List Char) :
    (splitSign cs).1 = [] ∨ (splitSign cs).1 = ['+'] ∨ (splitSign cs).1 = ['-'] := by
  unfold splitSign
  split
  · next c cs =>
    by_cases hc : c = '+' ∨ c = '-'
    · rw [if_pos hc]
      rcases hc with rfl | rfl
      · exact .inr (.inl rfl)
      · exact .inr (.inr rfl)
    · rw [if_neg hc]
      exact .inl rfl
  · exact .inl rfl

theorem isSpelled_split {cs : List Char} {e : Exponent} (h : (split cs).1 = some e) :
    e.IsSpelled := by
  cases cs with
  | nil => cases h
  | cons c cs =>
    by_cases hc : c = 'e' ∨ c = 'E'
    · simp only [split, if_pos hc, Option.some.injEq] at h
      subst h
      exact ⟨hc, splitSign_cases cs, of_mem_takeWhile _ _⟩
    · simp only [split, if_neg hc] at h
      cases h

/-- A character with which the exponent does not go on. -/
structure StopsAt (e : Exponent) (c : Char) : Prop where
  digit : c.isDigit = false
  sign : e.sign = [] → e.digits = [] → ¬ (c = '+' ∨ c = '-')

/-- Digits begin with no sign. -/
theorem splitSign_digits {ds rest : List Char} (hds : ∀ c ∈ ds, c.isDigit = true)
    (hrest : ds = [] → ∀ c ∈ rest.head?, ¬ (c = '+' ∨ c = '-')) :
    splitSign (ds ++ rest) = ([], ds ++ rest) := by
  cases ds with
  | nil =>
    cases rest with
    | nil => rfl
    | cons c rest => exact if_neg (hrest rfl c rfl)
  | cons d ds =>
    have hd := hds d List.mem_cons_self
    refine if_neg ?_
    rintro (rfl | rfl) <;> revert hd <;> decide

theorem split_append {e : Exponent} (he : e.IsSpelled) {rest : List Char}
    (hrest : ∀ c ∈ rest.head?, e.StopsAt c) : split (e.spelling ++ rest) = (some e, rest) := by
  have hdigit := fun c hc => (hrest c hc).digit
  have hs : splitSign (e.sign ++ (e.digits ++ rest)) = (e.sign, e.digits ++ rest) := by
    rcases he.sign with hsign | hsign | hsign <;> rw [hsign]
    · rw [List.nil_append]
      exact splitSign_digits he.digits fun hds c hc => (hrest c hc).sign hsign hds
    · rfl
    · rfl
  rw [spelling, List.cons_append, List.append_assoc, split, if_pos he.mark, hs]
  simp only [takeWhile_append_of_head he.digits hdigit, dropWhile_append_of_head he.digits hdigit]

theorem split_of_head {rest : List Char} (hrest : ∀ c ∈ rest.head?, ¬ (c = 'e' ∨ c = 'E')) :
    split rest = (none, rest) := by
  cases rest with
  | nil => rfl
  | cons c rest => exact if_neg (hrest c rfl)

/-- An exponent ends where it does not go on. -/
theorem stopsAt_of_split {cs rest : List Char} {e : Exponent} (h : split cs = (some e, rest)) :
    ∀ c ∈ rest.head?, e.StopsAt c := by
  cases cs with
  | nil => cases h
  | cons m cs =>
    by_cases hm : m = 'e' ∨ m = 'E'
    · have happend := splitSign_append cs
      rw [split, if_pos hm] at h
      rcases hsplit : splitSign cs with ⟨sign, behind⟩
      rw [hsplit] at h happend
      cases h
      refine fun c hc => ⟨head_dropWhile _ _ c hc, fun hs hds hsign => ?_⟩
      simp only at hs hds happend
      -- without a sign and digits, the rest is all that stands behind the mark
      have hrest := List.takeWhile_append_dropWhile (p := Char.isDigit) (l := behind)
      rw [hds, List.nil_append] at hrest
      rw [hs, List.nil_append] at happend
      rw [hrest, happend] at hc
      obtain ⟨tail, rfl⟩ := List.head?_eq_some_iff.1 hc
      rw [splitSign, if_pos hsign, hs] at hsplit
      cases hsplit
    · rw [split, if_neg hm] at h
      cases h

theorem head_of_split_eq_none {cs rest : List Char} (h : split cs = (none, rest)) :
    rest = cs ∧ ∀ c ∈ rest.head?, ¬ (c = 'e' ∨ c = 'E') := by
  cases cs with
  | nil =>
    cases h
    exact ⟨rfl, nofun⟩
  | cons m cs =>
    by_cases hm : m = 'e' ∨ m = 'E'
    · rw [split, if_pos hm] at h
      cases h
    · rw [split, if_neg hm] at h
      cases h
      refine ⟨rfl, ?_⟩
      rintro c ⟨⟩
      exact hm

end Exponent

namespace Numeral

/-- Parts that a text can have. -/
structure IsSpelled (n : Numeral) : Prop where
  whole : ∀ c ∈ n.whole, c.isDigit = true
  fraction : ∀ ds ∈ n.fraction, ∀ c ∈ ds, c.isDigit = true
  exponent : ∀ e ∈ n.exponent, e.IsSpelled

theorem isSpelled_split (cs : List Char) : (split cs).1.IsSpelled where
  whole := of_mem_takeWhile _ cs
  fraction := by
    intro ds hds
    simp only [split, splitFraction] at hds
    split at hds
    · cases hds
      exact of_mem_takeWhile _ _
    · cases hds
  exponent := fun _ he => Exponent.isSpelled_split he

/-- A character with which the numeral does not go on. -/
structure StopsAt (n : Numeral) (c : Char) : Prop where
  digit : c.isDigit = false
  point : n.fraction = none → n.exponent = none → c ≠ '.'
  mark : n.exponent = none → ¬ (c = 'e' ∨ c = 'E')
  exponent : ∀ e ∈ n.exponent, e.StopsAt c

/-- Behind the point a numeral goes on with an exponent, or stops. -/
theorem head_exponent {n : Numeral} (hn : n.IsSpelled) {rest : List Char}
    (hrest : ∀ c ∈ rest.head?, n.StopsAt c) :
    ∀ c ∈ (n.exponent.elim [] Exponent.spelling ++ rest).head?,
      c.isDigit = false ∧ (n.fraction = none → c ≠ '.') := by
  intro c hc
  cases he : n.exponent with
  | none =>
    rw [he] at hc
    exact ⟨(hrest c hc).digit, fun hf => (hrest c hc).point hf he⟩
  | some e =>
    rw [he] at hc
    cases Option.mem_some_iff.1 hc
    have hmark : e.mark.isDigit = false ∧ e.mark ≠ '.' := by
      rcases (hn.exponent e he).mark with hm | hm <;> rw [hm] <;> decide
    exact ⟨hmark.1, fun _ => hmark.2⟩

/-- **The spelling of a numeral is split into its parts**, if the text does not go on with it. -/
theorem split_append {n : Numeral} (hn : n.IsSpelled) {rest : List Char}
    (hrest : ∀ c ∈ rest.head?, n.StopsAt c) :
    split (n.spelling ++ rest) = (n, rest) := by
  -- none of the later parts begins with what the part in front of it could go on with
  have hhead := head_exponent hn hrest
  have hexp : Exponent.split (n.exponent.elim [] Exponent.spelling ++ rest)
      = (n.exponent, rest) := by
    cases he : n.exponent with
    | none => exact Exponent.split_of_head fun c hc => (hrest c hc).mark he
    | some e =>
      exact Exponent.split_append (hn.exponent e he) fun c hc => (hrest c hc).exponent e he
  have hfrac : splitFraction (n.fraction.elim [] ('.' :: ·)
      ++ (n.exponent.elim [] Exponent.spelling ++ rest))
        = (n.fraction, n.exponent.elim [] Exponent.spelling ++ rest) := by
    have hdigit := fun c hc => (hhead c hc).1
    cases hf : n.fraction with
    | none =>
      generalize n.exponent.elim [] Exponent.spelling ++ rest = cs at hhead
      rw [Option.elim_none, List.nil_append, splitFraction]
      rintro cs' rfl
      exact (hhead '.' rfl).2 hf rfl
    | some ds =>
      rw [Option.elim_some, List.cons_append, splitFraction,
        takeWhile_append_of_head (hn.fraction ds hf) hdigit,
        dropWhile_append_of_head (hn.fraction ds hf) hdigit]
  have hwhole : ∀ c ∈ (n.fraction.elim [] ('.' :: ·)
      ++ (n.exponent.elim [] Exponent.spelling ++ rest)).head?, c.isDigit = false := by
    intro c hc
    cases hf : n.fraction with
    | none => rw [hf] at hc; exact (hhead c hc).1
    | some ds => rw [hf] at hc; cases Option.mem_some_iff.1 hc; decide
  rw [spelling, List.append_assoc, List.append_assoc, split,
    takeWhile_append_of_head hn.whole hwhole, dropWhile_append_of_head hn.whole hwhole, hfrac]
  simp only [hexp]

theorem head_splitFraction {cs : List Char} (h : ∀ c ∈ cs.head?, c.isDigit = false) :
    ∀ c ∈ (splitFraction cs).2.head?,
      c.isDigit = false ∧ ((splitFraction cs).1 = none → c ≠ '.') := by
  unfold splitFraction
  split
  · exact fun c hc => ⟨head_dropWhile _ _ c hc, nofun⟩
  · next hpoint =>
    refine fun c hc => ⟨h c hc, ?_⟩
    rintro - rfl
    obtain ⟨tail, rfl⟩ := List.head?_eq_some_iff.1 hc
    exact hpoint tail rfl

/-- A numeral ends where it does not go on. -/
theorem stopsAt_of_split {cs rest : List Char} {n : Numeral} (h : split cs = (n, rest)) :
    ∀ c ∈ rest.head?, n.StopsAt c := by
  have hfraction := head_splitFraction (head_dropWhile _ cs)
  rw [split] at h
  rcases hf : splitFraction (cs.dropWhile Char.isDigit) with ⟨fraction, behind⟩
  rw [hf] at h hfraction
  dsimp only at h hfraction
  rcases he : Exponent.split behind with ⟨_ | e, rest'⟩
  · rw [he] at h
    cases h
    obtain ⟨rfl, hmark⟩ := Exponent.head_of_split_eq_none he
    exact fun c hc => ⟨(hfraction c hc).1, fun hnone _ => (hfraction c hc).2 hnone,
      fun _ => hmark c hc, fun _ hsome => by cases hsome⟩
  · rw [he] at h
    cases h
    intro c hc
    have hstop := Exponent.stopsAt_of_split he c hc
    refine ⟨hstop.digit, fun _ hnone => (by cases hnone), fun hnone => (by cases hnone), ?_⟩
    rintro _ ⟨⟩
    exact hstop

theorem split_spelling {n : Numeral} (hn : n.IsSpelled) : split n.spelling = (n, []) := by
  have h := @split_append n hn [] nofun
  rwa [List.append_nil] at h

/-- A numeral with digits begins with one, or with its point. -/
theorem head_spelling {n : Numeral} (hn : n.IsSpelled) (hd : n.hasDigits = true) :
    ∃ c cs, n.spelling = c :: cs ∧ (c.isDigit = true ∨ c = '.') := by
  obtain ⟨whole, fraction, exponent⟩ := n
  cases whole with
  | cons c whole => exact ⟨c, _, rfl, .inl (hn.whole c (by simp))⟩
  | nil =>
    cases fraction with
    | none => simp [hasDigits] at hd
    | some ds => exact ⟨'.', _, rfl, .inr rfl⟩

theorem hasDigits_of_whole_ne_nil {n : Numeral} (h : n.whole ≠ []) : n.hasDigits = true := by
  obtain ⟨c, cs, hcs⟩ := List.exists_cons_of_ne_nil h
  simp [hasDigits, hcs]

theorem spelling_of_isWhole {n : Numeral} (h : n.isWhole = true) : n.spelling = n.whole := by
  rw [isWhole, Bool.and_eq_true, Option.isNone_iff_eq_none, Option.isNone_iff_eq_none] at h
  rw [spelling, h.1, h.2, Option.elim_none, Option.elim_none, List.append_nil, List.append_nil]

end Numeral

/-! ## The readers -/

/-- A row of digits is read as the number it denotes, if 64 bits hold it. -/
theorem readInt64?_digits {ds : List Char} (hds : ∀ c ∈ ds, c.isDigit = true) {n : Int64} :
    readInt64? ds = some n ↔ ds ≠ [] ∧ n.toInt = readDigits ds := by
  have hsign := @Exponent.splitSign_digits ds [] hds nofun
  rw [List.append_nil] at hsign
  have hall : ds.all Char.isDigit = true := List.all_eq_true.2 hds
  have hminus : ([] : List Char) ≠ ['-'] := by decide
  simp only [readInt64?, hsign, hall, Bool.not_true, Bool.or_false, List.isEmpty_iff, if_neg hminus]
  by_cases hnil : ds = []
  · simp [hnil]
  · rw [if_neg hnil]
    constructor
    · intro h
      obtain ⟨⟨hlo, hhi⟩, h⟩ := Option.ite_none_right_eq_some.1 h
      cases h
      exact ⟨hnil, Int64.toInt_ofInt_of_le hlo (Int.lt_of_le_sub_one hhi)⟩
    · rintro ⟨-, h⟩
      rw [← h, if_pos ⟨n.minValue_le_toInt, n.toInt_le⟩, Int64.ofInt_toInt]

theorem toLower_of_isDigit {c : Char} (h : c.isDigit = true) : c.toLower = c := by
  rw [Char.isDigit_iff_toNat] at h
  unfold Char.toLower
  rw [dif_neg]
  rintro ⟨hA, -⟩
  have hle : 'A'.toNat ≤ '9'.toNat := Nat.le_trans hA h.2
  exact absurd hle (by decide)

/-- A numeral with digits is read as the double that is nearest to it, with the sign in front of it,
unless its exponent lacks digits. -/
theorem readFloat?_signed {n : Numeral} (hn : n.IsSpelled) (hd : n.hasDigits = true)
    (he : n.exponentIsEmpty = false) (negative : Bool) :
    readFloat? ((if negative then ['-'] else []) ++ n.spelling)
      = some (Binary64.ofSigned negative n.toDecimal.bits) := by
  have hsplit := Numeral.split_spelling hn
  obtain ⟨c, cs, hcs, hc⟩ := Numeral.head_spelling hn hd
  rw [hcs] at hsplit ⊢
  -- the first character is neither a sign nor a letter of the names of infinity and of no number
  have hfirst : ¬ (c = '+' ∨ c = '-') ∧ c.toLower ≠ 'i' ∧ c.toLower ≠ 'n' := by
    rcases hc with hc | rfl
    · rw [toLower_of_isDigit hc]
      refine ⟨?_, ?_, ?_⟩
      · rintro (rfl | rfl) <;> exact absurd hc (by decide)
      · rintro rfl
        exact absurd hc (by decide)
      · rintro rfl
        exact absurd hc (by decide)
    · decide
  obtain ⟨hsign, hi, hn⟩ := hfirst
  have hbehind : Exponent.splitSign ((if negative then ['-'] else []) ++ c :: cs)
      = (if negative then ['-'] else [], c :: cs) := by
    cases negative
    · exact if_neg hsign
    · rfl
  have hminus : ((if negative then ['-'] else []) == ['-']) = negative := by
    cases negative <;> rfl
  simp only [readFloat?, hbehind, hminus, List.map_cons, List.cons.injEq, hi, hn, false_and,
    or_self, if_false, hsplit, hd, he]
  rfl

theorem readFloat?_eq {n : Numeral} (hn : n.IsSpelled) (hd : n.hasDigits = true)
    (he : n.exponentIsEmpty = false) :
    readFloat? n.spelling = some (Binary64.ofSigned false n.toDecimal.bits) :=
  readFloat?_signed hn hd he false

theorem readFloat?_spelling {n : Numeral} (hn : n.IsSpelled) (hd : n.hasDigits = true)
    (he : n.exponentIsEmpty = false) : (readFloat? n.spelling).isSome := by
  rw [readFloat?_eq hn hd he]
  rfl

end Formula
