import Formula.Proofs.Postfix.Bounds
import Formula.Proofs.Rounding.Text
import Formula.Proofs.Token.Boundary

/-!
# Printed numbers are read back

The text of a number is the spelling of a numeral, and such a text is read as one token and
evaluated to the number that the numeral denotes.

* `ReadsAs`: a source text that is one token and has a value in every context.
* `Numeral.IsNumber`: a numeral that makes a number. `Numeral.value`: this number.
  `Numeral.IsNumber.readsAs`: such a numeral is read as it.
* `printed_readsAs`: the texts of integers and of doubles without a sign are read back.
-/

namespace Formula

open Binary64

variable {n : Numeral}

/-- A source text is a single token, which takes all of it, and has the same value in every
context. -/
structure ReadsAs (text : String) (kind : TokenKind) (v : Value) : Prop where
  tokenize_eq : tokenize text = [⟨kind, text, 0⟩, ⟨.endOfInput, "", Text.utf8Length text.toList⟩]
  eval_eq : ∀ ctx, eval ctx text = .ok v

/-! ## Numerals as source texts -/

namespace Numeral

/-- A numeral that makes a number: it begins with a digit, an exponent has digits, a whole number
fits 64 bits with a sign, and it is not too long. -/
structure IsNumber (n : Numeral) : Prop where
  isSpelled : n.IsSpelled
  whole_ne_nil : n.whole ≠ []
  exponent : n.exponentIsEmpty = false
  fits : n.isWhole = true → (readDigits n.whole : Int) < 2 ^ 63
  length_le : n.spelling.length ≤ 1000

/-- The number that a numeral makes: an integer, if it has neither a point nor an exponent. -/
def value (n : Numeral) : Value :=
  if n.isWhole then .int (Int64.ofInt (readDigits n.whole))
  else .float (ofSigned false n.toDecimal.bits)

theorem toRat_of_isWhole (h : n.isWhole = true) : n.toDecimal.toRat = readDigits n.whole := by
  rw [isWhole, Bool.and_eq_true, Option.isNone_iff_eq_none, Option.isNone_iff_eq_none] at h
  simp [toDecimal, Decimal.toRat, h]

/-- The kind of token that a numeral makes. -/
def kind (n : Numeral) : TokenKind := if n.isWhole then .integer else .float

/-- Numerals are written in ASCII. -/
theorem utf8Length_spelling (hn : n.IsSpelled) :
    Text.utf8Length n.spelling = n.spelling.length := by
  have hdigit : ∀ c : Char, c.isDigit = true → c.utf8Size = 1 := by
    intro c hc
    have hle : c.toNat ≤ 57 := (Char.isDigit_iff_toNat.1 hc).2
    rw [Char.utf8Size_eq_one_iff, UInt32.le_iff_toNat_le]
    exact hle.trans (by decide)
  have hascii : ∀ c ∈ n.spelling, c.utf8Size = 1 := by
    intro c hc
    rcases List.mem_append.1 hc with hc | hc
    · rcases mem_of_mem_mantissa hn hc with hc | rfl
      · exact hdigit c hc
      · rfl
    · cases he : n.exponent with
      | none =>
        rw [he] at hc
        cases hc
      | some e =>
        obtain ⟨hmark, hsign, hdigits⟩ := hn.exponent e he
        rw [he, Option.elim_some, Exponent.spelling, List.mem_cons, List.mem_append] at hc
        rcases hc with rfl | hc | hc
        · rcases hmark with hm | hm <;> rw [hm] <;> rfl
        · rcases hsign with hs | hs | hs <;> rw [hs] at hc
          · cases hc
          · rw [List.mem_singleton.1 hc]
            rfl
          · rw [List.mem_singleton.1 hc]
            rfl
        · exact hdigit c (hdigits c hc)
  generalize n.spelling = cs at hascii
  induction cs with
  | nil => rfl
  | cons c cs ih =>
    obtain ⟨hc, hcs⟩ := List.forall_mem_cons.1 hascii
    rw [Text.utf8Length_cons, hc, ih hcs, List.length_cons, Nat.add_comm]

namespace IsNumber

theorem readFloat? (h : n.IsNumber) :
    Formula.readFloat? n.spelling = some (ofSigned false n.toDecimal.bits) :=
  readFloat?_eq h.isSpelled (hasDigits_of_whole_ne_nil h.whole_ne_nil) h.exponent

theorem toInt_ofInt (h : n.IsNumber) (hwhole : n.isWhole = true) :
    (Int64.ofInt (readDigits n.whole)).toInt = readDigits n.whole :=
  Int64.toInt_ofInt_of_le (le_trans (by decide) (Int.natCast_nonneg _)) (h.fits hwhole)

theorem readInt64? (h : n.IsNumber) (hwhole : n.isWhole = true) :
    Formula.readInt64? n.spelling = some (Int64.ofInt (readDigits n.whole)) := by
  rw [spelling_of_isWhole hwhole, readInt64?_digits h.isSpelled.whole]
  exact ⟨h.whole_ne_nil, h.toInt_ofInt hwhole⟩

/-- Such a numeral is read as a token with its spelling. -/
theorem ofNumeral (h : n.IsNumber) : Lexeme.ofNumeral n = .plain n.kind n.spelling := by
  have hlen : Text.utf8Length n.spelling ≤ 1000 := by
    rw [utf8Length_spelling h.isSpelled]
    exact h.length_le
  rw [Lexeme.ofNumeral, if_neg (by simp [h.exponent]), kind]
  by_cases hwhole : n.isWhole = true
  · rw [if_neg (by simp [hwhole]), if_pos (by simp [h.readInt64? hwhole]), if_pos hwhole]
    exact Lexeme.limited_of_le hlen
  · rw [if_pos (by simp [hwhole]), if_pos (by simp [h.readFloat?]), if_neg hwhole]
    exact Lexeme.limited_of_le hlen

theorem tokenize_spelling (h : n.IsNumber) :
    tokenize (String.ofList n.spelling) = [⟨n.kind, String.ofList n.spelling, 0⟩,
      ⟨.endOfInput, "", Text.utf8Length n.spelling⟩] := by
  obtain ⟨c, hc, hdigit⟩ := head?_spelling h.isSpelled h.whole_ne_nil
  obtain ⟨cs, hcs⟩ := List.head?_eq_some_iff.1 hc
  have hstarts : Lexeme.startsNumber c cs = true := by simp [Lexeme.startsNumber, hdigit]
  -- the numeral takes the whole text, so it is split into its own parts
  have hscan : Lexeme.scan c cs = (.plain n.kind n.spelling, []) := by
    rw [Lexeme.scan_of_startsNumber hstarts, ← hcs, Lexeme.scanNumber, split_spelling h.isSpelled]
    exact congrArg (·, []) h.ofNumeral
  have hpiece : Trivia.piece? (c :: cs) = none := by
    rw [Trivia.piece?_of_ne_slash (Lexeme.ne_slash_of_startsNumber hstarts), if_neg]
    intro hblank
    have hvisible := Text.toNat_of_isBlank hblank
    have hrange := Char.isDigit_iff_toNat.1 hdigit
    have h0 : '0'.toNat = 48 := rfl
    have h9 : '9'.toNat = 57 := rfl
    omega
  have hsplit : Trivia.split (Lexer.ofString (String.ofList n.spelling)).rest = ([], c :: cs) := by
    rw [Lexer.ofString, String.toList_ofList, hcs]
    exact Trivia.split_of_piece?_eq_none hpiece
  have hend : Trivia.split [] = ([], []) := Trivia.split_of_piece?_eq_none rfl
  rw [tokenize, Lexer.tokens_of_split_cons rfl hsplit hscan, Lexer.tokens_of_split_nil rfl hend]
  simp [Lexeme.plain, Lexer.pass, Lexer.ofString]

/-- The operand of such a token. -/
theorem ofLiteral (h : n.IsNumber) (position : Nat) :
    Operand.ofLiteral ⟨n.kind, String.ofList n.spelling, position⟩
      = .ok ⟨n.value, String.ofList n.spelling, position⟩ := by
  unfold kind value
  by_cases hwhole : n.isWhole = true
  · simp only [Operand.ofLiteral, if_pos hwhole, String.toList_ofList, h.readInt64? hwhole]
  · simp only [Operand.ofLiteral, if_neg hwhole, String.toList_ofList, h.readFloat?]

theorem eval_spelling (h : n.IsNumber) (ctx : Context) :
    eval ctx (String.ofList n.spelling) = .ok n.value := by
  have hlit : Token.isLiteral ⟨n.kind, String.ofList n.spelling, 0⟩ = true := by
    unfold kind
    split <;> rfl
  have hitems : convertItems ctx.operators (tokenize (String.ofList n.spelling))
      = [⟨n.kind, String.ofList n.spelling, 0⟩].map .ok := by
    rw [h.tokenize_spelling]
    show convertItems ctx.operators ([_] ++ [_]) = _
    exact convertItems_literals (List.forall_mem_singleton.2 hlit) rfl
  rw [eval_eq_valueOfItems, hitems, ← valueOfTokens, valueOfTokens_eq, executeTokens_literal hlit,
    h.ofLiteral]
  rfl

/-- A source text that is a numeral is read as its value. -/
theorem readsAs (h : n.IsNumber) : ReadsAs (String.ofList n.spelling) n.kind n.value where
  tokenize_eq := by
    rw [String.toList_ofList]
    exact h.tokenize_spelling
  eval_eq := h.eval_spelling

/-- As a double, the value is the one nearest to the numeral. -/
theorem float?_value (h : n.IsNumber) :
    n.value.float? = some (ofSigned false (nearest n.toDecimal.toRat)) := by
  unfold value
  by_cases hwhole : n.isWhole = true
  · have hnonneg : ¬ ((readDigits n.whole : Int) : Rat) < 0 :=
      not_lt.2 (by exact_mod_cast Int.natCast_nonneg (readDigits n.whole))
    rw [if_pos hwhole, Value.float?, h.toInt_ofInt hwhole, ofInt, ofRat, if_neg hnonneg,
      toRat_of_isWhole hwhole, Int.cast_natCast]
  · rw [if_neg hwhole, Value.float?, Decimal.bits_eq_nearest]

end IsNumber

end Numeral

/-! ## Printed numbers -/

/-- The digits of an integer. -/
def integerNumeral (k : Nat) : Numeral := ⟨Nat.toDigits 10 k, none, none⟩

theorem isNumber_integerNumeral {k : Nat} (h : k < 2 ^ 63) : (integerNumeral k).IsNumber where
  isSpelled := ⟨fun c hc => Nat.isDigit_of_mem_toDigits (by decide) (by decide) hc, nofun, nofun⟩
  whole_ne_nil := Nat.toDigits_ne_nil
  exponent := rfl
  fits := fun _ => by
    rw [integerNumeral, readDigits_toDigits]
    exact_mod_cast h
  length_le := by
    rw [Numeral.spelling_of_isWhole rfl]
    refine ((Nat.length_toDigits_le_iff (by decide) (by decide)).2 (h.trans ?_) : _ ≤ 19).trans ?_
    · decide
    · decide

theorem isNumber_magnitudeNumeral {bits : Nat} (h : bits < infinity) :
    (magnitudeNumeral (magnitude bits)).IsNumber where
  isSpelled := isSpelled_magnitudeNumeral (magnitude_nonneg h)
  whole_ne_nil := whole_magnitudeNumeral_ne_nil (magnitude_nonneg h)
  exponent := exponentIsEmpty_magnitudeNumeral _
  fits := fun hwhole => by
    have hlt := toRat_magnitudeNumeral_lt (magnitude_nonneg h) hwhole
    rw [Numeral.toRat_of_isWhole hwhole] at hlt
    have hlt : readDigits (magnitudeNumeral (magnitude bits)).whole < 10 ^ 5 := by
      exact_mod_cast hlt
    omega
  length_le := length_spelling_magnitudeNumeral_le h

/-- What makes the text of a magnitude no row of digits. -/
theorem mem_spelling_magnitudeNumeral_iff {m : Rat} (hm : 0 ≤ m) :
    '.' ∈ (magnitudeNumeral m).spelling ∨ 'e' ∈ (magnitudeNumeral m).spelling ↔
      (magnitudeNumeral m).isWhole = false := by
  have hn := isSpelled_magnitudeNumeral hm
  constructor
  · intro hmem
    rw [Bool.eq_false_iff, ne_eq, Numeral.isWhole_iff hn]
    intro hdigits
    rcases hmem with hc | hc <;> have hdigit := hdigits _ hc <;> revert hdigit <;> decide
  · intro hwhole
    cases hf : (magnitudeNumeral m).fraction with
    | some ds => exact .inl (by simp [Numeral.spelling, hf])
    | none =>
      cases he : (magnitudeNumeral m).exponent with
      | some e =>
        have hmark := (exponent_magnitudeNumeral he).1
        exact .inr (by simp [Numeral.spelling, he, Exponent.spelling, hmark])
      | none => simp [Numeral.isWhole, hf, he] at hwhole

/-- Positive zero and the positive doubles have no sign. -/
theorem exists_ofSigned_false {x : Float} (hfin : x.isFinite = true) (hx : x = 0 ∨ 0 < x) :
    ∃ bits, bits < infinity ∧ x = ofSigned false bits := by
  have hzero : (0 : Float) = ofSigned false 0 := rfl
  rcases hx with rfl | hpos
  · exact ⟨0, by decide, hzero⟩
  · obtain ⟨negative, m, hread⟩ := Reading.isFinite_iff.1 hfin
    obtain ⟨bits, hbits, -, rfl⟩ := Reading.eq_ofSigned_of_finite hread
    rw [hzero, ofSigned_lt_iff (Nat.zero_le _) hbits.le] at hpos
    cases negative with
    | false => exact ⟨bits, hbits, rfl⟩
    | true =>
      simp only [rank, Bool.false_eq_true, if_false, if_true] at hpos
      omega

/-- The text of an integer that is not negative is read as this integer. -/
theorem display_int_readsAs {k : Int64} (hk : 0 ≤ k) :
    ReadsAs (Value.int k).display .integer (.int k) := by
  obtain ⟨n, hn⟩ := Int.eq_ofNat_of_zero_le (Int64.le_iff_toInt_le.1 hk)
  have hlt := k.toInt_lt
  have hnumber := isNumber_integerNumeral (k := n) (by omega)
  have htext : (Value.int k).display = String.ofList (integerNumeral n).spelling := by
    rw [Numeral.spelling_of_isWhole rfl, Value.display, hn]
    rfl
  have hvalue : (integerNumeral n).value = .int k := by
    have hwhole : (integerNumeral n).isWhole = true := rfl
    rw [Numeral.value, if_pos hwhole, integerNumeral, readDigits_toDigits, ← hn, Int64.ofInt_toInt]
  rw [htext, ← hvalue]
  exact hnumber.readsAs

/-- The text of a double without a sign is read as the double that is kept. -/
theorem shownFloat_readsAs {bits : Nat} (h : bits < infinity) :
    let shown := shownFloat (ofSigned false bits)
    let n := magnitudeNumeral (magnitude bits)
    ReadsAs shown.2 n.kind n.value ∧ n.value.float? = some shown.1 ∧
      shown.2.toList = n.spelling := by
  have hread := Reading.ofFloat_ofSigned h false
  have hnumber := isNumber_magnitudeNumeral h
  have htext : (shownFloat (ofSigned false bits)).2
      = String.ofList (magnitudeNumeral (magnitude bits)).spelling :=
    (shownFloat_snd _).trans (floatText_of_finite hread)
  dsimp only
  rw [htext, shownFloat_fst_of_finite hread, String.toList_ofList]
  exact ⟨hnumber.readsAs, hnumber.float?_value, rfl⟩

/-- **Printed numbers are read back.** The text of an integer that is not negative is one token, and
its value is this integer. The text of a finite double that is positive zero or positive is one
token, and its value is the double that is kept: as an integer, if the text has neither a point nor
an exponent, and otherwise as a double. -/
theorem printed_readsAs :
    (∀ k : Int64, 0 ≤ k → ReadsAs (Value.int k).display .integer (.int k)) ∧
    ∀ x : Float, x.isFinite = true → x = 0 ∨ 0 < x →
      ∃ kind v, ReadsAs (shownFloat x).2 kind v ∧ v.float? = some (shownFloat x).1 ∧
        if '.' ∈ (shownFloat x).2.toList ∨ 'e' ∈ (shownFloat x).2.toList
        then kind = .float ∧ v.isInt = false else kind = .integer ∧ v.isInt = true := by
  refine ⟨fun k => display_int_readsAs, fun x hfin hx => ?_⟩
  obtain ⟨bits, hbits, rfl⟩ := exists_ofSigned_false hfin hx
  obtain ⟨hreads, hvalue, htext⟩ := shownFloat_readsAs hbits
  refine ⟨_, _, hreads, hvalue, ?_⟩
  have hiff := mem_spelling_magnitudeNumeral_iff (magnitude_nonneg hbits)
  rw [htext]
  split
  · next hmarked => simp [Numeral.kind, Numeral.value, Value.isInt, hiff.1 hmarked]
  · next hplain =>
    rw [hiff, Bool.not_eq_false] at hplain
    simp [Numeral.kind, Numeral.value, Value.isInt, hplain]

/-- The greatest integer, `2 / 3`, and the greatest double, which becomes infinite. -/
theorem printed_readsAs_greatest :
    let twoThirds := Float.ofBits 0x3FE5555555555555
    let greatest := Float.ofBits 0x7FEFFFFFFFFFFFFF
    ReadsAs "9223372036854775807" .integer (.int Int64.maxValue) ∧
      ((shownFloat twoThirds).2 = "0.66667" ∧ ∃ v, ReadsAs "0.66667" .float v ∧
        v.float? = some (shownFloat twoThirds).1) ∧
      (shownFloat greatest).2 = "1.7977e+308" ∧ ∃ v, ReadsAs "1.7977e+308" .float v ∧
        v.float? = some (ofSigned false infinity) := by
  intro twoThirds greatest
  have htwoThirds : (shownFloat twoThirds).2 = "0.66667" := by decide +kernel
  have hgreatest : shownFloat greatest = (ofSigned false infinity, "1.7977e+308") := by
    decide +kernel
  refine ⟨printed_readsAs.1 Int64.maxValue (by decide), ⟨htwoThirds, ?_⟩, by rw [hgreatest], ?_⟩
  · obtain ⟨kind, v, hreads, hvalue, hkind⟩ :=
      printed_readsAs.2 twoThirds (by decide +kernel) (.inr (by decide +kernel))
    rw [htwoThirds, if_pos (by decide)] at hkind
    rw [htwoThirds, hkind.1] at hreads
    exact ⟨v, hreads, hvalue⟩
  · obtain ⟨kind, v, hreads, hvalue, hkind⟩ :=
      printed_readsAs.2 greatest (by decide +kernel) (.inr (by decide +kernel))
    rw [hgreatest] at hreads hvalue hkind
    rw [if_pos (by decide)] at hkind
    rw [hkind.1] at hreads
    exact ⟨v, hreads, hvalue⟩

end Formula
