import Formula.Proofs.Token.Munch
import Formula.Proofs.Token.Skipped

/-!
# Where a lexeme ends

Of the text behind a lexeme only the first character matters: it is one with which the lexeme does
not go on. So a lexeme stays what it is if another text follows that begins in the same way, or with
a blank, or if nothing follows.

* `IsContinuing p`: a class of characters with which lexemes go on.
* `EndsAlike tail tail'`: a text that begins like another one up to the case of a letter, or with a
  blank.
* `Lexeme.IsClosed`: a lexeme that is not cut off by the end of the text.
* `Lexeme.scan_of_endsAlike`: what stands at the front of a text if what follows is changed.
* `Lexer.induction_on_tokens`: what holds of the tokens of a lexer is proved token by token.
-/

namespace Formula

/-! ## Blanks and cases of letters -/

theorem Text.toNat_of_isBlank {c : Char} (h : isBlank c = true) :
    c.toNat ≤ 32 ∨ 128 ≤ c.toNat := by
  simp only [isBlank, blankRanges, List.any_cons, List.any_nil, Bool.or_eq_true, Bool.and_eq_true,
    decide_eq_true_eq, Bool.false_eq_true, or_false] at h
  omega

theorem toLower_of_isUpper_eq_false {c : Char} (h : c.isUpper = false) : c.toLower = c := by
  unfold Char.toLower
  rw [dif_neg]
  exact fun hupper => of_decide_eq_false h hupper

theorem toLower_of_le {c : Char} (h : 128 ≤ c.toNat) : c.toLower = c := by
  refine toLower_of_isUpper_eq_false (Bool.eq_false_iff.2 fun hupper => ?_)
  have hle : c.toNat ≤ 'Z'.toNat := (of_decide_eq_true hupper).2
  exact absurd (Nat.le_trans h hle) (by decide)

/-- What holds of all ASCII characters is checked by their numbers. -/
theorem of_ascii_check {P : Char → Prop} (hcheck : ∀ n < 128, P (Char.ofNat n)) {c : Char}
    (h : c.toNat < 128) : P c := by
  have hc := hcheck c.toNat h
  rwa [Char.ofNat_toNat] at hc

/-- A class of visible ASCII characters that has both cases of a letter or none. -/
structure IsContinuing (p : Char → Bool) : Prop where
  visible : ∀ c, p c = true → 32 < c.toNat ∧ c.toNat < 128
  toLower : ∀ c, p c.toLower = p c

/-- Only ASCII characters have to be checked. -/
theorem isContinuing_of_check {p : Char → Bool} (hascii : ∀ c, p c = true → c.toNat < 128)
    (hcheck : ∀ n < 128, (p (Char.ofNat n) = true → 32 < (Char.ofNat n).toNat) ∧
      p (Char.ofNat n).toLower = p (Char.ofNat n)) : IsContinuing p := by
  have hcheck : ∀ c : Char, c.toNat < 128 →
      (p c = true → 32 < c.toNat) ∧ p c.toLower = p c := fun c =>
    of_ascii_check (P := fun c => (p c = true → 32 < c.toNat) ∧ p c.toLower = p c) hcheck
  refine ⟨fun c hc => ⟨(hcheck c (hascii c hc)).1 hc, hascii c hc⟩, fun c => ?_⟩
  rcases Nat.lt_or_ge c.toNat 128 with hlt | hle
  · exact (hcheck c hlt).2
  · rw [toLower_of_le hle]

theorem IsContinuing.congr {p : Char → Bool} (h : IsContinuing p) {c d : Char}
    (hlower : d.toLower = c.toLower) : p d = p c := by
  rw [← h.toLower d, hlower, h.toLower]

/-- Some ASCII characters, which have to be checked. -/
theorem isContinuing_mem {cs : List Char} (hcheck : cs.all (·.toNat < 128) = true ∧ ∀ n < 128,
    (decide (Char.ofNat n ∈ cs) = true → 32 < (Char.ofNat n).toNat) ∧
      decide ((Char.ofNat n).toLower ∈ cs) = decide (Char.ofNat n ∈ cs)) :
    IsContinuing fun c => decide (c ∈ cs) :=
  isContinuing_of_check (fun c hc =>
    of_decide_eq_true (List.all_eq_true.1 hcheck.1 c (of_decide_eq_true hc))) hcheck.2

theorem isContinuing_isDigit : IsContinuing Char.isDigit := by
  refine isContinuing_of_check (fun c hc => ?_) (by decide)
  have hle : c.toNat ≤ 57 := (Char.isDigit_iff_toNat.1 hc).2
  omega

theorem isContinuing_isNamePart : IsContinuing Lexeme.isNamePart := by
  refine isContinuing_of_check (fun c hc => ?_) (by decide)
  rcases Lexeme.isNamePart_iff.1 hc with (⟨-, hle⟩ | ⟨-, hle⟩ | rfl) | hd
  · exact Nat.lt_of_le_of_lt hle (by decide)
  · exact Nat.lt_of_le_of_lt hle (by decide)
  · decide
  · exact (isContinuing_isDigit.visible c hd).2

theorem isContinuing_isAlpha : IsContinuing Char.isAlpha := by
  refine isContinuing_of_check (fun c hc => ?_) (by decide)
  exact (isContinuing_isNamePart.visible c (by simp [Lexeme.isNamePart, Char.isAlphanum, hc])).2

/-- Nothing has to be checked where no letter is in the class. -/
theorem isContinuing_of_not_isAlpha {p : Char → Bool}
    (h : ∀ c, p c = true → 32 < c.toNat ∧ c.toNat < 128 ∧ c.isAlpha = false) :
    IsContinuing p where
  visible c hc := ⟨(h c hc).1, (h c hc).2.1⟩
  toLower c := by
    have hfixed (hc : c.isAlpha = false) : c.toLower = c :=
      toLower_of_isUpper_eq_false (Bool.or_eq_false_iff.1 hc).1
    rw [Bool.eq_iff_iff]
    constructor
    · intro hlower
      have halpha := (h _ hlower).2.2
      rw [isContinuing_isAlpha.toLower] at halpha
      rwa [hfixed halpha] at hlower
    · intro hc
      rwa [hfixed (h c hc).2.2]

/-! ## What follows -/

/-- A text begins like another one up to the case of a letter, or with a blank, or it is empty. -/
def EndsAlike (tail tail' : List Char) : Prop :=
  ∀ d ∈ tail'.head?, Text.isBlank d = true ∨ ∃ c ∈ tail.head?, d.toLower = c.toLower

section EndsAlike

variable {tail tail' : List Char}

theorem endsAlike_nil (tail : List Char) : EndsAlike tail [] := nofun

theorem endsAlike_blank {c : Char} (h : Text.isBlank c = true) (tail rest : List Char) :
    EndsAlike tail (c :: rest) := by
  rintro d ⟨⟩
  exact .inl h

/-- The same text in front changes nothing. -/
theorem EndsAlike.append (h : EndsAlike tail tail') (w : List Char) :
    EndsAlike (w ++ tail) (w ++ tail') := by
  cases w with
  | nil => exact h
  | cons c w =>
    rintro d ⟨⟩
    exact .inr ⟨c, rfl, rfl⟩

/-- A text that begins with no character of a class is followed by none either. -/
theorem EndsAlike.eq_false (h : EndsAlike tail tail') {p : Char → Bool} (hp : IsContinuing p)
    (htail : ∀ c ∈ tail.head?, p c = false) : ∀ d ∈ tail'.head?, p d = false := by
  intro d hd
  rcases h d hd with hblank | ⟨c, hc, hlower⟩
  · rw [Bool.eq_false_iff]
    intro hpd
    have hvisible := hp.visible d hpd
    have hb := Text.toNat_of_isBlank hblank
    omega
  · rw [hp.congr hlower]
    exact htail c hc

theorem EndsAlike.notMem (h : EndsAlike tail tail') (cs : List Char)
    (hcheck : cs.all (·.toNat < 128) = true ∧ ∀ n < 128,
      (decide (Char.ofNat n ∈ cs) = true → 32 < (Char.ofNat n).toNat) ∧
        decide ((Char.ofNat n).toLower ∈ cs) = decide (Char.ofNat n ∈ cs))
    (htail : ∀ c ∈ tail.head?, c ∉ cs) : ∀ d ∈ tail'.head?, d ∉ cs := fun d hd =>
  of_decide_eq_false (h.eq_false (isContinuing_mem hcheck)
    (fun c hc => decide_eq_false (htail c hc)) d hd)

/-- A numeral that does not go on with a text goes on with no other one that begins alike. -/
theorem EndsAlike.stopsAt (h : EndsAlike tail tail') {n : Numeral}
    (htail : ∀ c ∈ tail.head?, n.StopsAt c) : ∀ d ∈ tail'.head?, n.StopsAt d := by
  have hdigit := h.eq_false isContinuing_isDigit fun c hc => (htail c hc).digit
  refine fun d hd => ⟨hdigit d hd, fun hf he hpoint => ?_, fun he hmark => ?_, fun e he => ?_⟩
  · have hnone := h.notMem ['.'] (by decide) fun c hc hmem =>
      (htail c hc).point hf he (List.mem_singleton.1 hmem)
    exact hnone d hd (List.mem_singleton.2 hpoint)
  · have hnone := h.notMem ['e', 'E'] (by decide) fun c hc hmem =>
      (htail c hc).mark he (by simpa using hmem)
    exact hnone d hd (by simpa using hmark)
  · refine ⟨hdigit d hd, fun hs hds hsign => ?_⟩
    have hnone := h.notMem ['+', '-'] (by decide) fun c hc hmem =>
      ((htail c hc).exponent e he).sign hs hds (by simpa using hmem)
    exact hnone d hd (by simpa using hsign)

end EndsAlike

namespace Lexeme

/-- A lexeme that is not cut off by the end of the text, as comments and quoted texts without an end
are. -/
def IsClosed (x : Lexeme) : Prop :=
  x.kind = .illegal → x.text ≠ Defect.openComment.message ∧ x.text ≠ Defect.openString.message

theorem isClosed_of_kind {x : Lexeme} (h : x.kind ≠ .illegal) : x.IsClosed := fun hk => absurd hk h

theorem not_isClosed_openComment (w : List Char) : ¬ (illegal .openComment w).IsClosed :=
  fun h => (h rfl).1 rfl

theorem not_isClosed_openString (w : List Char) : ¬ (illegal .openString w).IsClosed :=
  fun h => (h rfl).2 rfl

/-! ## One lexeme in front of another text -/

section Scan

variable {c : Char} {w tail tail' : List Char} {x : Lexeme}

/-- The text in front of the rest is the spelling. -/
theorem spelling_of_scan (h : scan c (w ++ tail) = (x, tail)) : x.spelling = c :: w := by
  have happend := scan_append c (w ++ tail)
  rw [h, ← List.cons_append] at happend
  exact List.append_cancel_right happend

/-- A lexeme takes the front of the text. -/
theorem exists_word_of_scan {cs rest : List Char} (h : scan c cs = (x, rest)) :
    ∃ w, cs = w ++ rest ∧ x.spelling = c :: w := by
  have happend := scan_append c cs
  have hne := spelling_scan_ne_nil c cs
  rw [h] at happend hne
  obtain ⟨d, w, hspelling⟩ := List.exists_cons_of_ne_nil hne
  rw [hspelling] at happend
  obtain ⟨rfl, rfl⟩ := List.cons.inj happend
  exact ⟨w, rfl, hspelling⟩

theorem scan_of_endsAlike_number (hnum : startsNumber c (w ++ tail) = true)
    (hscan : scan c (w ++ tail) = (x, tail)) (h : EndsAlike tail tail') :
    scan c (w ++ tail') = (x, tail') := by
  have hspelling := spelling_of_scan hscan
  obtain ⟨n, rest, hsplit⟩ : ∃ n rest, Numeral.split (c :: (w ++ tail)) = (n, rest) := ⟨_, _, rfl⟩
  have hn := Numeral.isSpelled_split (c :: (w ++ tail))
  have hstop := Numeral.stopsAt_of_split hsplit
  rw [scan_of_startsNumber hnum, scanNumber, hsplit] at hscan
  rw [hsplit] at hn
  cases hscan
  rw [spelling_ofNumeral] at hspelling
  have hnum' : startsNumber c (w ++ tail') = true := by
    simp only [startsNumber, Bool.or_eq_true, Bool.and_eq_true] at hnum ⊢
    rcases hnum with hd | ⟨hp, hd⟩
    · exact .inl hd
    · refine .inr ⟨hp, ?_⟩
      cases w with
      | cons d w => exact hd
      | nil =>
        obtain ⟨d, hmem, hd⟩ := (Option.any_eq_true _ _).1 hd
        rw [(hstop d hmem).digit] at hd
        cases hd
  rw [scan_of_startsNumber hnum', scanNumber, ← List.cons_append, ← hspelling,
    Numeral.split_append hn (h.stopsAt hstop)]

theorem scan_of_endsAlike_quote (hquote : c = '"' ∨ c = '\'')
    (hscan : scan c (w ++ tail) = (x, tail)) (hclosed : x.IsClosed ∨ (tail = [] → tail' = [])) :
    scan c (w ++ tail') = (x, tail') := by
  rw [scan_of_isQuote hquote] at hscan ⊢
  by_cases hmem : c ∈ w ++ tail
  · obtain ⟨body, rest, htext, hbody⟩ := List.eq_append_cons_of_mem hmem
    rw [htext, scanString_of_mem hbody] at hscan
    cases hscan
    have hw : w = body ++ [c] := List.append_cancel_right (htext.trans (by simp))
    rw [hw, List.append_assoc, List.singleton_append, scanString_of_mem hbody]
  · rw [scanString_of_notMem hmem] at hscan
    cases hscan
    rcases hclosed with hclosed | hnil
    · exact absurd hclosed (not_isClosed_openString _)
    · rw [hnil rfl]
      exact scanString_of_notMem hmem

/-- An operator of two characters is left by no other second one. -/
theorem isContinuing_operatorPairs (c : Char) :
    IsContinuing fun d => decide ((c, d) ∈ operatorPairs) := by
  have hpairs : ∀ p ∈ operatorPairs, 32 < p.2.toNat ∧ p.2.toNat < 128 ∧ p.2.isAlpha = false := by
    decide
  exact isContinuing_of_not_isAlpha fun d hd => hpairs (c, d) (of_decide_eq_true hd)

theorem scan_of_endsAlike_operator (hstart : c ∈ operatorStarts)
    (hopen : ¬ (c = '/' ∧ (w ++ tail).head? = some '*'))
    (hopen' : ¬ (c = '/' ∧ (w ++ tail').head? = some '*'))
    (hscan : scan c (w ++ tail) = (x, tail)) (h : EndsAlike tail tail') :
    scan c (w ++ tail') = (x, tail') := by
  have hspelling := spelling_of_scan hscan
  rw [scan_of_operatorStart hstart hopen] at hscan
  rw [scan_of_operatorStart hstart hopen']
  cases w with
  | nil =>
    have hx : x = plain .operator [c] ∧ ∀ d ∈ tail.head?, (c, d) ∉ operatorPairs := by
      cases tail with
      | nil =>
        cases hscan
        exact ⟨rfl, nofun⟩
      | cons d tail =>
        by_cases hpair : (c, d) ∈ operatorPairs
        · rw [List.nil_append, scanOperator, if_pos hpair] at hscan
          obtain ⟨rfl, -⟩ := Prod.mk.inj hscan
          cases hspelling
        · rw [List.nil_append, scanOperator, if_neg hpair] at hscan
          cases hscan
          refine ⟨rfl, ?_⟩
          rintro _ ⟨⟩
          exact hpair
    obtain ⟨rfl, hpair⟩ := hx
    -- the new text does not bring a second character of the operator either
    have hpair' := h.eq_false (isContinuing_operatorPairs c) fun d hd =>
      decide_eq_false (hpair d hd)
    cases tail' with
    | nil => rfl
    | cons d tail' => exact if_neg (of_decide_eq_false (hpair' d rfl))
  | cons d w =>
    by_cases hpair : (c, d) ∈ operatorPairs
    · rw [List.cons_append, scanOperator, if_pos hpair] at hscan
      obtain ⟨rfl, -⟩ := Prod.mk.inj hscan
      cases hspelling
      rw [List.cons_append, scanOperator, if_pos hpair, List.nil_append]
    · rw [List.cons_append, scanOperator, if_neg hpair] at hscan
      obtain ⟨rfl, -⟩ := Prod.mk.inj hscan
      cases hspelling

/-- A name ends in front of the first character that belongs to none. -/
theorem scan_name_iff (hname : isNameStart c = true) :
    scan c (w ++ tail) = (x, tail) ↔
      x = limited (plain .identifier (c :: w)) ∧ (∀ d ∈ w, isNamePart d = true) ∧
        ∀ d ∈ tail.head?, isNamePart d = false := by
  constructor
  · intro hscan
    have hspelling := spelling_of_scan hscan
    have hparts := of_mem_takeWhile isNamePart (c :: (w ++ tail))
    have hhead := head_dropWhile isNamePart (c :: (w ++ tail))
    rw [scan_of_isNameStart hname, scanName] at hscan
    obtain ⟨rfl, htail⟩ := Prod.mk.inj hscan
    rw [spelling_limited] at hspelling
    have hfront : (c :: (w ++ tail)).takeWhile isNamePart = c :: w := hspelling
    rw [hfront] at hparts ⊢
    rw [htail] at hhead
    exact ⟨rfl, (List.forall_mem_cons.1 hparts).2, hhead⟩
  · rintro ⟨rfl, hw, hhead⟩
    have hparts : ∀ d ∈ c :: w, isNamePart d = true :=
      List.forall_mem_cons.2 ⟨isNamePart_of_isNameStart hname, hw⟩
    rw [scan_of_isNameStart hname, scanName, ← List.cons_append,
      takeWhile_append_of_head hparts hhead, dropWhile_append_of_head hparts hhead]

theorem scan_of_endsAlike_name (hname : isNameStart c = true)
    (hscan : scan c (w ++ tail) = (x, tail)) (h : EndsAlike tail tail') :
    scan c (w ++ tail') = (x, tail') := by
  rw [scan_name_iff hname] at hscan ⊢
  exact ⟨hscan.1, hscan.2.1, h.eq_false isContinuing_isNamePart hscan.2.2⟩

/-- What begins no longer lexeme takes one character, whatever follows. -/
theorem exists_scan_eq (hquote : ¬ (c = '"' ∨ c = '\'')) (hstart : c ∉ operatorStarts)
    (hname : ¬ isNameStart c = true) :
    ∃ y, ∀ cs, ¬ startsNumber c cs = true → scan c cs = (y, cs) := by
  by_cases hbracket : c ∈ ['(', ')', ',']
  · simp only [List.mem_cons, List.not_mem_nil, or_false] at hbracket
    rcases hbracket with rfl | rfl | rfl
    · exact ⟨plain .openParen ['('], fun _ _ => rfl⟩
    · exact ⟨plain .closeParen [')'], fun _ _ => rfl⟩
    · exact ⟨plain .separator [','], fun _ _ => rfl⟩
  · exact ⟨_, fun cs hnum => scan_of_unexpected (fun hb => hnum (startsNumber_iff.2 hb))
      (fun hl => hname (isNameStart_iff.2 hl)) hquote hstart hbracket⟩

/-- **A lexeme stays what it is if what follows is changed**, as long as the new text begins in the
same way, or with a blank, or is empty. A lexeme that only the end of the text cuts off needs this
end. -/
theorem scan_of_endsAlike (hscan : scan c (w ++ tail) = (x, tail))
    (hclosed : x.IsClosed ∨ (tail = [] → tail' = [])) (h : EndsAlike tail tail') :
    scan c (w ++ tail') = (x, tail') := by
  by_cases hopen : c = '/' ∧ (w ++ tail).head? = some '*'
  · rw [scan, if_pos hopen] at hscan
    cases hscan
    rcases hclosed with hclosed | hnil
    · exact absurd hclosed (not_isClosed_openComment _)
    · rw [hnil rfl, scan, if_pos hopen]
  have hfront := h.append w
  have hopen' : ¬ (c = '/' ∧ (w ++ tail').head? = some '*') := by
    rintro ⟨hc, hstar⟩
    have hnone := hfront.notMem ['*'] (by decide) fun d hd hmem =>
      hopen ⟨hc, Option.mem_def.1 (List.mem_singleton.1 hmem ▸ hd)⟩
    exact hnone '*' hstar List.mem_cons_self
  by_cases hnum : startsNumber c (w ++ tail) = true
  · exact scan_of_endsAlike_number hnum hscan h
  by_cases hquote : c = '"' ∨ c = '\''
  · exact scan_of_endsAlike_quote hquote hscan hclosed
  by_cases hstart : c ∈ operatorStarts
  · exact scan_of_endsAlike_operator hstart hopen hopen' hscan h
  by_cases hname : isNameStart c = true
  · exact scan_of_endsAlike_name hname hscan h
  -- a point that had no digit behind it has none now
  have hnum' : ¬ startsNumber c (w ++ tail') = true := by
    simp only [startsNumber, Bool.or_eq_true, Bool.and_eq_true, not_or, not_and] at hnum ⊢
    refine ⟨hnum.1, fun hp hd => ?_⟩
    obtain ⟨d, hmem, hd⟩ := (Option.any_eq_true _ _).1 hd
    have hnone := hfront.eq_false isContinuing_isDigit fun e he =>
      Bool.eq_false_iff.2 fun hde => hnum.2 hp ((Option.any_eq_true _ _).2 ⟨e, he, hde⟩)
    rw [hnone d hmem] at hd
    cases hd
  obtain ⟨y, hone⟩ := exists_scan_eq hquote hstart hname
  rw [hone _ hnum] at hscan
  obtain ⟨rfl, hw⟩ := Prod.mk.inj hscan
  obtain rfl : w = [] := List.append_left_eq_self.1 hw
  exact hone _ hnum'

end Scan

end Lexeme

/-! ## What is skipped in front of a lexeme -/

namespace Trivia

variable {c : Char} {w cs tail tail' : List Char} {x : Lexeme}

/-- A slash in front of neither a slash nor a star begins no comment. -/
theorem piece?_slash_eq_none (h : ∀ d ∈ cs.head?, d ∉ ['*', '/']) : piece? ('/' :: cs) = none := by
  cases cs with
  | nil => rfl
  | cons d cs =>
    have hd := h d rfl
    unfold piece?
    split
    · next heq =>
      cases heq
      exact absurd (by simp) hd
    · next heq =>
      cases heq
      exact absurd (by simp) hd
    · next heq =>
      cases heq
      exact if_neg (by decide)
    · rfl

/-- Where a lexeme stands and nothing is skipped, nothing is skipped either if what follows the
lexeme is changed. -/
theorem piece?_of_endsAlike (hpiece : piece? (c :: (w ++ tail)) = none)
    (hscan : Lexeme.scan c (w ++ tail) = (x, tail))
    (hclosed : x.IsClosed ∨ (tail = [] → tail' = [])) (h : EndsAlike tail tail') :
    piece? (c :: (w ++ tail')) = none := by
  by_cases hslash : c = '/'
  · subst hslash
    by_cases hstar : (w ++ tail).head? = some '*'
    · rw [Lexeme.scan, if_pos ⟨rfl, hstar⟩] at hscan
      cases hscan
      rcases hclosed with hclosed | hnil
      · exact absurd hclosed (Lexeme.not_isClosed_openComment _)
      · rwa [hnil rfl]
    · refine piece?_slash_eq_none ((h.append w).notMem _ (by decide) ?_)
      intro d hd hmem
      simp only [List.mem_cons, List.not_mem_nil, or_false] at hmem
      rcases hmem with rfl | rfl
      · exact hstar hd
      · obtain ⟨rest, hrest⟩ := List.head?_eq_some_iff.1 hd
        rw [hrest] at hpiece
        cases hpiece
  · rw [piece?_of_ne_slash hslash] at hpiece ⊢
    split at hpiece
    · cases hpiece
    · next hblank => exact if_neg hblank

end Trivia

/-! ## All tokens -/

/-- The bytes that the text of a token takes. -/
def Token.width (t : Token) : Nat := Text.utf8Length t.text.toList

namespace Lexer

variable {l : Lexer} {trivia : List Char}

theorem tokens_of_split_cons {c : Char} {cs rest : List Char} {x : Lexeme}
    (hf : l.finished = false) (hsplit : Trivia.split l.rest = (trivia, c :: cs))
    (hscan : Lexeme.scan c cs = (x, rest)) :
    l.tokens = ⟨x.kind, x.text, l.offset + Text.utf8Length trivia⟩
      :: ((l.pass trivia (c :: cs)).pass x.spelling rest).tokens := by
  have hpass : l.passTrivia = l.pass trivia (c :: cs) := by rw [passTrivia, hsplit]
  have hrest : l.passTrivia.rest = c :: cs := by rw [hpass]; rfl
  have hread := readToken_of_rest_cons hrest
  rw [hscan, hpass] at hread
  refine tokens_of_next ?_
  rw [next, if_neg (by simp [hf]), hread]
  rfl

theorem tokens_of_split_nil (hf : l.finished = false)
    (hsplit : Trivia.split l.rest = (trivia, [])) :
    l.tokens = [⟨.endOfInput, "", l.offset + Text.utf8Length trivia⟩] := by
  have hpass : l.passTrivia = l.pass trivia [] := by rw [passTrivia, hsplit]
  have hread : l.readToken = (none, l.pass trivia []) := by rw [readToken, readLexeme, hpass]; rfl
  have hnext : l.next = (some ⟨.endOfInput, "", l.offset + Text.utf8Length trivia⟩,
      { l.pass trivia [] with finished := true }) := by
    rw [next, if_neg (by simp [hf]), hread]
    rfl
  rw [tokens_of_next hnext, tokens_of_next_none]
  exact if_pos rfl

/-- A lexer that is not finished is at the last trivia of its text, or at some lexeme behind
trivia. -/
theorem induction_on_tokens {motive : (l : Lexer) → l.finished = false → Prop}
    (last : ∀ l trivia hf, Trivia.split l.rest = (trivia, []) → motive l hf)
    (lexeme : ∀ l trivia c cs x rest hf, Trivia.split l.rest = (trivia, c :: cs) →
      Lexeme.scan c cs = (x, rest) →
      motive ((l.pass trivia (c :: cs)).pass x.spelling rest) hf → motive l hf)
    (l : Lexer) (hf : l.finished = false) : motive l hf := by
  rcases hsplit : Trivia.split l.rest with ⟨trivia, _ | ⟨c, cs⟩⟩
  · exact last l trivia hf hsplit
  · rcases hscan : Lexeme.scan c cs with ⟨x, rest⟩
    exact lexeme l trivia c cs x rest hf hsplit hscan
      (induction_on_tokens last lexeme ((l.pass trivia (c :: cs)).pass x.spelling rest) hf)
termination_by l.rest.length
decreasing_by
  have htrivia := congrArg List.length (Trivia.split_append l.rest)
  have hlexeme := Lexeme.length_rest_of_scan c cs
  rw [hsplit, List.length_append] at htrivia
  rw [hscan] at hlexeme
  simp only [pass] at htrivia hlexeme ⊢
  omega

/-- The tokens of a lexer lie ahead of it. -/
theorem offset_le_of_mem_tokens (hf : l.finished = false) :
    ∀ t ∈ l.tokens, l.offset ≤ t.position := by
  induction l, hf using induction_on_tokens with
  | last l trivia hf hsplit =>
    rw [tokens_of_split_nil hf hsplit, List.forall_mem_singleton]
    exact Nat.le_add_right _ _
  | lexeme l trivia c cs x rest hf hsplit hscan ih =>
    rw [tokens_of_split_cons hf hsplit hscan, List.forall_mem_cons]
    refine ⟨Nat.le_add_right _ _, fun t ht => Nat.le_trans ?_ (ih t ht)⟩
    simp only [pass]
    omega

end Lexer

end Formula
