import Formula.Proofs.Token.Boundary
import Mathlib.Data.List.Forall2

/-!
# Names in other letters

A source text keeps its tokens if the letters of its names change their case: kinds and positions
stay the same, and so do all texts but those of the names.

* `Text.SameLetters`: texts that are equal up to the case of ASCII letters.
* `Text.Recased P n cs cs'`: such texts, which differ only at bytes for which `P` holds.
* `RecasedNames s s'`: source texts that differ in the letters of names only.
* `Token.Recased t t'`: tokens that are equal, or the same name up to the case of its letters.
* `Lexeme.exists_scan_recased`: one lexeme. `tokenize_recased`: all tokens.
-/

namespace Formula

namespace Text

/-- Two texts are equal up to the case of ASCII letters. -/
def SameLetters (cs cs' : List Char) : Prop := cs'.map Char.toLower = cs.map Char.toLower

/-- Two texts from the byte `n` on, equal up to the case of ASCII letters at bytes for which `P`
holds. -/
inductive Recased (P : Nat → Prop) : Nat → List Char → List Char → Prop
  | nil {n : Nat} : Recased P n [] []
  | same {n : Nat} {c : Char} {cs cs' : List Char} :
      Recased P (n + c.utf8Size) cs cs' → Recased P n (c :: cs) (c :: cs')
  | cased {n : Nat} {c c' : Char} {cs cs' : List Char} : P n → c'.toLower = c.toLower →
      Recased P (n + c.utf8Size) cs cs' → Recased P n (c :: cs) (c' :: cs')

theorem utf8Size_toLower (c : Char) : c.toLower.utf8Size = c.utf8Size := by
  rcases Nat.lt_or_ge c.toNat 128 with hlt | hle
  · exact of_ascii_check (P := fun c => c.toLower.utf8Size = c.utf8Size) (by decide) hlt
  · rw [toLower_of_le hle]

theorem utf8Length_map_toLower (cs : List Char) :
    utf8Length (cs.map Char.toLower) = utf8Length cs := by
  induction cs with
  | nil => rfl
  | cons c cs ih => rw [List.map_cons, utf8Length_cons, utf8Length_cons, utf8Size_toLower, ih]

theorem SameLetters.utf8Length_eq {cs cs' : List Char} (h : SameLetters cs cs') :
    utf8Length cs' = utf8Length cs := by
  rw [← utf8Length_map_toLower, h, utf8Length_map_toLower]

theorem SameLetters.refl (cs : List Char) : SameLetters cs cs := rfl

theorem SameLetters.append {a a' b b' : String} (ha : SameLetters a.toList a'.toList)
    (hb : SameLetters b.toList b'.toList) : SameLetters (a ++ b).toList (a' ++ b').toList := by
  rw [SameLetters, String.toList_append, String.toList_append, List.map_append, List.map_append,
    ha, hb]

/-- A class of characters with both cases of each letter has all characters of a text or none of
them. -/
theorem SameLetters.forall_mem {cs cs' : List Char} (h : SameLetters cs cs') {p : Char → Bool}
    (hp : IsContinuing p) (hcs : ∀ c ∈ cs, p c = true) : ∀ c ∈ cs', p c = true := by
  intro c hc
  have hmem := List.mem_map_of_mem (f := Char.toLower) hc
  rw [h] at hmem
  obtain ⟨d, hd, hlower⟩ := List.mem_map.1 hmem
  rw [← hp.congr hlower]
  exact hcs d hd

namespace Recased

variable {P : Nat → Prop} {n : Nat} {c c' : Char} {cs cs' ds es : List Char}

theorem cons_iff : Recased P n (c :: cs) (c' :: cs') ↔
    (c' = c ∨ P n ∧ c'.toLower = c.toLower) ∧ Recased P (n + c.utf8Size) cs cs' := by
  constructor
  · intro h
    cases h with
    | same h => exact ⟨.inl rfl, h⟩
    | cased hP hlower h => exact ⟨.inr ⟨hP, hlower⟩, h⟩
  · rintro ⟨rfl | ⟨hP, hlower⟩, h⟩
    · exact .same h
    · exact .cased hP hlower h

instance decidable [DecidablePred P] : ∀ n cs cs', Decidable (Recased P n cs cs')
  | _, [], [] => .isTrue .nil
  | _, [], _ :: _ => .isFalse nofun
  | _, _ :: _, [] => .isFalse nofun
  | n, c :: cs, _ :: cs' =>
    have := decidable (n + c.utf8Size) cs cs'
    decidable_of_iff' _ cons_iff

theorem sameLetters (h : Recased P n cs cs') : SameLetters cs cs' := by
  induction h with
  | nil => rfl
  | same _ ih => exact congrArg (_ :: ·) ih
  | cased _ hlower _ ih => exact List.cons_eq_cons.2 ⟨hlower, ih⟩

/-- Where no byte may change, nothing does. -/
theorem eq_self (h : Recased P n cs cs') (hP : ∀ p, n ≤ p → p < n + utf8Length cs → ¬ P p) :
    cs' = cs := by
  induction h with
  | nil => rfl
  | @same n c cs cs' _ ih =>
    rw [ih fun p hle hlt => hP p (by omega) (by rw [utf8Length_cons]; omega)]
  | @cased n c c' cs cs' hcased _ _ _ =>
    have hpos := c.utf8Size_pos
    exact absurd hcased (hP n (Nat.le_refl n) (by rw [utf8Length_cons]; omega))

/-- A front and the rest. -/
theorem split (h : Recased P n (cs ++ ds) es) :
    ∃ cs' ds', es = cs' ++ ds' ∧ Recased P n cs cs' ∧ Recased P (n + utf8Length cs) ds ds' := by
  induction cs generalizing n es with
  | nil => exact ⟨[], es, rfl, .nil, h⟩
  | cons c cs ih =>
    rw [utf8Length_cons, ← Nat.add_assoc]
    cases h with
    | same h =>
      obtain ⟨cs', ds', rfl, hcs, hds⟩ := ih h
      exact ⟨c :: cs', ds', rfl, .same hcs, hds⟩
    | @cased _ _ c' _ _ hP hlower h =>
      obtain ⟨cs', ds', rfl, hcs, hds⟩ := ih h
      exact ⟨c' :: cs', ds', rfl, .cased hP hlower hcs, hds⟩

theorem endsAlike (h : Recased P n cs cs') : EndsAlike cs cs' := by
  cases h with
  | nil => exact endsAlike_nil []
  | @same _ c _ _ _ =>
    rintro _ ⟨⟩
    exact .inr ⟨c, rfl, rfl⟩
  | @cased _ c _ _ _ _ hlower _ =>
    rintro _ ⟨⟩
    exact .inr ⟨c, rfl, hlower⟩

theorem eq_nil (h : Recased P n [] cs') : cs' = [] := by
  cases h
  rfl

end Recased

end Text

/-- The same token, or the same name up to the case of its letters. -/
structure Token.Recased (t t' : Token) : Prop where
  kind_eq : t'.kind = t.kind
  position_eq : t'.position = t.position
  sameLetters : Text.SameLetters t.text.toList t'.text.toList
  text_eq : t.kind ≠ .identifier → t'.text = t.text

theorem Token.recased_refl (t : Token) : t.Recased t := ⟨rfl, rfl, rfl, fun _ => rfl⟩

theorem Token.Recased.eq {t t' : Token} (h : t.Recased t') (hk : t.kind ≠ .identifier) :
    t' = t := by
  obtain ⟨kind, text, position⟩ := t
  obtain ⟨kind', text', position'⟩ := t'
  obtain ⟨rfl, rfl, -, htext⟩ := h
  rw [show text' = text from htext hk]

/-- A byte of a source text with these tokens lies in a name. -/
def InName (ts : List Token) (p : Nat) : Prop :=
  ∃ t ∈ ts, t.kind = .identifier ∧ t.position ≤ p ∧ p < t.position + t.width

instance (ts : List Token) : DecidablePred (InName ts) := fun p =>
  inferInstanceAs (Decidable (∃ t ∈ ts, t.kind = .identifier ∧ t.position ≤ p ∧
    p < t.position + t.width))

/-- Two source texts differ only in the case of letters in the names of the first. -/
def RecasedNames (s s' : String) : Prop :=
  Text.Recased (InName (tokenize s)) 0 s.toList s'.toList

instance (s s' : String) : Decidable (RecasedNames s s') :=
  inferInstanceAs (Decidable (Text.Recased (InName (tokenize s)) 0 s.toList s'.toList))

/-! ## One lexeme -/

namespace Lexeme

variable {c : Char} {w rest : List Char} {x : Lexeme}

theorem isContinuing_isNameStart : IsContinuing isNameStart :=
  isContinuing_of_check
    (fun c hc => (isContinuing_isNamePart.visible c (isNamePart_of_isNameStart hc)).2)
    (by decide)

/-- Nothing is skipped in front of a name. -/
theorem piece?_of_isNameStart (h : isNameStart c = true) (cs : List Char) :
    Trivia.piece? (c :: cs) = none := by
  have hvisible := isContinuing_isNameStart.visible c h
  have hslash : c ≠ '/' := by
    rintro rfl
    revert h
    decide
  rw [Trivia.piece?_of_ne_slash hslash, if_neg]
  intro hblank
  have hle := Text.toNat_of_isBlank hblank
  omega

/-- Whatever is read as a name is one, and it is not too long. -/
theorem of_scan_identifier (hscan : scan c (w ++ rest) = (x, rest)) (hk : x.kind = .identifier) :
    isNameStart c = true ∧ Text.utf8Length (c :: w) ≤ maxLexemeLength := by
  have hspelling := spelling_of_scan hscan
  have hopen : ¬ (c = '/' ∧ (w ++ rest).head? = some '*') := by
    intro hopen
    rw [scan, if_pos hopen] at hscan
    cases hscan
    cases hk
  have hmunches := munches_scan hopen
  rw [hscan] at hmunches
  generalize htext : c :: (w ++ rest) = text at hmunches
  cases hmunches with
  | @name _ front hfront hlen =>
    obtain rfl : front = c :: w := hspelling
    subst htext
    exact ⟨isNameStart_iff.2 (isLetter_of_longest hfront), hlen⟩
  | bracket h =>
    cases hk
    simp at h
  | _ => cases hk

/-- **A lexeme in other letters**, in front of other letters: it stays the same, or it is a name and
remains one. -/
theorem exists_scan_recased {P : Nat → Prop} {n : Nat} {cs es : List Char}
    (hpiece : Trivia.piece? (c :: cs) = none) (hscan : scan c cs = (x, rest))
    (h : Text.Recased P n (c :: cs) es)
    (hP : x.kind ≠ .identifier → ∀ p, n ≤ p → p < n + Text.utf8Length x.spelling → ¬ P p) :
    ∃ c' cs' x' rest', es = c' :: cs' ∧ Trivia.piece? (c' :: cs') = none ∧
      scan c' cs' = (x', rest') ∧
      (∀ p, Token.Recased ⟨x.kind, x.text, p⟩ ⟨x'.kind, x'.text, p⟩) ∧
      Text.SameLetters x.spelling x'.spelling ∧
      Text.Recased P (n + Text.utf8Length x.spelling) rest rest' := by
  obtain ⟨w, rfl, hspelling⟩ := exists_word_of_scan hscan
  rw [← List.cons_append, ← hspelling] at h
  obtain ⟨front, rest', rfl, hfront, hrest⟩ := h.split
  by_cases hk : x.kind = .identifier
  · -- A name ends in front of what belongs to no name, and this does not depend on the case of
    -- letters.
    obtain ⟨hc, hlen⟩ := of_scan_identifier hscan hk
    obtain ⟨rfl, hw, hhead⟩ := (scan_name_iff hc).1 hscan
    rw [limited_of_le hlen] at hfront hrest ⊢
    have hletters : Text.SameLetters (c :: w) front := hfront.sameLetters
    obtain ⟨c', w', rfl, hc', hw'⟩ := List.map_eq_cons_iff.1 hletters
    have hname : isNameStart c' = true := (isContinuing_isNameStart.congr hc').trans hc
    have hscan' := (scan_name_iff (w := w') hname).2
      ⟨rfl, Text.SameLetters.forall_mem hw' isContinuing_isNamePart hw,
        hrest.endsAlike.eq_false isContinuing_isNamePart hhead⟩
    rw [limited_of_le (hletters.utf8Length_eq.trans_le hlen)] at hscan'
    refine ⟨c', w' ++ rest', _, rest', rfl, piece?_of_isNameStart hname _, hscan',
      fun p => ⟨rfl, rfl, ?_, fun hne => absurd rfl hne⟩, hletters, hrest⟩
    simpa [plain] using hletters
  · -- No letter of another lexeme is changed, but what follows it may begin with a changed one.
    obtain rfl := hfront.eq_self (hP hk)
    have hnil : rest = [] → rest' = [] := by
      rintro rfl
      exact hrest.eq_nil
    exact ⟨c, w ++ rest', x, rest', by rw [hspelling, List.cons_append],
      Trivia.piece?_of_endsAlike hpiece hscan (.inr hnil) hrest.endsAlike,
      scan_of_endsAlike hscan (.inr hnil) hrest.endsAlike, fun _ => Token.recased_refl _, rfl,
      hrest⟩

end Lexeme

/-! ## All tokens -/

namespace Lexer

variable {P : Nat → Prop} {n : Nat} {c : Char} {cs cs' ds trivia rest : List Char} {x : Lexeme}

/-- One step in a text in other letters. Only bytes of the lexeme may have changed, if it is a
name. -/
theorem exists_step_recased (hsplit : Trivia.split cs = (trivia, c :: ds))
    (hscan : Lexeme.scan c ds = (x, rest)) (h : Text.Recased P n cs cs')
    (hP : ∀ p, n ≤ p → p < n + Text.utf8Length trivia + Text.utf8Length x.spelling → P p →
      x.kind = .identifier ∧ n + Text.utf8Length trivia ≤ p) :
    ∃ c' ds' x' rest', Trivia.split cs' = (trivia, c' :: ds') ∧
      Lexeme.scan c' ds' = (x', rest') ∧
      (∀ p, Token.Recased ⟨x.kind, x.text, p⟩ ⟨x'.kind, x'.text, p⟩) ∧
      Text.SameLetters x.spelling x'.spelling ∧
      Text.Recased P (n + Text.utf8Length trivia + Text.utf8Length x.spelling) rest rest' := by
  obtain ⟨rfl, hskipped, hpiece⟩ := Trivia.split_eq_iff.1 hsplit
  obtain ⟨trivia', after, rfl, htrivia, hafter⟩ := h.split
  obtain rfl : trivia' = trivia := htrivia.eq_self fun p hle hlt hp => by
    have hstart := (hP p hle (by omega) hp).2
    omega
  obtain ⟨c', ds', x', rest', rfl, hpiece', hscan', hname⟩ :=
    Lexeme.exists_scan_recased hpiece hscan hafter fun hk p hle hlt hp =>
      hk (hP p (by omega) hlt hp).1
  exact ⟨c', ds', x', rest', Trivia.split_of_skipped (hskipped.of_rest nofun) hpiece', hscan',
    hname⟩

/-- A byte lies in the name that is read first, or in a later one. -/
theorem inName_cons {ts : List Token} {p : Nat} (hscan : Lexeme.scan c cs = (x, rest))
    (hts : ∀ t ∈ ts, n + Text.utf8Length x.spelling ≤ t.position)
    (h : InName (⟨x.kind, x.text, n⟩ :: ts) p) :
    (x.kind = .identifier ∧ n ≤ p ∧ p < n + Text.utf8Length x.spelling) ∨
      (n + Text.utf8Length x.spelling ≤ p ∧ InName ts p) := by
  obtain ⟨t, ht, hk, hle, hlt⟩ := h
  rcases List.mem_cons.1 ht with rfl | ht
  · have htext := (Lexeme.faithful_scan c cs).2
    rw [hscan] at htext
    have hwidth : Token.width ⟨x.kind, x.text, n⟩ = Text.utf8Length x.spelling := by
      rw [Token.width, htext (by simp [show x.kind = .identifier from hk]), String.toList_ofList]
    rw [hwidth] at hlt
    exact .inl ⟨hk, hle, hlt⟩
  · exact .inr ⟨Nat.le_trans (hts t ht) hle, t, ht, hk, hle, hlt⟩

/-- Two lexers at one place of texts in other letters report the same tokens, up to the letters of
names. Only bytes of names that lie ahead may have changed. -/
theorem tokens_recased {l l' : Lexer} (hf : l.finished = false) (hf' : l'.finished = false)
    (hoffset : l'.offset = l.offset) (hP : ∀ p, l.offset ≤ p → P p → InName l.tokens p)
    (h : Text.Recased P l.offset l.rest l'.rest) :
    List.Forall₂ Token.Recased l.tokens l'.tokens := by
  induction l, hf using induction_on_tokens generalizing l' with
  | last l trivia hf hsplit =>
    have htokens := tokens_of_split_nil hf hsplit
    -- no name lies ahead
    have hsame : l'.rest = l.rest := h.eq_self fun p hle _ hp => by
      obtain ⟨t, ht, hk, -⟩ := hP p hle hp
      rw [htokens, List.mem_singleton] at ht
      rw [ht] at hk
      cases hk
    rw [htokens, tokens_of_split_nil hf' (hsame ▸ hsplit), hoffset]
    exact .cons (Token.recased_refl _) .nil
  | lexeme l trivia c cs x rest hf hsplit hscan ih =>
    have htokens := tokens_of_split_cons hf hsplit hscan
    have hahead := offset_le_of_mem_tokens (l := (l.pass trivia (c :: cs)).pass x.spelling rest) hf
    have hin (p : Nat) (hle : l.offset ≤ p) (hp : P p) :=
      inName_cons (n := l.offset + Text.utf8Length trivia) hscan hahead (htokens ▸ hP p hle hp)
    obtain ⟨c', cs', x', rest', hsplit', hscan', hname, hletters, hrest⟩ :=
      exists_step_recased hsplit hscan h fun p hle hlt hp => by
        rcases hin p hle hp with ⟨hk, hstart, -⟩ | ⟨hend, -⟩
        · exact ⟨hk, hstart⟩
        · omega
    rw [htokens, tokens_of_split_cons hf' hsplit' hscan', hoffset]
    refine .cons (hname _) (ih hf' ?_ (fun p hle hp => ?_) hrest)
    · simp only [pass, hletters.utf8Length_eq, hoffset]
    · simp only [pass] at hle
      rcases hin p (by omega) hp with ⟨-, -, hlt⟩ | ⟨-, hlater⟩
      · omega
      · exact hlater

end Lexer

/-- **Names in other letters make the same tokens.** -/
theorem tokenize_recased {s s' : String} (h : RecasedNames s s') :
    List.Forall₂ Token.Recased (tokenize s) (tokenize s') :=
  Lexer.tokens_recased rfl rfl rfl (fun _ _ hp => hp) h

/-- The mark of an exponent is no letter of a name. -/
example : RecasedNames "2e1 * Ex(e)" "2e1 * eX(E)" ∧
    ¬ RecasedNames "2e1 * Ex(e)" "2E1 * Ex(e)" := by
  decide +kernel

end Formula
