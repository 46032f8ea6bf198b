import Formula.Operand
import Formula.Proofs.Decimal.Numeral
import Formula.Token.Lexer

/-!
# The literals of a source text can be read

* `Readable`: text that stands for an operand of a kind.
* `Lexeme.readable_scan`: what a lexeme spells is readable.
* `ofLiteral_of_mem_tokenize`: every literal of a source text stands for an operand.
-/

namespace Formula

/-- Text that is found to be a number when it is read, if it should be one. -/
def Readable (kind : TokenKind) (text : String) : Prop :=
  match kind with
  | .integer => (∀ c ∈ text.toList, c.isDigit = true) ∧ (readInt64? text.toList).isSome
  | .float => (readFloat? text.toList).isSome
  | _ => True

theorem ofLiteral_of_readable {t : Token} (h : Readable t.kind t.text) (ht : t.isLiteral = true) :
    ∃ x, Operand.ofLiteral t = .ok x := by
  simp only [Token.isLiteral, Bool.or_eq_true, beq_iff_eq] at ht
  rcases ht with (hk | hk) | hk
  · rw [hk] at h
    obtain ⟨n, hn⟩ := Option.isSome_iff_exists.1 h.2
    exact ⟨⟨.int n, t.text, t.position⟩, by simp only [Operand.ofLiteral, hk, hn]⟩
  · rw [hk] at h
    obtain ⟨y, hy⟩ := Option.isSome_iff_exists.1 h
    exact ⟨⟨.float y, t.text, t.position⟩, by simp only [Operand.ofLiteral, hk, hy]⟩
  · exact ⟨⟨.raw t.text, t.text, t.position⟩, by simp only [Operand.ofLiteral, hk]⟩

/-! ## Numbers -/

namespace Lexeme

theorem readable_limited {x : Lexeme} (h : Readable x.kind x.text) :
    Readable x.limited.kind x.limited.text := by
  unfold limited
  dsimp only
  split
  · trivial
  · exact h

theorem readable_ofNumeral {n : Numeral} (hn : n.IsSpelled) (hd : n.hasDigits = true) :
    Readable (ofNumeral n).kind (ofNumeral n).text := by
  refine readable_limited ?_
  by_cases he : n.exponentIsEmpty = true
  · rw [if_pos he]
    trivial
  rw [if_neg he]
  by_cases hw : n.isWhole = true
  · rw [if_neg (by simp [hw])]
    by_cases hi : (readInt64? n.spelling).isSome
    · rw [if_pos hi]
      show (∀ c ∈ (String.ofList n.spelling).toList, c.isDigit = true) ∧
        (readInt64? (String.ofList n.spelling).toList).isSome
      rw [String.toList_ofList]
      refine ⟨?_, hi⟩
      rw [Numeral.spelling_of_isWhole hw]
      exact hn.whole
    · rw [if_neg hi]
      trivial
  · have hf := readFloat?_spelling hn hd (by simpa using he)
    rw [if_pos (by simp [hw]), if_pos hf]
    show (readFloat? (String.ofList n.spelling).toList).isSome
    rw [String.toList_ofList]
    exact hf

theorem hasDigits_split {c : Char} {cs : List Char} (h : startsNumber c cs = true) :
    (Numeral.split (c :: cs)).1.hasDigits = true := by
  simp only [startsNumber, Bool.or_eq_true, Bool.and_eq_true, beq_iff_eq] at h
  rcases h with h | ⟨rfl, h⟩
  · simp [Numeral.split, Numeral.hasDigits, h]
  · have hd : Char.isDigit '.' = false := by decide
    cases cs with
    | nil => simp at h
    | cons d cs =>
      have hdigit : d.isDigit = true := by simpa using h
      simp [Numeral.split, Numeral.hasDigits, Numeral.splitFraction, hd, hdigit]

/-- The number that a lexeme spells is found when its text is read. -/
theorem readable_scan (c : Char) (cs : List Char) :
    Readable (scan c cs).1.kind (scan c cs).1.text := by
  unfold scan
  split
  · trivial
  split
  · next h => exact readable_ofNumeral (Numeral.isSpelled_split _) (hasDigits_split h)
  split
  · unfold scanString
    split
    · trivial
    · exact readable_limited trivial
  split
  · unfold scanOperator
    split
    · split <;> trivial
    · trivial
  split
  · exact readable_limited trivial
  repeat (split; · trivial)
  trivial

end Lexeme

/-! ## Tokens -/

theorem Lexer.readable_of_next {l l' : Lexer} {t : Token} (h : l.next = (some t, l')) :
    Readable t.kind t.text := by
  unfold next at h
  split at h
  · cases h
  · split at h
    · next t' l'' hread =>
      cases h
      unfold readToken readLexeme at hread
      split at hread
      · cases hread
      · next c cs _ =>
        cases hread
        exact Lexeme.readable_scan c cs
    · cases h
      trivial

/-- What holds of every token that a lexer reports next holds of all tokens. -/
theorem Lexer.of_mem_tokens {P : Token → Prop}
    (hnext : ∀ {l l' : Lexer} {t : Token}, l.next = (some t, l') → P t)
    {l : Lexer} {t : Token} (h : t ∈ l.tokens) : P t := by
  induction hn : l.remaining using Nat.strongRecOn generalizing l with
  | ind n ih =>
    rw [tokens] at h
    split at h
    · cases h
    · next u l' hu =>
      rcases List.mem_cons.1 h with rfl | h
      · exact hnext hu
      · exact ih _ (hn ▸ remaining_of_next hu) h rfl

theorem Lexer.readable_of_mem_tokens {l : Lexer} {t : Token} (h : t ∈ l.tokens) :
    Readable t.kind t.text :=
  of_mem_tokens (P := fun t => Readable t.kind t.text) readable_of_next h

/-- **Every literal of a source text stands for an operand.** -/
theorem ofLiteral_of_mem_tokenize {s : String} {t : Token} (h : t ∈ tokenize s)
    (ht : t.isLiteral = true) : ∃ x, Operand.ofLiteral t = .ok x :=
  ofLiteral_of_readable (Lexer.readable_of_mem_tokens h) ht

end Formula
