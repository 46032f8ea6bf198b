import Formula.Token.Lexeme
import Formula.Token.Trivia

/-!
# Reading tokens from a source text

Lexemes know nothing of positions; a lexer keeps the count of the bytes it has passed and gives each
lexeme the count at its first character.

* `Lexer`: a source text and a place in it.
* `Lexer.readToken`: skips trivia and reads one token; there is none at the end of the text.
* `Lexer.next`: the same, but the end of the text is a token, which comes once.
* `Lexer.seek?`: goes to another place of the same text.
* `tokenize`: all tokens of a text, the end included.
-/

namespace Formula

/-- A place in a source text: what lies ahead, and how many bytes lie behind. Once the end has been
reported a lexer is finished. -/
structure Lexer where
  source : List Char
  rest : List Char
  offset : Nat
  finished : Bool
deriving Repr, DecidableEq

namespace Lexer

/-- The start of a text. -/
def ofString (s : String) : Lexer := ⟨s.toList, s.toList, 0, false⟩

/-- Moves past some characters, which leave `rest`. -/
def pass (l : Lexer) (taken rest : List Char) : Lexer :=
  { l with rest := rest, offset := l.offset + Text.utf8Length taken }

/-- Passes the trivia that lie ahead. -/
def passTrivia (l : Lexer) : Lexer :=
  let (trivia, rest) := Trivia.split l.rest
  l.pass trivia rest

/-- The lexeme ahead, as a token at this place. -/
def readLexeme (l : Lexer) : Option Token × Lexer :=
  match l.rest with
  | [] => (none, l)
  | c :: cs =>
    let (lexeme, rest) := Lexeme.scan c cs
    (some ⟨lexeme.kind, lexeme.text, l.offset⟩, l.pass lexeme.spelling rest)

/-- The token behind the trivia ahead; none at the end of the text. -/
def readToken (l : Lexer) : Option Token × Lexer := l.passTrivia.readLexeme

/-- The token behind the trivia ahead; at the end of the text, once, the token of the end. -/
def next (l : Lexer) : Option Token × Lexer :=
  if l.finished then (none, l)
  else match l.readToken with
    | (some t, l) => (some t, l)
    | (none, l) => (some ⟨.endOfInput, "", l.offset⟩, { l with finished := true })

/-- The place behind the first `n` bytes of the same text, if there is one between two characters.
A finished lexer stays finished. -/
def seek? (l : Lexer) (n : Nat) : Option Lexer :=
  (Text.dropBytes n l.source).map fun rest => { l with rest := rest, offset := n }

/-! ## Progress -/

theorem length_passTrivia_le (l : Lexer) : l.passTrivia.rest.length ≤ l.rest.length := by
  have hl := congrArg List.length (Trivia.split_append l.rest)
  simp only [List.length_append] at hl
  simp only [passTrivia, pass]
  omega

theorem length_rest_of_readLexeme {l l' : Lexer} {t : Token}
    (h : l.readLexeme = (some t, l')) : l'.rest.length < l.rest.length := by
  unfold readLexeme at h
  split at h
  · simp at h
  · next c cs hr =>
    simp only [Prod.mk.injEq] at h
    rw [← h.2, hr]
    exact Lexeme.length_rest_of_scan c cs

/-- A token takes at least one character. -/
theorem length_rest_of_readToken {l l' : Lexer} {t : Token}
    (h : l.readToken = (some t, l')) : l'.rest.length < l.rest.length :=
  Nat.lt_of_lt_of_le (length_rest_of_readLexeme h) l.length_passTrivia_le

/-- The characters ahead, and one more for the end of the text until it has been reported. -/
def remaining (l : Lexer) : Nat := l.rest.length + if l.finished then 0 else 1

theorem readLexeme_finished (l : Lexer) : l.readLexeme.2.finished = l.finished := by
  unfold readLexeme
  split <;> simp [pass]

theorem readToken_finished (l : Lexer) : l.readToken.2.finished = l.finished := by
  simp [readToken, readLexeme_finished, passTrivia, pass]

theorem rest_of_readToken_none {l l' : Lexer} (h : l.readToken = (none, l')) : l'.rest = [] := by
  unfold readToken readLexeme at h
  split at h
  · next hr =>
    simp only [Prod.mk.injEq, true_and] at h
    rw [← h, hr]
  · simp at h

/-- Every token that is reported leaves less. -/
theorem remaining_of_next {l l' : Lexer} {t : Token} (h : l.next = (some t, l')) :
    l'.remaining < l.remaining := by
  unfold next at h
  split at h
  · simp at h
  · next hf =>
    split at h
    · next t' l'' hn =>
      simp only [Prod.mk.injEq, Option.some.injEq] at h
      have hlen := length_rest_of_readToken hn
      have hfin : l''.finished = l.finished := by simpa [hn] using l.readToken_finished
      simp only [remaining, ← h.2, hfin]
      omega
    · next l'' hn =>
      simp only [Prod.mk.injEq, Option.some.injEq] at h
      have hlen := rest_of_readToken_none hn
      simp only [remaining, ← h.2, hlen, hf]
      simp

/-- All tokens that a lexer still reports. -/
def tokens (l : Lexer) : List Token :=
  match _h : l.next with
  | (none, _) => []
  | (some t, l') => t :: tokens l'
termination_by l.remaining
decreasing_by exact remaining_of_next _h

theorem tokens_of_next {l l' : Lexer} {t : Token} (h : l.next = (some t, l')) :
    l.tokens = t :: l'.tokens := by
  rw [tokens, h]

theorem tokens_of_next_none {l l' : Lexer} (h : l.next = (none, l')) : l.tokens = [] := by
  rw [tokens, h]

end Lexer

/-- All tokens of a text, in order; the last is that of the end. -/
def tokenize (s : String) : List Token := (Lexer.ofString s).tokens

end Formula
