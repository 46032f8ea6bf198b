import Formula.Decimal.Numeral
import Formula.Text.Bytes
import Formula.Token.Basic

/-!
# Lexemes

What stands at the front of a text that begins with no trivia: the longest number or name, a quoted
text, an operator, a bracket or a comma, or text that is no token.

* `Defect`: why text is no token; `Defect.message` is its description.
* `Lexeme`: a token without its position, and the characters it takes.
* `Lexeme.scan c cs`: the lexeme at the front of `c :: cs`, and the rest.
-/

namespace Formula

/-- The most bytes that a number, a name or a quoted text may take. -/
def maxLexemeLength : Nat := 1000

/-- Why some text is no token. -/
inductive Defect
  | unexpectedCharacter (c : Char)
  | openComment
  | openString
  | tooLong (bytes : Nat)
  | emptyExponent (numeral : String)
  | invalidFloat (numeral : String)
  | integerOutOfRange (numeral : String)
deriving Repr, DecidableEq

/-- The diagnosis that the token carries. -/
def Defect.message : Defect → String
  | unexpectedCharacter c => "unexpected character '" ++ c.toString ++ "'"
  | openComment => "comment not terminated"
  | openString => "string literal not terminated"
  | tooLong bytes => "token too long: " ++ toString bytes ++ " characters (maximum is "
      ++ toString maxLexemeLength ++ ")"
  | emptyExponent numeral => "exponent has no digits: " ++ numeral
  | invalidFloat numeral => "invalid float literal: " ++ numeral
  | integerOutOfRange numeral => "integer literal out of range: " ++ numeral

/-- A token without its position, and the characters that spell it. -/
structure Lexeme where
  kind : TokenKind
  text : String
  spelling : List Char
deriving Repr, DecidableEq

namespace Lexeme

/-- A lexeme whose text is its spelling. -/
def plain (kind : TokenKind) (spelling : List Char) : Lexeme :=
  ⟨kind, String.ofList spelling, spelling⟩

/-- Characters that make no token. -/
def illegal (defect : Defect) (spelling : List Char) : Lexeme :=
  ⟨.illegal, defect.message, spelling⟩

/-- A lexeme whose length is limited, in bytes. -/
def limited (lexeme : Lexeme) : Lexeme :=
  let bytes := Text.utf8Length lexeme.spelling
  if maxLexemeLength < bytes then illegal (.tooLong bytes) lexeme.spelling else lexeme

/-- The operators of two characters. -/
def operatorPairs : List (Char × Char) :=
  [('*', '*'), ('&', '&'), ('|', '|'), ('<', '<'), ('>', '>'), ('<', '>'), ('<', '='), ('>', '='),
    ('=', '='), ('!', '=')]

/-- The characters that are operators, and with which those of two characters begin. -/
def operatorStarts : List Char :=
  ['+', '-', '*', '/', '%', '&', '|', '^', '<', '>', '=', '!', '~']

/-- The characters that a name may begin with: ASCII letters and the underscore. -/
def isNameStart (c : Char) : Bool := c.isAlpha || c == '_'

/-- The characters of a name: those it may begin with, and digits. -/
def isNamePart (c : Char) : Bool := c.isAlphanum || c == '_'

/-- The lexeme that a numeral makes. A whole number has to fit 64 bits with a sign, and any other
number has to be one that is read as a double. -/
def ofNumeral (n : Numeral) : Lexeme :=
  let spelling := n.spelling
  limited <|
    if n.exponentIsEmpty then illegal (.emptyExponent (String.ofList spelling)) spelling
    else if !n.isWhole then
      if (readFloat? spelling).isSome then plain .float spelling
      else illegal (.invalidFloat (String.ofList spelling)) spelling
    else if (readInt64? spelling).isSome then plain .integer spelling
    else illegal (.integerOutOfRange (String.ofList spelling)) spelling

/-- A number is as long as it can be. -/
def scanNumber (cs : List Char) : Lexeme × List Char :=
  let (n, rest) := Numeral.split cs
  (ofNumeral n, rest)

/-- A name is as long as it can be. -/
def scanName (cs : List Char) : Lexeme × List Char :=
  (limited (plain .identifier (cs.takeWhile isNamePart)), cs.dropWhile isNamePart)

/-- A quoted text runs to the next quote of the kind that opens it. -/
def scanString (quote : Char) (cs : List Char) : Lexeme × List Char :=
  match cs.dropWhile (· != quote) with
  | [] => (illegal .openString (quote :: cs), [])
  | close :: rest => (limited (plain .string (quote :: cs.takeWhile (· != quote) ++ [close])), rest)

/-- An operator takes two characters if they spell one. -/
def scanOperator (c : Char) : List Char → Lexeme × List Char
  | d :: cs =>
    if (c, d) ∈ operatorPairs then (plain .operator [c, d], cs) else (plain .operator [c], d :: cs)
  | [] => (plain .operator [c], [])

/-- A number begins with a digit, or with a point and a digit. -/
def startsNumber (c : Char) (cs : List Char) : Bool :=
  c.isDigit || (c == '.' && cs.head?.any Char.isDigit)

/-- The lexeme at the front of `c :: cs`, which begins with no trivia, and the rest. The opening
mark of a comment is met here only if the comment is never closed. -/
def scan (c : Char) (cs : List Char) : Lexeme × List Char :=
  if c = '/' ∧ cs.head? = some '*' then (illegal .openComment (c :: cs), [])
  else if startsNumber c cs then scanNumber (c :: cs)
  else if c = '"' ∨ c = '\'' then scanString c cs
  else if c ∈ operatorStarts then scanOperator c cs
  else if isNameStart c then scanName (c :: cs)
  else if c = '(' then (plain .openParen [c], cs)
  else if c = ')' then (plain .closeParen [c], cs)
  else if c = ',' then (plain .separator [c], cs)
  else (illegal (.unexpectedCharacter c) [c], cs)

/-! ## Nothing is lost -/

@[simp] theorem spelling_limited (x : Lexeme) : x.limited.spelling = x.spelling := by
  unfold limited
  dsimp only
  split <;> rfl

@[simp] theorem spelling_ofNumeral (n : Numeral) : (ofNumeral n).spelling = n.spelling := by
  unfold ofNumeral
  simp only [spelling_limited]
  split
  · rfl
  · split <;> split <;> rfl

theorem scanString_append (quote : Char) (cs : List Char) :
    (scanString quote cs).1.spelling ++ (scanString quote cs).2 = quote :: cs := by
  have hw : cs.takeWhile (· != quote) ++ cs.dropWhile (· != quote) = cs :=
    List.takeWhile_append_dropWhile
  unfold scanString
  split
  · simp [illegal]
  · next close rest h =>
    rw [h] at hw
    simpa [plain] using hw

theorem scanOperator_append (c : Char) (cs : List Char) :
    (scanOperator c cs).1.spelling ++ (scanOperator c cs).2 = c :: cs := by
  unfold scanOperator
  split
  · split <;> simp [plain]
  · simp [plain]

/-- A lexeme and the rest make up the text. -/
theorem scan_append (c : Char) (cs : List Char) :
    (scan c cs).1.spelling ++ (scan c cs).2 = c :: cs := by
  unfold scan
  split
  · simp [illegal]
  split
  · simp [scanNumber, Numeral.spelling_split]
  split
  · exact scanString_append c cs
  split
  · exact scanOperator_append c cs
  split
  · simp [scanName, plain, List.takeWhile_append_dropWhile]
  repeat (split; · simp [plain])
  simp [illegal]

theorem isNamePart_of_isNameStart {c : Char} (h : isNameStart c = true) : isNamePart c = true := by
  simp only [isNameStart, Bool.or_eq_true, beq_iff_eq] at h
  rcases h with h | h
  · simp [isNamePart, Char.isAlphanum, h]
  · simp [isNamePart, h]

theorem spelling_split_ne_nil {c : Char} {cs : List Char} (h : startsNumber c cs = true) :
    (Numeral.split (c :: cs)).1.spelling ≠ [] := by
  simp only [startsNumber, Bool.or_eq_true, Bool.and_eq_true, beq_iff_eq] at h
  rcases h with h | ⟨rfl, -⟩
  · simp [Numeral.split, Numeral.spelling, h]
  · have hd : Char.isDigit '.' = false := by decide
    simp [Numeral.split, Numeral.spelling, Numeral.splitFraction, hd]

/-- A lexeme takes at least one character. -/
theorem spelling_scan_ne_nil (c : Char) (cs : List Char) : (scan c cs).1.spelling ≠ [] := by
  unfold scan
  split
  · simp [illegal]
  split
  · next h => simpa [scanNumber] using spelling_split_ne_nil h
  split
  · unfold scanString
    split <;> simp [illegal, plain]
  split
  · unfold scanOperator
    split
    · split <;> simp [plain]
    · simp [plain]
  split
  · next h => simp [scanName, plain, isNamePart_of_isNameStart h]
  repeat (split; · simp [plain])
  simp [illegal]

theorem length_rest_of_scan (c : Char) (cs : List Char) :
    (scan c cs).2.length < (c :: cs).length := by
  have hl := congrArg List.length (scan_append c cs)
  have hp := List.length_pos_iff.2 (spelling_scan_ne_nil c cs)
  simp only [List.length_append] at hl
  omega

end Lexeme

end Formula
