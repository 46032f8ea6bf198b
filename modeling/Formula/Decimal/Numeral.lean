import Formula.Decimal.Basic

/-!
# Numerals

The written form of unsigned numbers: digits, then perhaps a point and further digits, then perhaps
an exponent. A numeral is kept as its parts, so that nothing of its spelling is lost.

* `Numeral.split cs`: the longest numeral at the front of a text, and the rest.
* `Numeral.spelling`: the characters of the parts; `spelling_split` says that they and the rest
  make up the text.
* `Numeral.isWhole`, `Numeral.hasDigits`, `Numeral.exponentIsEmpty`: what the parts show.
* `Numeral.toDecimal`: the number.
* `readInt64?`, `readFloat?`: signed texts that are numbers as a whole.
-/

namespace Formula

/-- The exponent of a numeral: its mark `e` or `E`, perhaps a sign, and digits. -/
structure Exponent where
  mark : Char
  sign : List Char
  digits : List Char
deriving Repr, DecidableEq

/-- A numeral in its parts. A point is present exactly if there is a fraction, which may be empty,
and so may be the digits of every part. -/
structure Numeral where
  whole : List Char
  fraction : Option (List Char)
  exponent : Option Exponent
deriving Repr, DecidableEq

namespace Exponent

/-- The characters of the parts. -/
def spelling (e : Exponent) : List Char := e.mark :: (e.sign ++ e.digits)

/-- A sign, if the text begins with one. -/
def splitSign : List Char → List Char × List Char
  | c :: cs => if c = '+' ∨ c = '-' then ([c], cs) else ([], c :: cs)
  | [] => ([], [])

/-- The exponent at the front of a text: it needs the mark and nothing more. -/
def split : List Char → Option Exponent × List Char
  | c :: cs =>
    if c = 'e' ∨ c = 'E' then
      let (sign, rest) := splitSign cs
      (some ⟨c, sign, rest.takeWhile Char.isDigit⟩, rest.dropWhile Char.isDigit)
    else (none, c :: cs)
  | [] => (none, [])

/-- The exponent as a number. -/
def value (e : Exponent) : Int :=
  if e.sign = ['-'] then -(readDigits e.digits : Int) else readDigits e.digits

theorem splitSign_append (cs : List Char) : (splitSign cs).1 ++ (splitSign cs).2 = cs := by
  cases cs with
  | nil => rfl
  | cons c cs => by_cases h : c = '+' ∨ c = '-' <;> simp [splitSign, h]

theorem spelling_split (cs : List Char) :
    ((split cs).1.elim [] spelling) ++ (split cs).2 = cs := by
  cases cs with
  | nil => rfl
  | cons c cs =>
    by_cases h : c = 'e' ∨ c = 'E'
    · have hs := splitSign_append cs
      simp only [split, h, if_true, Option.elim_some, spelling, List.cons_append, List.append_assoc,
        List.takeWhile_append_dropWhile, hs]
    · simp [split, h]

end Exponent

namespace Numeral

/-- The characters of the parts, with the point if there is a fraction. -/
def spelling (n : Numeral) : List Char :=
  n.whole ++ n.fraction.elim [] ('.' :: ·) ++ n.exponent.elim [] Exponent.spelling

/-- The fraction at the front of a text: it needs the point and nothing more. -/
def splitFraction : List Char → Option (List Char) × List Char
  | '.' :: cs => (some (cs.takeWhile Char.isDigit), cs.dropWhile Char.isDigit)
  | cs => (none, cs)

/-- The longest numeral at the front of a text, which may be empty, and the rest of the text. -/
def split (cs : List Char) : Numeral × List Char :=
  let (fraction, afterFraction) := splitFraction (cs.dropWhile Char.isDigit)
  let (exponent, rest) := Exponent.split afterFraction
  (⟨cs.takeWhile Char.isDigit, fraction, exponent⟩, rest)

theorem splitFraction_append (cs : List Char) :
    ((splitFraction cs).1.elim [] ('.' :: ·)) ++ (splitFraction cs).2 = cs := by
  unfold splitFraction
  split <;> simp

/-- The numeral and the rest make up the text. -/
theorem spelling_split (cs : List Char) : (split cs).1.spelling ++ (split cs).2 = cs := by
  have hf := splitFraction_append (cs.dropWhile Char.isDigit)
  have he := Exponent.spelling_split (splitFraction (cs.dropWhile Char.isDigit)).2
  have hw : cs.takeWhile Char.isDigit ++ cs.dropWhile Char.isDigit = cs :=
    List.takeWhile_append_dropWhile
  simp only [split, spelling, List.append_assoc]
  rw [he, hf, hw]

/-- A numeral without point and exponent denotes a whole number. -/
def isWhole (n : Numeral) : Bool := n.fraction.isNone && n.exponent.isNone

/-- Whether there is a digit before or behind the point. -/
def hasDigits (n : Numeral) : Bool := !(n.whole ++ n.fraction.getD []).isEmpty

/-- Whether there is an exponent that lacks its digits. -/
def exponentIsEmpty (n : Numeral) : Bool := n.exponent.any (·.digits.isEmpty)

/-- The number: all digits, scaled down by the length of the fraction. -/
def toDecimal (n : Numeral) : Decimal :=
  let fraction := n.fraction.getD []
  ⟨readDigits (n.whole ++ fraction), n.exponent.elim 0 Exponent.value - fraction.length⟩

end Numeral

/-- The integer that a text with an optional sign denotes, if it fits 64 bits. -/
def readInt64? (cs : List Char) : Option Int64 :=
  let (sign, ds) := Exponent.splitSign cs
  if ds.isEmpty || !ds.all Char.isDigit then none
  else
    let n : Int := if sign = ['-'] then -(readDigits ds : Int) else readDigits ds
    if Int64.minValue.toInt ≤ n ∧ n ≤ Int64.maxValue.toInt then some (Int64.ofInt n) else none

/-- The double that a text with an optional sign denotes: a numeral with digits, and with digits in
its exponent if it has one, or one of the names of infinity and of the undefined number, in any
case of letters. -/
def readFloat? (cs : List Char) : Option Float :=
  let (sign, body) := Exponent.splitSign cs
  let negative := sign == ['-']
  let name := body.map Char.toLower
  if name = ['i', 'n', 'f'] ∨ name = ['i', 'n', 'f', 'i', 'n', 'i', 't', 'y'] then
    some (Binary64.ofSigned negative Binary64.infinity)
  else if name = ['n', 'a', 'n'] then some (Binary64.ofSigned negative (Binary64.infinity + 1))
  else
    let (n, rest) := Numeral.split body
    if rest.isEmpty && n.hasDigits && !n.exponentIsEmpty then
      some (Binary64.ofSigned negative n.toDecimal.bits)
    else none

end Formula
