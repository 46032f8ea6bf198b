import Formula.Binary64

/-!
# Decimal numbers

A non-negative decimal number is a whole number of units of some power of ten.

* `Decimal`: `digits * 10 ^ exponent`; `Decimal.toRat` is its exact value.
* `Decimal.nearest n q`: the decimal of `n` significant digits nearest to `q`.
* `Decimal.significant`, `Decimal.leading`: its digits without trailing zeros, and the power of
  ten of the first.
* `Decimal.bits`: the nearest double.
* `readDigits`: the number that a row of digits denotes.
-/

namespace Formula

/-- The number `digits * 10 ^ exponent`. -/
structure Decimal where
  digits : Nat
  exponent : Int
deriving Repr, DecidableEq

namespace Decimal

/-- The exact value. -/
def toRat (d : Decimal) : Rat := d.digits * (10 : Rat) ^ d.exponent

/-- The decimal of `n` significant digits nearest to a positive `q`, a half going to the even last
digit. Digits that round up to `10 ^ n` still denote the right number. -/
def nearest (n : Nat) (q : Rat) : Decimal :=
  let e := floorLog 10 q - n + 1
  ⟨(roundHalfEven (q / (10 : Rat) ^ e)).toNat, e⟩

/-- The digits from the first to the last that is not zero. -/
def significant (d : Decimal) : List Char :=
  ((Nat.toDigits 10 d.digits).reverse.dropWhile (· == '0')).reverse

/-- The power of ten of the first digit. -/
def leading (d : Decimal) : Int := d.exponent + digitCount 10 d.digits - 1

/-- The bits of the double magnitude nearest to `d`. Numbers from `10 ^ 310` on are infinite and
those below `10 ^ -330` vanish, so huge exponents need no huge powers. -/
def bits (d : Decimal) : Nat :=
  if d.digits = 0 then 0
  else if 310 ≤ d.leading then Binary64.infinity
  else if d.leading < -330 then 0
  else Binary64.nearest d.toRat

end Decimal

/-- The number that a row of decimal digits denotes; no digits denote zero. -/
def readDigits (ds : List Char) : Nat :=
  ds.foldl (fun n c => 10 * n + (c.toNat - '0'.toNat)) 0

theorem readDigits_append_digit (ds : List Char) (c : Char) :
    readDigits (ds ++ [c]) = 10 * readDigits ds + (c.toNat - '0'.toNat) := by
  simp [readDigits]

end Formula
