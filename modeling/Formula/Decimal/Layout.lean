import Formula.Decimal.Basic

/-!
# Written form of decimal numbers

* `Layout`: the decisions of a number format.
* `Layout.write l d`: the text of a positive decimal; plain notation where the first digit is
  neither too far behind the point nor too far before it, scientific notation elsewhere.
* `Layout.threshold`: what is too far before the point; `Layout.write_eq` says that this does not
  depend on the digits.
-/

namespace Formula

/-- How numbers are laid out. -/
structure Layout where
  /-- The significant digits that are kept. -/
  precision : Nat
  /-- The least power of ten of a first digit that is written in plain notation. -/
  leastPlain : Int
  /-- The least number of digits of an exponent. -/
  exponentWidth : Nat
deriving Repr, DecidableEq

namespace Layout

/-- Whole digits first; a point only if digits follow it. -/
def joinFraction (whole fraction : List Char) : List Char :=
  if fraction.isEmpty then whole else whole ++ '.' :: fraction

/-- The exponent with its sign, filled up with zeros to the least width. -/
def writeExponent (l : Layout) (e : Int) : List Char :=
  let ds := Nat.toDigits 10 e.natAbs
  (if e < 0 then '-' else '+') :: (List.replicate (l.exponentWidth - ds.length) '0' ++ ds)

/-- Scientific notation: one digit before the point and an exponent. -/
def scientific (l : Layout) (ds : List Char) (e : Int) : List Char :=
  joinFraction (ds.take 1) (ds.drop 1) ++ 'e' :: l.writeExponent e

/-- Plain notation: zeros lead up to the first digit or fill up to the units. -/
def plain (ds : List Char) (e : Int) : List Char :=
  if e < 0 then '0' :: '.' :: (List.replicate (-e - 1).toNat '0' ++ ds)
  else
    let n := e.toNat + 1
    joinFraction (ds.take n ++ List.replicate (n - ds.length) '0') (ds.drop n)

/-- The least power of ten that the first of `count` digits has in scientific notation, if it has
`10 ^ e`: the precision, or the number of digits if it is smaller and they fill the whole part. -/
def threshold (l : Layout) (count : Nat) (e : Int) : Int :=
  if count < l.precision ∧ e + 1 ≤ count then count else l.precision

/-- The text of a positive decimal, without superfluous zeros. -/
def write (l : Layout) (d : Decimal) : List Char :=
  if d.leading < l.leastPlain ∨ l.threshold d.significant.length d.leading ≤ d.leading then
    l.scientific d.significant d.leading
  else plain d.significant d.leading

/-- The number of digits never decides: where they fill the whole part, the power of ten is below
it, and then below the precision too. -/
theorem threshold_le_iff (l : Layout) (count : Nat) (e : Int) :
    l.threshold count e ≤ e ↔ (l.precision : Int) ≤ e := by
  unfold threshold
  split <;> omega

theorem write_eq (l : Layout) (d : Decimal) :
    l.write d = if d.leading < l.leastPlain ∨ (l.precision : Int) ≤ d.leading then
        l.scientific d.significant d.leading
      else plain d.significant d.leading := by
  simp only [write, threshold_le_iff]

end Layout

end Formula
