import Formula.Rounding

/-!
# Doubles as rationals

The numbers that binary64 can hold, seen as exact rationals. A finite magnitude is `m * 2 ^ e` with
`m < 2 ^ 53` and `-1074 ≤ e`, and its bit pattern counts the magnitudes in rising order.

* `Binary64.magnitude bits`: the rational that a pattern without a sign stands for.
* `Binary64.nearest q`: the pattern of the magnitude nearest to `q`, ties to even; too large a
  magnitude gives that of infinity.
* `Reading`: what a `Float` is, as sign and magnitude.
* `Binary64.ofRat`, `Binary64.ofInt`: the nearest double of a number.
-/

namespace Formula

namespace Binary64

/-- The patterns of one binade: `2 ^ 52` of them. -/
def binade : Nat := 0x10000000000000

/-- The pattern of infinity, which follows that of the largest finite magnitude. -/
def infinity : Nat := 0x7FF0000000000000

/-- The pattern of the sign. -/
def signBit : Nat := 0x8000000000000000

/-- The exponent of the smallest positive magnitude. -/
def leastExponent : Int := -1074

/-- The rational that the magnitude with these bits stands for. The two lowest binades share one
spacing; each later binade doubles it. -/
def magnitude (bits : Nat) : Rat :=
  if bits < binade then bits * (2 : Rat) ^ leastExponent
  else ((binade + bits % binade : Nat) : Rat)
    * (2 : Rat) ^ (leastExponent + ((bits / binade : Nat) : Int) - 1)

/-- The bits of the magnitude nearest to `q`; of two equally near ones, that with an even
significand. A magnitude past the largest finite one is infinite, and a negative `q` counts as
zero. A significand that rounds up to `2 ^ 53` runs over into the next binade by itself. -/
def nearest (q : Rat) : Nat :=
  if q ≤ 0 then 0
  else
    let e := max (floorLog 2 q - 52) leastExponent
    let m := (roundHalfEven (q / (2 : Rat) ^ e)).toNat
    min ((e - leastExponent).toNat * binade + m) infinity

/-- The double with the given sign and magnitude bits. -/
def ofSigned (negative : Bool) (bits : Nat) : Float :=
  Float.ofBits (UInt64.ofNat (if negative then signBit + bits else bits))

/-- The double nearest to `q`. -/
def ofRat (q : Rat) : Float :=
  if q < 0 then ofSigned true (nearest (-q)) else ofSigned false (nearest q)

/-- The double nearest to `n`. -/
def ofInt (n : Int) : Float := ofRat n

end Binary64

/-- A double as a sign and an exact magnitude. -/
inductive Reading
  | nan
  | infinite (negative : Bool)
  | finite (negative : Bool) (magnitude : Rat)
deriving DecidableEq

/-- What the double `x` stands for. -/
def Reading.ofFloat (x : Float) : Reading :=
  let bits := x.toBits.toNat
  let negative := decide (Binary64.signBit ≤ bits)
  let rest := bits % Binary64.signBit
  if rest < Binary64.infinity then .finite negative (Binary64.magnitude rest)
  else if rest = Binary64.infinity then .infinite negative
  else .nan

end Formula
