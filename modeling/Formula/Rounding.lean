/-!
# Rounding of rationals

The two operations behind every conversion between binary and decimal numbers, on exact rationals.

* `roundHalfEven q`: the nearest integer; of two equally near ones the even one.
* `digitCount b n`: the number of digits of `n` in base `b`.
* `floorLog b q`: the exponent of the largest power of `b` that does not exceed `q`.
-/

namespace Formula

/-- The integer nearest to `q`; a half goes to the even neighbour. -/
def roundHalfEven (q : Rat) : Int :=
  let below := q.floor
  let gap := q - below
  if gap < 1 / 2 then below
  else if 1 / 2 < gap then below + 1
  else if below % 2 = 0 then below
  else below + 1

/-- The number of digits of `n` in base `b`; zero has one digit. -/
def digitCount (b n : Nat) : Nat :=
  if 2 ≤ b ∧ b ≤ n then digitCount b (n / b) + 1 else 1
termination_by n
decreasing_by
  rename_i h
  exact Nat.div_lt_self (by omega) h.1

/-- The exponent `e` with `b ^ e ≤ q < b ^ (e + 1)`, for a positive `q` and a base from 2 on. The
digit counts of numerator and denominator give it or its successor. -/
def floorLog (b : Nat) (q : Rat) : Int :=
  let e : Int := (digitCount b q.num.natAbs : Int) - digitCount b q.den
  if (b : Rat) ^ e ≤ q then e else e - 1

/-- The integers round to themselves. -/
theorem roundHalfEven_intCast (n : Int) : roundHalfEven n = n := by
  have half : (0 : Rat) < 1 / 2 := by decide +kernel
  simp only [roundHalfEven, Rat.floor_intCast, Rat.sub_self, if_pos half]

end Formula
