import Formula.Decimal.Layout

/-!
# Values

* `Value`: an integer, a double or a text.
* `Value.display`: the text that shows it.
* `floatText`, `shownFloat`: doubles are shown with five significant digits, and computed ones keep
  no more than is shown.
-/

namespace Formula

/-- The result of an evaluation, and what operators compute with. -/
inductive Value
  | int (n : Int64)
  | float (x : Float)
  /-- A literal that is no number, as it is written. -/
  | raw (text : String)
deriving DecidableEq

/-- Doubles are shown with five significant digits, in plain notation from `0.0001` to `99999`, and
otherwise with an exponent of at least two digits. -/
def floatLayout : Layout := ⟨5, -4, 2⟩

/-- Puts a minus sign in front of a text. -/
def signed (negative : Bool) (cs : List Char) : List Char := if negative then '-' :: cs else cs

/-- The decimal that is shown for a positive magnitude. -/
def shownDecimal (magnitude : Rat) : Decimal := Decimal.nearest floatLayout.precision magnitude

/-- The text that shows a double. -/
def floatText (x : Float) : String :=
  match Reading.ofFloat x with
  | .nan => "NaN"
  | .infinite negative => if negative then "-Inf" else "+Inf"
  | .finite negative magnitude =>
    String.ofList <| signed negative <|
      if magnitude = 0 then ['0'] else floatLayout.write (shownDecimal magnitude)

/-- A double rounded to what is shown of it, and the text that shows it. -/
def shownFloat (x : Float) : Float × String :=
  let text := floatText x
  match Reading.ofFloat x with
  | .finite negative magnitude =>
    if magnitude = 0 then (x, text)
    else (Binary64.ofSigned negative (shownDecimal magnitude).bits, text)
  | _ => (x, text)

namespace Value

/-- The integer, if the value is one. -/
def int? : Value → Option Int64
  | int n => some n
  | _ => none

/-- The value as a double; integers go to the nearest one. -/
def float? : Value → Option Float
  | int n => some (Binary64.ofInt n.toInt)
  | float x => some x
  | raw _ => none

/-- Whether the value is an integer. -/
def isInt : Value → Bool
  | int _ => true
  | _ => false

/-- Whether the value is an integer or a double. -/
def isNumber : Value → Bool
  | raw _ => false
  | _ => true

/-- The text that shows a value. -/
def display : Value → String
  | int n => toString n.toInt
  | float x => floatText x
  | raw text => text

/-- One for true and zero for false. -/
def ofBool (b : Bool) : Value := int (if b then 1 else 0)

end Value

end Formula
