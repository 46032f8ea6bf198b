import Formula.Token.Basic
import Formula.Value

/-!
# Interchange form of values and tokens

* `Datum`: data as programs exchange them: nothing, truth values, numbers, texts, lists and named
  fields.
* `Value.toDatum`, `Value.ofDatum?`: a value is one field, named for its kind.
* `Token.ofDatum?`: a token is three named fields in any order, among others, or a list of three.
-/

namespace Formula

/-- Data as programs exchange them. -/
inductive Datum
  | null
  | bool (b : Bool)
  | integer (n : Int)
  | real (x : Float)
  | text (s : String)
  | list (xs : List Datum)
  | fields (xs : List (String × Datum))

/-- The one field of a datum with no other. -/
def Datum.field? : Datum → Option (String × Datum)
  | fields [x] => some x
  | _ => none

/-- The interchange form of a value. A double that is no finite number has none. -/
def Value.toDatum : Value → Datum
  | int n => .fields [("Int", .integer n.toInt)]
  | float x => .fields [("Float", if x.isFinite then .real x else .null)]
  | raw s => .fields [("Raw", .text s)]

/-- The value of an interchange form. An integer has to fit 64 bits; whole numbers may stand for
doubles. -/
def Value.ofDatum? (d : Datum) : Option Value :=
  match d.field? with
  | some ("Int", .integer n) =>
    if Int64.minValue.toInt ≤ n ∧ n ≤ Int64.maxValue.toInt then some (.int (Int64.ofInt n))
    else none
  | some ("Float", .integer n) => some (.float (Binary64.ofInt n))
  | some ("Float", .real x) => some (.float x)
  | some ("Raw", .text s) => some (.raw s)
  | _ => none

/-- The kind of an interchange form: its name, or one empty field of that name. -/
def TokenKind.ofDatum? : Datum → Option TokenKind
  | .text s => ofLabel? s
  | .fields [(s, .null)] => ofLabel? s
  | _ => none

/-- The largest position of an interchange form. -/
def maxPosition : Int := 0xFFFFFFFFFFFFFFFF

/-- A position, which is a whole number. -/
def positionOfDatum? : Datum → Option Nat
  | .integer n => if 0 ≤ n ∧ n ≤ maxPosition then some n.toNat else none
  | _ => none

/-- A token from its three parts. -/
def Token.ofParts? (kind : Datum) (text : Datum) (position : Datum) : Option Token := do
  let kind ← TokenKind.ofDatum? kind
  let .text text := text | none
  let position ← positionOfDatum? position
  return ⟨kind, text, position⟩

/-- The token of an interchange form: fields that belong to no token are passed over, but none of
the three may be missing. -/
def Token.ofDatum? : Datum → Option Token
  | .list [kind, text, position] => ofParts? kind text position
  | .fields xs => do
    let kind ← xs.lookup "kind"
    let text ← xs.lookup "text"
    let position ← xs.lookup "position"
    ofParts? kind text position
  | _ => none

end Formula
