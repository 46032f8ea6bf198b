/-!
# Tokens

* `TokenKind`: what a token is; `TokenKind.label` is the name it is shown and stored under.
* `Token`: a kind, a text and the place in the source.
-/

namespace Formula

/-- What a token is. -/
inductive TokenKind
  /-- A whole number such as `42`. -/
  | integer
  /-- A number with a point or an exponent, such as `2.5` or `1e3`. -/
  | float
  /-- A text between quotes. -/
  | string
  /-- A name, which calls a function. -/
  | identifier
  /-- The symbol of an operator. -/
  | operator
  | openParen
  | closeParen
  /-- The comma between arguments. -/
  | separator
  /-- The end of the expression. -/
  | endOfInput
  /-- Text that is no token; it is described by the token's text. -/
  | illegal
deriving Repr, DecidableEq

namespace TokenKind

/-- The name of a kind. -/
def label : TokenKind → String
  | integer => "Integer"
  | float => "Float"
  | string => "Str"
  | identifier => "Identifier"
  | operator => "Operator"
  | openParen => "Open"
  | closeParen => "Close"
  | separator => "Separator"
  | endOfInput => "End"
  | illegal => "Illegal"

/-- All kinds. -/
def all : List TokenKind :=
  [integer, float, string, identifier, operator, openParen, closeParen, separator, endOfInput,
    illegal]

/-- The kind of a given name. -/
def ofLabel? (s : String) : Option TokenKind := all.find? (·.label == s)

theorem ofLabel?_label (k : TokenKind) : ofLabel? k.label = some k := by
  cases k <;> decide

end TokenKind

/-- A token: for an illegal one `text` is the diagnosis, for all others what the source says. The
position counts the bytes in front of the token. -/
structure Token where
  kind : TokenKind
  text : String
  position : Nat
deriving Repr, DecidableEq

namespace Token

/-- A number or a quoted text. -/
def isLiteral (t : Token) : Bool :=
  t.kind == .integer || t.kind == .float || t.kind == .string

/-- Token texts in a row, divided by single blanks. -/
def render (ts : List Token) : String := " ".intercalate (ts.map Token.text)

end Token

end Formula
