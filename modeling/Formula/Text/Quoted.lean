/-!
# Descriptions of table entries

An entry is described by its type and its fields. A name stands between double quotes, with the
characters that would end or disturb the quotation escaped. Only names in ASCII are described.

* `escape c`: one character as it stands inside the quotation marks.
* `quoted s`: a whole name.
* `described type fields`: an entry of which not all fields are described.
-/

namespace Formula.Text

/-- One ASCII character inside quotation marks. Control characters without a short form are given
by their code point in hexadecimal digits. -/
def escape (c : Char) : List Char :=
  if c = '"' then ['\\', '"']
  else if c = '\\' then ['\\', '\\']
  else if c = '\n' then ['\\', 'n']
  else if c = '\r' then ['\\', 'r']
  else if c = '\t' then ['\\', 't']
  else if c = '\x00' then ['\\', '0']
  else if c.toNat < 0x20 ∨ c.toNat = 0x7F then
    ['\\', 'u', '{'] ++ Nat.toDigits 16 c.toNat ++ ['}']
  else [c]

/-- A name between double quotes. -/
def quoted (s : String) : String :=
  String.ofList ('"' :: (s.toList.flatMap escape ++ ['"']))

/-- An entry of a type, with those of its fields that have a description. -/
def described (type fields : String) : String :=
  (type ++ " ").push '{' ++ " " ++ fields ++ ", .. ".push '}'

end Formula.Text
