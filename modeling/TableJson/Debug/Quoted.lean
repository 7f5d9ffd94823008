import TableJson.Debug.Term
import TableJson.Text.Visible

/-!
# Quoted text — strings and characters for developers

A few characters have short escapes; any other that does not show by itself is written as its number in base 16.
-/

namespace TableJson.Debug

/-- How a character is written between quotes of the kind `quote`. -/
def quotedChar (quote : Char) (c : Char) : List Char :=
  if c = '\x00' then ['\\', '0']
  else if c = '\t' then ['\\', 't']
  else if c = '\r' then ['\\', 'r']
  else if c = '\n' then ['\\', 'n']
  else if c = '\\' ∨ c = quote then ['\\', c]
  else if Text.isVisible c then [c]
  else ['\\', 'u', '\x7b'] ++ Nat.toDigits 16 c.toNat ++ ['\x7d']

/-- Characters between quotes. -/
def quoted (quote : Char) (cs : List Char) : List Char := quote :: (cs.flatMap (quotedChar quote) ++ [quote])

namespace Term

/-- A string in double quotes. -/
def ofText (s : String) : Term := atom (quoted '"' s.toList)

/-- A character in single quotes. -/
def ofChar (c : Char) : Term := atom (quoted '\x27' [c])

/-- A number in decimal. -/
def ofNat (n : Nat) : Term := atom (Nat.toDigits 10 n)

/-- A truth value. -/
def ofBool (b : Bool) : Term := ofString (if b then "true" else "false")

/-- A word with one argument. -/
def apply (name : String) (arg : Term) : Term := call name.toList [arg]

/-- A record all of whose fields are shown. -/
def ofFields (name : String) (fields : List (String × Term)) : Term := record name.toList fields false

/-- What may be there. -/
def ofOption : Option Term → Term
  | none => ofString "None"
  | some t => apply "Some" t

end Term

end TableJson.Debug
