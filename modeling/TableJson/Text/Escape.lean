import TableJson.Text.Sink

/-!
# Escaping — strings between quotes

Quotes, backslashes and control characters are escaped, in the short form where there is one, and so are the line
and paragraph separators U+2028 and U+2029.  Everything else stands for itself.
-/

namespace TableJson.Text

/-- A control character: U+0000 to U+001F and U+007F to U+009F. -/
def isControl (c : Char) : Bool := decide (c.toNat < 0x20 ∨ (0x7F ≤ c.toNat ∧ c.toNat < 0xA0))

/-- A digit in base 16, in upper case. -/
def hexDigit (n : Nat) : Char := if n < 10 then Char.ofNat ('0'.toNat + n) else Char.ofNat ('A'.toNat + (n - 10))

/-- The escape of a character below U+10000 by its number. -/
def unitEscape (c : Char) : List Char :=
  let n := c.toNat
  ['\\', 'u', hexDigit (n / 0x1000 % 16), hexDigit (n / 0x100 % 16), hexDigit (n / 0x10 % 16), hexDigit (n % 16)]

/-- How a character is written between quotes. -/
def escapeChar (c : Char) : List Char :=
  if c = '"' then ['\\', '"']
  else if c = '\\' then ['\\', '\\']
  else if c = '\x08' then ['\\', 'b']
  else if c = '\x0c' then ['\\', 'f']
  else if c = '\n' then ['\\', 'n']
  else if c = '\r' then ['\\', 'r']
  else if c = '\t' then ['\\', 't']
  else if isControl c ∨ c = '\u2028' ∨ c = '\u2029' then unitEscape c
  else [c]

/-- How characters are written between quotes. -/
def escape (cs : List Char) : List Char := cs.flatMap escapeChar

/-- Writes a string in quotes. -/
def putQuoted {σ : Type} [Writer σ] (text : String) : Write σ := fun s => do
  let s ← put '"' s
  let s ← putAll (escape text.toList) s
  put '"' s

end TableJson.Text
