/-!
# Unescaping — the characters that a string body stands for

A body is what stands between the quotes.  `\uXXXX` is a UTF-16 unit: a high surrogate followed by the escape of a
low one stands for one character.  Any other surrogate stands for nothing; it is refused, or read as U+FFFD.
-/

namespace TableJson.Text

/-- The value of a digit in base 16. -/
def hexValue? (c : Char) : Option Nat :=
  if '0' ≤ c ∧ c ≤ '9' then some (c.toNat - '0'.toNat)
  else if 'a' ≤ c ∧ c ≤ 'f' then some (c.toNat - 'a'.toNat + 10)
  else if 'A' ≤ c ∧ c ≤ 'F' then some (c.toNat - 'A'.toNat + 10)
  else none

/-- The unit that four digits in base 16 stand for, and what follows them. -/
def unit? : List Char → Option (Nat × List Char)
  | a :: b :: c :: d :: cs => do
    let a ← hexValue? a
    let b ← hexValue? b
    let c ← hexValue? c
    let d ← hexValue? d
    return (((a * 16 + b) * 16 + c) * 16 + d, cs)
  | _ => none

/-- The unit that an escape at the head stands for, and what follows the escape. -/
def unitEscape? : List Char → Option (Nat × List Char)
  | '\\' :: marker :: cs => if marker = 'u' ∨ marker = 'U' then unit? cs else none
  | _ => none

/-- A unit that opens a surrogate pair. -/
def isHighSurrogate (u : Nat) : Bool := decide (0xD800 ≤ u ∧ u ≤ 0xDBFF)

/-- A unit that ends a surrogate pair. -/
def isLowSurrogate (u : Nat) : Bool := decide (0xDC00 ≤ u ∧ u ≤ 0xDFFF)

/-- The character of a surrogate pair. -/
def pairChar (high low : Nat) : Char := Char.ofNat (0x10000 + (high - 0xD800) * 0x400 + (low - 0xDC00))

/-- What half a pair reads as. -/
def loneSurrogate (replace : Bool) : Option Char := if replace then some '\uFFFD' else none

/-- The character of a short escape. -/
def shortEscape? : Char → Option Char
  | '"' => some '"'
  | '\\' => some '\\'
  | '/' => some '/'
  | 'b' => some '\x08'
  | 'f' => some '\x0c'
  | 'n' => some '\n'
  | 'r' => some '\r'
  | 't' => some '\t'
  | _ => none

/-- The character that a unit stands for, with the characters after it; a high surrogate takes the escape of a low
one along. -/
def unitChar? (replace : Bool) (u : Nat) (cs : List Char) : Option (Char × List Char) :=
  if isHighSurrogate u then
    match unitEscape? cs with
    | some (low, rest) =>
      if isLowSurrogate low then some (pairChar u low, rest) else (loneSurrogate replace).map (·, cs)
    | none => (loneSurrogate replace).map (·, cs)
  else if isLowSurrogate u then (loneSurrogate replace).map (·, cs)
  else some (Char.ofNat u, cs)

/-- The character that the escape `\marker…` stands for, with the characters after it. -/
def escaped? (replace : Bool) (marker : Char) (cs : List Char) : Option (Char × List Char) :=
  if marker = 'u' ∨ marker = 'U' then (unit? cs).bind fun (u, rest) => unitChar? replace u rest
  else (shortEscape? marker).map (·, cs)

/-- Unescapes with at most `fuel` characters to go. -/
def unescapeWithin (replace : Bool) : Nat → List Char → Option (List Char)
  | _, [] => some []
  | 0, _ => none
  | fuel + 1, c :: cs =>
    if c = '\\' then
      match cs with
      | [] => none
      | marker :: cs => do
        let (decoded, rest) ← escaped? replace marker cs
        return decoded :: (← unescapeWithin replace fuel rest)
    else (unescapeWithin replace fuel cs).map (c :: ·)

/-- The characters that the body of a string stands for.  A body without a backslash is returned as it is; in any other
each step uses up a character, so its length is fuel enough. -/
def unescape? (replace : Bool) (body : List Char) : Option (List Char) :=
  if '\\' ∈ body then unescapeWithin replace body.length body else some body

end TableJson.Text
