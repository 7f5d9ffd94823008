import TableJson.Number.Binary
import TableJson.Number.Shortest

/-!
# Texts of numbers — integers in decimal, reals in their shortest digits

A finite real is written positionally from `10 ^ (-4)` up to below `10 ^ 16` and with an exponent elsewhere; it always
shows a point or an exponent, so that its text cannot be taken for that of an integer.
-/

namespace TableJson.Number

/-- An integer in decimal. -/
def intText (i : Int) : List Char :=
  if i < 0 then '-' :: Nat.toDigits 10 i.natAbs else Nat.toDigits 10 i.toNat

namespace Decimal

/-- Without an exponent; `point` is what follows an integer. -/
def positional (point : List Char) (d : Decimal) : List Char :=
  if d.exponent ≤ 0 then '0' :: '.' :: (List.replicate (-d.exponent).toNat '0' ++ d.digits)
  else if d.digits.length ≤ d.exponent.toNat then
    d.digits ++ List.replicate (d.exponent.toNat - d.digits.length) '0' ++ point
  else d.digits.take d.exponent.toNat ++ '.' :: d.digits.drop d.exponent.toNat

/-- One digit before the point, and an exponent. -/
def scientific (d : Decimal) : List Char :=
  let fraction := d.digits.drop 1
  d.digits.take 1 ++ (if fraction.isEmpty then [] else '.' :: fraction) ++ 'e' :: intText (d.exponent - 1)

/-- Positional from `10 ^ (-4)` up to below `10 ^ 16`, and with an exponent elsewhere. -/
def text (d : Decimal) : List Char :=
  if -3 ≤ d.exponent ∧ d.exponent ≤ 16 then d.positional ['.', '0'] else d.scientific

end Decimal

namespace Binary64

/-- The shortest digits of the magnitude of a number; a zero has none. -/
def shortest (x : Binary64) : Decimal :=
  let f := Format.binary64
  let (m, e) := f.scaled x.magnitude
  Number.shortest m e (m == f.fractionLimit && decide (f.minExp < e))

/-- Writes a number: its sign, and its magnitude as `finite` says, for a zero as `zero` says. -/
def textWith (zero : List Char) (finite : Decimal → List Char) (x : Binary64) : List Char :=
  let sign := if x.negative then ['-'] else []
  if x.isNaN then ['N', 'a', 'N']
  else if !x.isFinite then sign ++ ['i', 'n', 'f']
  else if x.isZero then sign ++ zero
  else sign ++ finite x.shortest

/-- The text of a number, with a point or an exponent if it is finite. -/
def text : Binary64 → List Char := textWith ['0', '.', '0'] Decimal.text

/-- The text of a number without an exponent, with a point if it is finite. -/
def longText : Binary64 → List Char := textWith ['0', '.', '0'] (Decimal.positional ['.', '0'])

end Binary64

end TableJson.Number
