/-!
# Binary formats — rounding to nearest

A binary interchange format has a sign bit, a field of `expBits` bits for the exponent and one of `precision - 1`
bits for the fraction.  This file speaks of magnitudes only, the patterns below the sign bit, ordered as the numbers
they stand for:

* `scaled b` is the pair `(m, e)` for which the finite magnitude `b` stands for `m * 2 ^ e`;
* `nearest n d` is the magnitude nearest to `n / d`, a half going to the even neighbour, and infinity from the first
  number on that would need a larger exponent.
-/

namespace TableJson

-- powers are those of the core library, whatever else is in scope
attribute [scoped instance (2000)] instPowNat

end TableJson

namespace TableJson.Number

/-- Parameters of a binary interchange format. -/
structure Format where
  /-- Significant bits, the implicit leading one included. -/
  precision : Nat
  /-- Width of the exponent field. -/
  expBits : Nat
deriving DecidableEq, Repr

/-- The 64-bit format. -/
def Format.binary64 : Format := ⟨53, 11⟩

/-- The 32-bit format. -/
def Format.binary32 : Format := ⟨24, 8⟩

/-- The integer nearest to `n / d`, a half going to the even one. -/
def halfEven (n d : Nat) : Nat :=
  let q := n / d
  let r := n % d
  if 2 * r < d then q
  else if d < 2 * r then q + 1
  else q + q % 2

/-- The quotient `n / d` scaled by `2 ^ (-e)`, again as a quotient. -/
def unscale (n d : Nat) (e : Int) : Nat × Nat :=
  (n * 2 ^ (-e).toNat, d * 2 ^ e.toNat)

namespace Format

variable (f : Format)

/-- One more than the largest fraction. -/
def fractionLimit : Nat := 2 ^ (f.precision - 1)

/-- Bits of a pattern. -/
def width : Nat := f.precision + f.expBits

/-- The weight of the sign bit. -/
def signBit : Nat := 2 ^ (f.width - 1)

/-- The leading bit of the fraction, set in the patterns that are no number and signal nothing. -/
def quietBit : Nat := f.fractionLimit / 2

/-- The exponent of the last place of the smallest numbers. -/
def minExp : Int := 3 - (2 : Int) ^ (f.expBits - 1) - f.precision

/-- The magnitude of infinity; larger ones are not numbers. -/
def infinity : Nat := (2 ^ f.expBits - 1) * f.fractionLimit

/-- The integer and the exponent of two that a finite magnitude stands for. -/
def scaled (bits : Nat) : Nat × Int :=
  let field := bits / f.fractionLimit
  let fraction := bits % f.fractionLimit
  if field = 0 then (fraction, f.minExp)
  else (fraction + f.fractionLimit, f.minExp + (field - 1 : Nat))

/-- An exponent that gives `n / d` exactly `precision` bits before the point, or `minExp` if that is larger. -/
def placeFor (n d : Nat) : Int :=
  let guess : Int := (Nat.log2 n : Int) - Nat.log2 d - f.precision
  let u := unscale n d guess
  max f.minExp (if 2 ^ f.precision * u.2 ≤ u.1 then guess + 1 else guess)

/-- The magnitude nearest to `n / d`. -/
def nearest (n d : Nat) : Nat :=
  if n = 0 then 0
  else
    let e := f.placeFor n d
    let u := unscale n d e
    min f.infinity ((e - f.minExp).toNat * f.fractionLimit + halfEven u.1 u.2)

end Format

end TableJson.Number
