import TableJson.Number.Format

/-!
# Binary numbers — the patterns of a format

A number is its bit pattern, so that moving one around changes nothing, the sign of a zero and the payload of a NaN
included.  `denotation` says what a pattern stands for; `ofQuotient` is the one place where numbers are rounded.
-/

namespace TableJson.Number

/-- What a pattern stands for: a number `± m * 2 ^ e`, an infinity, or no number. -/
inductive Denotation where
  | finite (negative : Bool) (m : Nat) (e : Int)
  | infinite (negative : Bool)
  | nan (negative : Bool) (payload : Nat)
deriving DecidableEq, Repr

/-- A bit pattern of the format `f`. -/
structure Binary (f : Format) where
  bits : Nat
  bits_lt : bits < 2 ^ f.width
deriving DecidableEq, Repr

/-- A 64-bit binary number. -/
abbrev Binary64 := Binary .binary64

/-- A 32-bit binary number. -/
abbrev Binary32 := Binary .binary32

namespace Binary

variable {f g : Format}

/-- The pattern with the low bits of `n`. -/
def ofNat (n : Nat) : Binary f := ⟨n % 2 ^ f.width, Nat.mod_lt _ (Nat.two_pow_pos _)⟩

instance : Inhabited (Binary f) := ⟨ofNat 0⟩

/-- The pattern with a given sign and magnitude. -/
def signed (negative : Bool) (magnitude : Nat) : Binary f :=
  ofNat (if negative then f.signBit + magnitude else magnitude)

/-- Whether the sign bit is set. -/
def negative (x : Binary f) : Bool := decide (f.signBit ≤ x.bits)

/-- The pattern without its sign bit. -/
def magnitude (x : Binary f) : Nat := x.bits % f.signBit

/-- What the pattern stands for. -/
def denotation (x : Binary f) : Denotation :=
  if x.magnitude < f.infinity then .finite x.negative (f.scaled x.magnitude).1 (f.scaled x.magnitude).2
  else if x.magnitude = f.infinity then .infinite x.negative
  else .nan x.negative (x.magnitude - f.infinity)

/-- Neither infinite nor a NaN. -/
def isFinite (x : Binary f) : Bool := decide (x.magnitude < f.infinity)

/-- Not a number. -/
def isNaN (x : Binary f) : Bool := decide (f.infinity < x.magnitude)

/-- Zero of either sign. -/
def isZero (x : Binary f) : Bool := decide (x.magnitude = 0)

/-- Equality of numbers: zeros of either sign are equal, and what is no number equals nothing. -/
def eqv (x y : Binary f) : Bool :=
  !x.isNaN && !y.isNaN && (decide (x = y) || (x.isZero && y.isZero))

/-! ## Numbers from numbers -/

/-- The pattern nearest to `± n / d`. -/
def ofQuotient (negative : Bool) (n d : Nat) : Binary f := signed negative (f.nearest n d)

/-- The pattern nearest to an integer. -/
def ofInt (i : Int) : Binary f := ofQuotient (decide (i < 0)) i.natAbs 1

/-- Infinity of either sign. -/
def infinite (negative : Bool) : Binary f := signed negative f.infinity

/-- The quiet pattern that is no number. -/
def nan : Binary f := signed false (f.infinity + f.quietBit)

/-- The pattern of `f` nearest to what a pattern of `g` stands for.  A payload keeps its leading bits and its
quiet bit is set. -/
def convert (x : Binary g) : Binary f :=
  match x.denotation with
  | .finite negative m e => ofQuotient negative (m * 2 ^ e.toNat) (2 ^ (-e).toNat)
  | .infinite negative => infinite negative
  | .nan negative payload =>
    let kept := payload * f.fractionLimit / g.fractionLimit
    signed negative (f.infinity + (if kept < f.quietBit then kept + f.quietBit else kept))

end Binary

end TableJson.Number
