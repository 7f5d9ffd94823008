import TableJson.Number.Format

/-!
# Shortest digits — the fewest decimal digits that read back

For a magnitude `m * 2 ^ e` the numbers that round to it form an interval, with its ends if `m` is even.  For 1, 2, …
digits the two neighbours of the magnitude on that decimal grid are tested; the first grid with a neighbour inside
wins, of two the nearer, and the upper one at a tie.
-/

namespace TableJson.Number

/-- The digits `0.d₁d₂…` and the power of ten they are scaled by. -/
structure Decimal where
  digits : List Char
  exponent : Int
deriving DecidableEq, Repr

/-- A magnitude `m * 2 ^ e` and the two ends of the interval that rounds to it, over one denominator. -/
structure Window where
  low : Nat
  value : Nat
  high : Nat
  den : Nat
  closed : Bool
deriving DecidableEq, Repr

namespace Window

/-- The interval of the magnitude `m * 2 ^ e`; `narrow` says that the neighbour below is half as far. -/
def of (m : Nat) (e : Int) (narrow : Bool) : Window :=
  let up := 2 ^ e.toNat
  { low := (if narrow then 4 * m - 1 else 4 * m - 2) * up
    value := 4 * m * up
    high := (4 * m + 2) * up
    den := 4 * 2 ^ (-e).toNat
    closed := m % 2 == 0 }

/-- Whether `n / d` rounds to the value of the window. -/
def contains (w : Window) (n d : Nat) : Bool :=
  if w.closed then decide (w.low * d ≤ n * w.den ∧ n * w.den ≤ w.high * d)
  else decide (w.low * d < n * w.den ∧ n * w.den < w.high * d)

/-- The point of the grid of multiples of `10 ^ place` nearest to the value and inside the window, as a multiple. -/
def hit? (w : Window) (place : Int) : Option Nat :=
  let up := 10 ^ place.toNat
  let down := 10 ^ (-place).toNat
  let below := w.value * down / (w.den * up)
  let above := below + 1
  let inside (k : Nat) : Bool := w.contains (k * up) down
  if inside above ∧ (¬ inside below ∨ (below + above) * up * w.den ≤ 2 * w.value * down) then some above
  else if inside below then some below
  else none

/-- The first grid, from `place` downwards, with a point inside the window. -/
def search (w : Window) : Nat → Int → Option (Nat × Int)
  | 0, _ => none
  | tries + 1, place =>
    match w.hit? place with
    | some k => some (k, place)
    | none => search w tries (place - 1)

end Window

/-- The number of decimal digits of the integer part of `n / d`, or minus the number of zeros after the point:
the least power of ten above `n / d`. -/
def decimalExponent (n d : Nat) : Int :=
  if d ≤ n then (Nat.toDigits 10 (n / d)).length
  else 1 - (Nat.toDigits 10 ((d - 1) / n)).length

/-- Removes the zeros at the end of a number; all of zero is such zeros. -/
def stripZeros : Nat → Nat → Nat
  | 0, k => k
  | fuel + 1, k => if k % 10 = 0 then stripZeros fuel (k / 10) else k

/-- The value of the window on the grid of its own denominator, a power of two: all its digits. -/
def Window.full (w : Window) : Nat × Int := (w.value * 5 ^ Nat.log2 w.den, -(Nat.log2 w.den : Int))

/-- The shortest digits of the magnitude `m * 2 ^ e`, for `0 < m`.  Seventeen are always enough; without a hit all
digits would be given. -/
def shortest (m : Nat) (e : Int) (narrow : Bool) : Decimal :=
  let w := Window.of m e narrow
  let (k, place) := (w.search 17 (decimalExponent w.value w.den - 1)).getD w.full
  let length := (Nat.toDigits 10 k).length
  { digits := Nat.toDigits 10 (stripZeros length k), exponent := place + length }

end TableJson.Number
