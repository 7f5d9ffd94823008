import TableJson.Number.Binary

/-!
# Numerals — decimal texts of numbers

* `digitsValue` is the number that a string of decimal digits denotes (`digitsValue_eq_foldl`).
* `Numeral.read?` reads an optional sign, digits with an optional point and at least one digit, and an optional
  exponent; the value of a numeral is `± coefficient * 10 ^ exponent`, rounded once.
* `Numeral.exponentValue` passes over the digits of an exponent that has grown far beyond every format.
* `readInt?` reads an optional sign and digits, of any length.
* `Binary.read?` also knows the words for infinity and for no number, in any case.
-/

namespace TableJson.Number

/-! ## Digits -/

/-- The value of a decimal digit, and of other characters something that no caller uses. -/
def digitValue (c : Char) : Nat := c.toNat - '0'.toNat

/-- The number `whole * scale + block`.  The last digits read are gathered in a block of one machine word before they
join the others, so that many digits take few long multiplications. -/
structure Gathered where
  whole : Nat := 0
  block : Nat := 0
  scale : Nat := 1
deriving DecidableEq, Repr

namespace Gathered

/-- The number of all digits read. -/
def value (g : Gathered) : Nat := g.whole * g.scale + g.block

/-- From here on a block is full. -/
def fullScale : Nat := 10 ^ (18 : Nat)

/-- Reads one more digit. -/
def push (g : Gathered) (d : Nat) : Gathered :=
  if g.scale < fullScale then { g with block := 10 * g.block + d, scale := 10 * g.scale }
  else { whole := g.value, block := d, scale := 10 }

theorem value_push (g : Gathered) (d : Nat) : (g.push d).value = 10 * g.value + d := by
  unfold push
  split
  · simp only [value]
    rw [Nat.mul_left_comm]
    omega
  · simp only [value]
    omega

theorem value_foldl_push (g : Gathered) (ds : List Char) :
    (ds.foldl (fun g c => g.push (digitValue c)) g).value = ds.foldl (fun n c => 10 * n + digitValue c) g.value := by
  induction ds generalizing g with
  | nil => rfl
  | cons c ds ih => rw [List.foldl_cons, List.foldl_cons, ih, value_push]

end Gathered

/-- The number that decimal digits denote. -/
def digitsValue (ds : List Char) : Nat := (ds.foldl (fun g c => g.push (digitValue c)) ({} : Gathered)).value

theorem digitsValue_eq_foldl (ds : List Char) : digitsValue ds = ds.foldl (fun n c => 10 * n + digitValue c) 0 :=
  Gathered.value_foldl_push {} ds

/-- An optional sign, and what follows it. -/
def splitSign : List Char → Bool × List Char
  | '-' :: cs => (true, cs)
  | '+' :: cs => (false, cs)
  | cs => (false, cs)

/-- A non-empty run of digits and nothing else. -/
def readDigits? (cs : List Char) : Option Nat :=
  if cs ≠ [] ∧ cs.all Char.isDigit then some (digitsValue cs) else none

/-- An integer: an optional sign and digits. -/
def readInt? (cs : List Char) : Option Int :=
  let (negative, ds) := splitSign cs
  (readDigits? ds).map fun n => if negative then -(n : Int) else n

/-! ## Decimal numerals -/

/-- The number `± coefficient * 10 ^ exponent`. -/
structure Numeral where
  negative : Bool
  coefficient : Nat
  exponent : Int
deriving DecidableEq, Repr

namespace Numeral

/-- From here on an exponent takes no more digits. -/
def exponentLimit : Nat := 2 ^ (16 : Nat)

/-- The number that the digits of an exponent denote; once it has come to the limit, the digits that follow are
passed over. -/
def exponentValue (ds : List Char) : Nat :=
  ds.foldl (fun n c => if n < exponentLimit then 10 * n + digitValue c else n) 0

/-- More digits never make a number smaller. -/
theorem le_foldl_digits (ds : List Char) (n : Nat) : n ≤ ds.foldl (fun n c => 10 * n + digitValue c) n := by
  induction ds generalizing n with
  | nil => exact Nat.le_refl n
  | cons d ds ih =>
    have := ih (10 * n + digitValue d)
    rw [List.foldl_cons]
    omega

theorem foldl_exponent_eq {ds : List Char} {n : Nat}
    (h : ds.foldl (fun n c => 10 * n + digitValue c) n < exponentLimit) :
    ds.foldl (fun n c => if n < exponentLimit then 10 * n + digitValue c else n) n =
      ds.foldl (fun n c => 10 * n + digitValue c) n := by
  induction ds generalizing n with
  | nil => rfl
  | cons d ds ih =>
    rw [List.foldl_cons] at h
    have := le_foldl_digits ds (10 * n + digitValue d)
    rw [List.foldl_cons, List.foldl_cons, if_pos (by omega)]
    exact ih h

/-- Below the limit an exponent is the number that its digits denote. -/
theorem exponentValue_eq_digitsValue {ds : List Char} (h : digitsValue ds < exponentLimit) :
    exponentValue ds = digitsValue ds := by
  rw [digitsValue_eq_foldl] at h ⊢
  exact foldl_exponent_eq h

/-- The exponent part of a numeral: nothing, or a marker, an optional sign and digits. -/
def readExponent? : List Char → Option Int
  | [] => some 0
  | c :: cs =>
    let (negative, ds) := splitSign cs
    if (c = 'e' ∨ c = 'E') ∧ ds ≠ [] ∧ ds.all Char.isDigit then
      some (if negative then -(exponentValue ds : Int) else exponentValue ds)
    else none

/-- The digits after the point, if there is a point, and what follows them. -/
def splitFraction : List Char → List Char × List Char
  | '.' :: cs => (cs.takeWhile Char.isDigit, cs.dropWhile Char.isDigit)
  | cs => ([], cs)

/-- Reads a decimal numeral that spans all of `cs`. -/
def read? (cs : List Char) : Option Numeral :=
  let (negative, body) := splitSign cs
  let whole := body.takeWhile Char.isDigit
  let (fraction, tail) := splitFraction (body.dropWhile Char.isDigit)
  if whole = [] ∧ fraction = [] then none
  else
    (readExponent? tail).map fun e =>
      { negative, coefficient := digitsValue (whole ++ fraction), exponent := e - fraction.length }

/-- The magnitude of `f` nearest to the numeral.  Numerals far outside the range of `f` are decided by their
exponent alone. -/
def magnitude (f : Format) (d : Numeral) : Nat :=
  if d.coefficient = 0 then 0
  else if (2 : Int) ^ (f.expBits - 1) ≤ 3 * d.exponent then f.infinity
  else if (Nat.log2 d.coefficient : Int) + 1 + 3 * d.exponent < f.minExp then 0
  else f.nearest (d.coefficient * 10 ^ d.exponent.toNat) (10 ^ (-d.exponent).toNat)

/-- The number nearest to the numeral. -/
def round {f : Format} (d : Numeral) : Binary f := .signed d.negative (d.magnitude f)

end Numeral

/-! ## Texts of numbers -/

/-- The words for what no digits can write. -/
inductive Special where
  | infinite
  | nan
deriving DecidableEq, Repr

/-- Recognises a word for infinity or for no number, in any case. -/
def Special.read? (cs : List Char) : Option Special :=
  let word := cs.map Char.toLower
  if word = "inf".toList ∨ word = "infinity".toList then some .infinite
  else if word = "nan".toList then some .nan
  else none

/-- The number that a text denotes, rounded once. -/
def Binary.read? {f : Format} (cs : List Char) : Option (Binary f) :=
  let (negative, word) := splitSign cs
  match Special.read? word with
  | some .infinite => some (.infinite negative)
  | some .nan => some .nan
  | none => (Numeral.read? cs).map Numeral.round

end TableJson.Number
