import TableJson.Grammar.Session
import TableJson.Proofs.Text.Utf16

/-!
# Lexemes — the words of JSON text

```text
number    = [ minus ] int [ frac ] [ exp ]
int       = zero / ( digit1-9 *DIGIT )
frac      = decimal-point 1*DIGIT
exp       = e [ minus / plus ] 1*DIGIT
string    = quotation-mark *char quotation-mark
char      = unescaped / escape ( ["\/bfnrt] / ( u / U ) 4HEXDIG )
unescaped = %x20-21 / %x23-5B / %x5D-10FFFF
```

A `Literal` is a number with its parts, a `Quoted` string is the list of its `Piece`s, and `Around` is a structural
character with the blanks around it.  Each knows its text and what it denotes:

* `Literal.scalar`: an integer of one of the two kinds where the literal is one and fits, and a real otherwise;
* `Quoted.value`: the characters that its UTF-16 units spell.
-/

namespace TableJson.Grammar

open Number Text

/-! ## Blanks -/

/-- A space, a tab, a line feed or a carriage return. -/
def isBlank (c : Char) : Bool := c == ' ' || c == '\t' || c == '\n' || c == '\r'

/-- Any number of blanks. -/
structure Blanks where
  chars : List Char
  blank : ∀ c ∈ chars, isBlank c = true

/-- No blanks. -/
def Blanks.none : Blanks := ⟨[], by simp⟩

@[simp] theorem Blanks.chars_none : Blanks.none.chars = [] := rfl

/-- The blanks before and after a structural character. -/
structure Around where
  before : Blanks := .none
  after : Blanks := .none

/-- A structural character with the blanks around it. -/
def Around.text (a : Around) (c : Char) : List Char := a.before.chars ++ c :: a.after.chars

/-! ## Numbers -/

/-- `zero / ( digit1-9 *DIGIT )` -/
inductive Integral : List Char → Prop
  | zero : Integral ['0']
  | digits {d : Char} {ds : List Char} (first : d.isDigit = true) (nonzero : d ≠ '0')
      (rest : ∀ c ∈ ds, c.isDigit = true) : Integral (d :: ds)

/-- `decimal-point 1*DIGIT` -/
inductive Fraction : List Char → Prop
  | point {ds : List Char} (some : ds ≠ []) (digits : ∀ c ∈ ds, c.isDigit = true) : Fraction ('.' :: ds)

/-- `e [ minus / plus ] 1*DIGIT` -/
inductive Exponent : List Char → Prop
  | marked {e : Char} {sign ds : List Char} (marker : e = 'e' ∨ e = 'E')
      (signed : sign = [] ∨ sign = ['-'] ∨ sign = ['+']) (some : ds ≠ []) (digits : ∀ c ∈ ds, c.isDigit = true) :
      Exponent (e :: (sign ++ ds))

/-- A number; parts that are absent are empty. -/
structure Literal where
  sign : List Char
  integral : List Char
  frac : List Char
  exp : List Char
  isSign : sign = [] ∨ sign = ['-']
  isIntegral : Integral integral
  isFraction : frac = [] ∨ Fraction frac
  isExponent : exp = [] ∨ Exponent exp

namespace Literal

/-- The characters of a number. -/
def text (n : Literal) : List Char := n.sign ++ n.integral ++ n.frac ++ n.exp

/-- The integer that stands before the point. -/
def whole (n : Literal) : Nat := digitsValue n.integral

/-- An integer that a word of 64 bits holds: without a sign below `2 ^ 64`, with one down to `-2 ^ 63`. -/
def FitsWord (n : Literal) : Prop :=
  n.frac = [] ∧ n.exp = [] ∧ (n.sign = [] ∧ n.whole < 2 ^ (64 : Nat) ∨ n.sign ≠ [] ∧ n.whole ≤ 2 ^ (63 : Nat))

instance (n : Literal) : Decidable n.FitsWord := by
  unfold FitsWord
  infer_instance

/-- The exponent that is written. -/
def exponent (n : Literal) : Int :=
  let (negative, ds) := splitSign (n.exp.drop 1)
  if negative then -(Numeral.exponentValue ds : Int) else Numeral.exponentValue ds

/-- All digits as one integer, scaled by a power of ten. -/
def numeral (n : Literal) : Numeral :=
  { negative := decide (n.sign ≠ [])
    coefficient := digitsValue (n.integral ++ n.frac.drop 1)
    exponent := n.exponent - (n.frac.drop 1).length }

/-- The real nearest to the number. -/
def real (n : Literal) : Binary64 := n.numeral.round

/-- An integer that a word holds, or a number that some finite real is nearest to. -/
def Representable (n : Literal) : Prop := ¬ n.FitsWord → n.real.isFinite = true

/-- What the number denotes. -/
def scalar (n : Literal) : Scalar :=
  if n.FitsWord then
    if n.sign = [] then .uinteger (.ofNat n.whole) else .integer (.ofInt (-n.whole))
  else .real n.real

end Literal

/-! ## Strings -/

/-- A character that stands for itself in a string. -/
def isUnescaped (c : Char) : Bool :=
  decide (0x20 ≤ c.toNat ∧ c.toNat ≤ 0x21 ∨ 0x23 ≤ c.toNat ∧ c.toNat ≤ 0x5B ∨ 0x5D ≤ c.toNat)

/-- The characters that may follow a backslash, and what they stand for. -/
def shortEscapes : List (Char × Char) :=
  [('"', '"'), ('\\', '\\'), ('/', '/'), ('b', '\x08'), ('f', '\x0c'), ('n', '\n'), ('r', '\r'), ('t', '\t')]

/-- A digit in base 16. -/
def isHexDigit (c : Char) : Bool :=
  c.isDigit || (decide ('A' ≤ c) && decide (c ≤ 'F')) || (decide ('a' ≤ c) && decide (c ≤ 'f'))

/-- The value of a digit in base 16. -/
def hexDigitValue (c : Char) : Nat :=
  if c.isDigit then c.toNat - '0'.toNat
  else if c ≤ 'F' then c.toNat - 'A'.toNat + 10
  else c.toNat - 'a'.toNat + 10

/-- The value of four digits in base 16. -/
def hexUnit (a b c d : Char) : Nat :=
  ((hexDigitValue a * 16 + hexDigitValue b) * 16 + hexDigitValue c) * 16 + hexDigitValue d

theorem ne_of_isUnescaped {c : Char} (h : isUnescaped c = true) : c ≠ '"' ∧ c ≠ '\\' := by
  constructor
  · rintro rfl
    cases h
  · rintro rfl
    cases h

theorem ne_of_isHexDigit {c : Char} (h : isHexDigit c = true) : c ≠ '"' ∧ c ≠ '\\' := by
  constructor
  · rintro rfl
    cases h
  · rintro rfl
    cases h

/-- What a string is made of: characters, short escapes and escapes of UTF-16 units. -/
inductive Piece where
  | plain (c : Char) (isPlain : isUnescaped c = true)
  | short (marker c : Char) (known : (marker, c) ∈ shortEscapes)
  | unit (marker a b c d : Char) (isMarker : marker = 'u' ∨ marker = 'U')
      (hex : ∀ x ∈ [a, b, c, d], isHexDigit x = true)

namespace Piece

/-- The characters of a piece. -/
def text : Piece → List Char
  | plain c _ => [c]
  | short marker _ _ => ['\\', marker]
  | unit marker a b c d _ _ => ['\\', marker, a, b, c, d]

/-- The units that a piece spells. -/
def units : Piece → List Nat
  | plain c _ => Utf16.units c
  | short _ c _ => Utf16.units c
  | unit _ a b c d _ _ => [hexUnit a b c d]

end Piece

/-- A string. -/
abbrev Quoted := List Piece

namespace Quoted

/-- The characters between the quotes. -/
def body (s : Quoted) : List Char := s.flatMap Piece.text

/-- The characters of a string, its quotes included. -/
def text (s : Quoted) : List Char := '"' :: (s.body ++ ['"'])

/-- The units that a string spells. -/
def units (s : Quoted) : List Nat := s.flatMap Piece.units

theorem body_cons (p : Piece) (s : Quoted) : body (p :: s) = p.text ++ body s := rfl

theorem units_cons (p : Piece) (s : Quoted) : units (p :: s) = p.units ++ units s := rfl

/-- No surrogate in the string is unpaired. -/
def Paired (s : Quoted) : Prop := Utf16.Paired s.units

/-- What the string denotes. -/
def value (s : Quoted) : String := .ofList (Utf16.decode s.units)

end Quoted

end TableJson.Grammar
