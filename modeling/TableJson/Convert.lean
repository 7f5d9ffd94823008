import TableJson.Number.Numeral
import TableJson.Text.Blank
import TableJson.Text.Compact
import TableJson.Value.Members

/-!
# Conversions — a value as something else

`Convert β` says what becomes of a value of each kind when a `β` is wanted; a kind that it does not mention has no
conversion.  `Value.fetch` converts, `Value.get` and `Value.getDefault` fall back on another value.

* Numbers convert where they fit.  A real becomes an integer by truncation if it lies from the least integer up to
  below one more than the greatest.
* Strings are read without the white space around them; an integer may also be written as a real.
* Null counts as nothing: zero, `false`, an empty text or container.
-/

namespace TableJson

open Number

/-- The conversions into `β`, one for each kind of value. -/
class Convert (β : Type) where
  ofNull : Option β := none
  ofBool : Bool → Option β := fun _ => none
  ofInt64 : Int64 → Option β := fun _ => none
  ofUInt64 : UInt64 → Option β := fun _ => none
  ofReal : Binary64 → Option β := fun _ => none
  ofString : String → Option β := fun _ => none
  ofItems : List Value → Option β := fun _ => none
  ofMembers : Members → Option β := fun _ => none

namespace Value

variable {β : Type} [Convert β]

/-- The value as a `β`, if it converts. -/
def fetch (β : Type) [Convert β] : Value → Option β
  | null => Convert.ofNull
  | boolean b => Convert.ofBool b
  | integer n => Convert.ofInt64 n
  | uinteger n => Convert.ofUInt64 n
  | real x => Convert.ofReal x
  | string s => Convert.ofString s
  | array items => Convert.ofItems items
  | object members => Convert.ofMembers members

/-- The value as a `β`, or `fallback` if it does not convert. -/
def get (fallback : β) (v : Value) : β := (v.fetch β).getD fallback

/-- The value as a `β`, or the default of `β` if it does not convert. -/
def getDefault (β : Type) [Convert β] [Inhabited β] (v : Value) : β := v.get default

end Value

/-! ## Booleans -/

instance : Convert Bool where
  ofNull := some false
  ofBool b := some b
  ofInt64 n := some (n != 0)
  ofUInt64 n := some (n != 0)
  ofReal x := some !x.isZero
  ofString s := some !([[], "false".toList, "0".toList].contains (Text.trim s.toList))
  ofItems items := some !items.isEmpty
  ofMembers members := some !members.isEmpty

/-! ## Integers -/

/-- How wide an integer is, and whether it has a sign. -/
structure IntWidth where
  signed : Bool
  bits : Nat
deriving DecidableEq, Repr

namespace IntWidth

/-- The least integer of a width. -/
def least (w : IntWidth) : Int := if w.signed then -(2 : Int) ^ (w.bits - 1) else 0

/-- The greatest integer of a width. -/
def greatest (w : IntWidth) : Int := if w.signed then (2 : Int) ^ (w.bits - 1) - 1 else (2 : Int) ^ w.bits - 1

theorem least_le_zero (w : IntWidth) : w.least ≤ 0 := by
  have := Int.pow_pos (n := 2) (m := w.bits - 1) (by decide)
  unfold least
  split <;> omega

theorem zero_le_greatest (w : IntWidth) : 0 ≤ w.greatest := by
  have := Int.pow_pos (n := 2) (m := w.bits - 1) (by decide)
  have := Int.pow_pos (n := 2) (m := w.bits) (by decide)
  unfold greatest
  split <;> omega

end IntWidth

/-- An integer of a width. -/
structure SizedInt (w : IntWidth) where
  val : Int
  least_le : w.least ≤ val
  le_greatest : val ≤ w.greatest

namespace SizedInt

variable {w : IntWidth}

/-- The integer, if it has the width. -/
def ofInt? (i : Int) : Option (SizedInt w) :=
  if h : w.least ≤ i ∧ i ≤ w.greatest then some ⟨i, h.1, h.2⟩ else none

/-- The truncation of a real from `w.least` up to below `w.greatest + 1`. -/
def ofReal? (x : Binary64) : Option (SizedInt w) :=
  match x.denotation with
  | .finite negative m e =>
    let n : Int := m * 2 ^ e.toNat
    let n := if negative then -n else n
    let d : Int := 2 ^ (-e).toNat
    if w.least * d ≤ n ∧ n < (w.greatest + 1) * d then ofInt? (n.tdiv d) else none
  | _ => none

/-- The integer that a text denotes, or the truncation of the real that it denotes. -/
def ofText? (cs : List Char) : Option (SizedInt w) :=
  match (readInt? cs).bind ofInt? with
  | some i => some i
  | none => (Binary.read? cs).bind ofReal?

instance : Inhabited (SizedInt w) := ⟨0, w.least_le_zero, w.zero_le_greatest⟩

end SizedInt

instance (w : IntWidth) : Convert (SizedInt w) where
  ofNull := some default
  ofBool b := SizedInt.ofInt? (if b then 1 else 0)
  ofInt64 n := SizedInt.ofInt? n.toInt
  ofUInt64 n := SizedInt.ofInt? n.toNat
  ofReal x := SizedInt.ofReal? x
  ofString s := SizedInt.ofText? (Text.trim s.toList)
  ofItems items := SizedInt.ofInt? items.length
  ofMembers members := SizedInt.ofInt? members.length

/-! ## Reals -/

instance (f : Format) : Convert (Binary f) where
  ofNull := some default
  ofBool b := some (.ofInt (if b then 1 else 0))
  ofInt64 n := some (.ofInt n.toInt)
  ofUInt64 n := some (.ofInt n.toNat)
  ofReal x := some x.convert
  ofString s := Binary.read? (Text.trim s.toList)
  ofItems items := some (.ofInt items.length)
  ofMembers members := some (.ofInt members.length)

/-! ## Texts -/

instance : Convert String where
  ofNull := some ""
  ofBool b := some (if b then "true" else "false")
  ofInt64 n := some (String.ofList (intText n.toInt))
  ofUInt64 n := some (String.ofList (intText n.toNat))
  ofReal x := some (String.ofList (Text.realText x))
  ofString s := some s
  ofItems items := some (Value.array items).compact
  ofMembers members := some (Value.object members).compact

/-! ## Containers and values -/

instance : Convert (List Value) where
  ofNull := some []
  ofBool b := some [.boolean b]
  ofInt64 n := some [.integer n]
  ofUInt64 n := some [.uinteger n]
  ofReal x := some [.real x]
  ofString s := some [.string s]
  ofItems items := some items
  ofMembers members := some (members.map Prod.snd)

/-- Items as members, named by their indices from `i` on. -/
def Members.ofItems : Nat → List Value → List (String × Value)
  | _, [] => []
  | i, v :: vs => (String.ofList (intText i), v) :: ofItems (i + 1) vs

instance : Convert Members where
  ofNull := some []
  ofItems items := some (.ofList (Members.ofItems 0 items))
  ofMembers members := some members

instance : Convert Value where
  ofNull := some .null
  ofBool b := some (.boolean b)
  ofInt64 n := some (.integer n)
  ofUInt64 n := some (.uinteger n)
  ofReal x := some (.real x)
  ofString s := some (.string s)
  ofItems items := some (.array items)
  ofMembers members := some (.object members)

/-- Nothing converts into the empty type. -/
instance : Convert Empty where

end TableJson
