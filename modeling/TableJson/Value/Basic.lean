import TableJson.Number.Binary

/-!
# Values — the eight kinds

A value is null, a boolean, a signed or an unsigned 64-bit integer, a 64-bit binary real, a string, an array or an
object.  The two integer kinds stay apart, as do integers and reals.

The members of an object are a list of names with values.  `Ordered` says that names strictly increase, by code
point; `Value.WellFormed` says so at every depth, and every operation of the library keeps it (`Made.wellFormed`).
-/

namespace TableJson

open Number

/-- A JSON value. -/
inductive Value where
  | null
  | boolean (b : Bool)
  | integer (n : Int64)
  | uinteger (n : UInt64)
  | real (x : Binary64)
  | string (s : String)
  | array (items : List Value)
  | object (members : List (String × Value))
deriving Inhabited

/-- The members of an object. -/
abbrev Members := List (String × Value)

/-! ## Kinds -/

/-- Which of the eight kinds a value is. -/
inductive Kind where
  | null
  | boolean
  | integer
  | uinteger
  | real
  | string
  | array
  | object
deriving DecidableEq, Repr

namespace Kind

/-- Every kind. -/
def all : List Kind := [null, boolean, integer, uinteger, real, string, array, object]

/-- The number that stands for the kind in binary. -/
def tag : Kind → Nat
  | null => 0
  | boolean => 1
  | integer => 2
  | uinteger => 3
  | real => 4
  | string => 5
  | array => 6
  | object => 7

/-- The kind that a number stands for. -/
def ofTag? (n : Nat) : Option Kind := all.find? fun k => k.tag == n

/-- The name of the kind. -/
def name : Kind → String
  | null => "Null"
  | boolean => "Boolean"
  | integer => "Integer"
  | uinteger => "UInteger"
  | real => "Real"
  | string => "String"
  | array => "Array"
  | object => "Object"

end Kind

namespace Value

/-- The kind of a value. -/
def kind : Value → Kind
  | null => .null
  | boolean _ => .boolean
  | integer _ => .integer
  | uinteger _ => .uinteger
  | real _ => .real
  | string _ => .string
  | array _ => .array
  | object _ => .object

/-! ## Questions -/

def isNull (v : Value) : Bool := v.kind == .null

def isBoolean (v : Value) : Bool := v.kind == .boolean

/-- A signed integer. -/
def isSigned (v : Value) : Bool := v.kind == .integer

/-- An unsigned integer. -/
def isUnsigned (v : Value) : Bool := v.kind == .uinteger

/-- An integer of either kind. -/
def isInteger (v : Value) : Bool := v.isSigned || v.isUnsigned

def isReal (v : Value) : Bool := v.kind == .real

def isNumber (v : Value) : Bool := v.isInteger || v.isReal

def isString (v : Value) : Bool := v.kind == .string

def isArray (v : Value) : Bool := v.kind == .array

def isObject (v : Value) : Bool := v.kind == .object

/-- An array or an object. -/
def isContainer (v : Value) : Bool := v.isArray || v.isObject

def isScalar (v : Value) : Bool := !v.isContainer

/-- The number of children of a container; a scalar counts for one and null for none. -/
def size : Value → Nat
  | null => 0
  | array items => items.length
  | object members => members.length
  | _ => 1

def isEmpty (v : Value) : Bool := v.size == 0

/-! ## Payloads -/

def toBool? : Value → Option Bool
  | boolean b => some b
  | _ => none

/-- An integer of either kind, as a number. -/
def toInt? : Value → Option Int
  | integer n => some n.toInt
  | uinteger n => some n.toNat
  | _ => none

/-- An integer of either kind that fits 64 bits with a sign. -/
def toInt64? (v : Value) : Option Int64 :=
  v.toInt?.bind fun i => if Int64.minValue.toInt ≤ i ∧ i ≤ Int64.maxValue.toInt then some (.ofInt i) else none

/-- An integer of either kind that fits 64 bits without a sign. -/
def toUInt64? (v : Value) : Option UInt64 :=
  v.toInt?.bind fun i => if 0 ≤ i ∧ i < 2 ^ (64 : Nat) then some (.ofNat i.toNat) else none

/-- A number of any kind, as a real. -/
def toReal? : Value → Option Binary64
  | integer n => some (.ofInt n.toInt)
  | uinteger n => some (.ofInt n.toNat)
  | real x => some x
  | _ => none

def toString? : Value → Option String
  | string s => some s
  | _ => none

def toItems? : Value → Option (List Value)
  | array items => some items
  | _ => none

def toMembers? : Value → Option Members
  | object members => some members
  | _ => none

/-! ## Equality -/

mutual

/-- Equality of values; reals compare as numbers, so what holds a NaN differs from itself. -/
def eqv : Value → Value → Bool
  | null, null => true
  | boolean a, boolean b => a == b
  | integer a, integer b => a == b
  | uinteger a, uinteger b => a == b
  | real a, real b => a.eqv b
  | string a, string b => a == b
  | array as, array bs => eqvItems as bs
  | object as, object bs => eqvMembers as bs
  | _, _ => false

/-- Equality of arrays, item by item. -/
def eqvItems : List Value → List Value → Bool
  | [], [] => true
  | a :: as, b :: bs => eqv a b && eqvItems as bs
  | _, _ => false

/-- Equality of objects, member by member. -/
def eqvMembers : List (String × Value) → List (String × Value) → Bool
  | [], [] => true
  | (j, a) :: as, (k, b) :: bs => j == k && eqv a b && eqvMembers as bs
  | _, _ => false

end

instance : BEq Value := ⟨eqv⟩

end Value

end TableJson
