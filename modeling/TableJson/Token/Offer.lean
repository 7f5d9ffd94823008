import TableJson.Number.Text
import TableJson.Utf8
import TableJson.Value.Members

/-!
# Offers — a value from what a source offers

A source that describes itself offers data of a shape of its own choosing.  `Offer.value` takes any shape that JSON
has a value for; `Offer.name` takes the shapes that can name a member.  An integer that is not negative becomes an
unsigned one, whichever way it is offered.
-/

namespace TableJson

open Number

/-- What a source offers. -/
inductive Offer where
  | unit
  | absent
  | present (inner : Offer)
  | wrapped (inner : Offer)
  | boolean (b : Bool)
  | signed (n : Int64)
  | unsigned (n : UInt64)
  /-- An integer of 128 bits with a sign. -/
  | wideSigned (n : Int)
  /-- An integer of 128 bits without a sign. -/
  | wideUnsigned (n : Nat)
  | single (x : Binary32)
  | real (x : Binary64)
  | char (c : Char)
  | text (s : String)
  | bytes (bs : List UInt8)
  | sequence (items : List Offer)
  /-- Names and values by turns. -/
  | mapping (entries : List Offer)
  /-- The source fails. -/
  | failure (message : String)
deriving Inhabited

/-- What was wanted of an offer. -/
inductive Wanted where
  | value
  | name
deriving DecidableEq, Repr

/-- Why an offer was not taken. -/
inductive OfferError where
  | invalidType (found : String) (wanted : Wanted)
  | invalidValue (found : String) (wanted : Wanted)
  | missingValue
  | source (message : String)
deriving DecidableEq, Repr

/-- The text of what was wanted. -/
def Wanted.message : Wanted → String
  | value => "any JSON value"
  | name => "a string"

/-- The text of an error. -/
def OfferError.message : OfferError → String
  | invalidType found wanted => "invalid type: " ++ found ++ ", expected " ++ wanted.message
  | invalidValue found wanted => "invalid value: " ++ found ++ ", expected " ++ wanted.message
  | missingValue => "missing value"
  | source message => message

namespace Offer

/-! ## Descriptions -/

/-- A description with its subject in grave accents. -/
def quoted (what : String) (subject : List Char) : String := what ++ " \x60" ++ String.ofList subject ++ "\x60"

/-- An integer of 128 bits, as it is described. -/
def wideText (type : String) (n : Int) : String := quoted "integer" (intText n) ++ " as " ++ type

/-- What an offer is, where it is not wanted. -/
def description : Offer → String
  | unit => "unit value"
  | absent => "Option value"
  | present _ => "Option value"
  | wrapped _ => "newtype struct"
  | boolean b => quoted "boolean" (if b then "true" else "false").toList
  | signed n => quoted "integer" (intText n.toInt)
  | unsigned n => quoted "integer" (intText n.toNat)
  | wideSigned n => wideText "i128" n
  | wideUnsigned n => wideText "u128" n
  | single x => quoted "floating point" (Binary64.longText x.convert)
  | real x => quoted "floating point" (Binary64.longText x)
  | char c => quoted "character" [c]
  | text s => "string " ++ s
  | bytes _ => "byte array"
  | sequence _ => "sequence"
  | mapping _ => "map"
  | failure message => message

/-! ## Taking offers -/

/-- The name that an offer gives a member. -/
def name : Offer → Except OfferError String
  | char c => .ok (String.singleton c)
  | text s => .ok s
  | bytes bs =>
    match Utf8.decode? bs with
    | some cs => .ok (String.ofList cs)
    | none => .error (.invalidValue "byte array" .name)
  | failure message => .error (.source message)
  | other => .error (.invalidType other.description .name)

mutual

/-- The value that an offer gives. -/
def value : Offer → Except OfferError Value
  | unit => .ok .null
  | absent => .ok .null
  | present inner => value inner
  | boolean b => .ok (.boolean b)
  | signed n => .ok (if 0 ≤ n then .uinteger n.toUInt64 else .integer n)
  | unsigned n => .ok (.uinteger n)
  | single x => .ok (.real x.convert)
  | real x => .ok (.real x)
  | char c => .ok (.string (String.singleton c))
  | text s => .ok (.string s)
  | sequence items => do return .array (← values items)
  | mapping entries => do return .object (← valuesByName entries [])
  | failure message => .error (.source message)
  | wrapped inner => .error (.invalidType (wrapped inner).description .value)
  | wideSigned n => .error (.invalidType (wideSigned n).description .value)
  | wideUnsigned n => .error (.invalidType (wideUnsigned n).description .value)
  | bytes bs => .error (.invalidType (bytes bs).description .value)

/-- The values that offers give, one after another. -/
def values : List Offer → Except OfferError (List Value)
  | [] => .ok []
  | item :: items => do
    let v ← value item
    return v :: (← values items)

/-- The members that offers of names and values give, added to those given before. -/
def valuesByName : List Offer → Members → Except OfferError Members
  | [], members => .ok members
  | [key], _ => do
    let _ ← key.name
    .error .missingValue
  | key :: item :: entries, members => do
    let k ← key.name
    let v ← value item
    valuesByName entries (Members.insert k v members)

end

end Offer

end TableJson
