import TableJson.Error
import TableJson.Utf8
import TableJson.Value.Basic

/-!
# Encoding — values as bytes

| kind     | after the tag byte                                              |
|----------|-----------------------------------------------------------------|
| null     | nothing                                                         |
| boolean  | one byte, 0 or 1                                                |
| integer  | eight bytes, two's complement                                   |
| uinteger | eight bytes                                                     |
| real     | the eight bytes of the pattern                                  |
| string   | the length in four bytes, UTF-8                                 |
| array    | the number of items in four bytes, the items                    |
| object   | the number of members in four bytes, for each its name, written |
|          | as after the tag of a string, and its value                     |

Bytes of a number stand in big-endian order.  A length of `2 ^ 32` or more has no encoding.
-/

namespace TableJson.Wire

/-- The last `count` bytes of a number, in big-endian order. -/
def bigEndian : Nat → Nat → List UInt8
  | 0, _ => []
  | count + 1, n => bigEndian count (n / 256) ++ [.ofNat (n % 256)]

/-- A length in four bytes. -/
def encodeLength (n : Nat) : Except EncodeError (List UInt8) :=
  if n < 2 ^ (32 : Nat) then .ok (bigEndian 4 n) else .error (.lengthOverflow n)

/-- The length and the bytes of a string. -/
def encodeText (text : String) : Except EncodeError (List UInt8) := do
  let bytes := Utf8.encode text.toList
  return (← encodeLength bytes.length) ++ bytes

/-- The tag byte of a kind. -/
def tagByte (k : Kind) : UInt8 := .ofNat k.tag

mutual

/-- The encoding of a value. -/
def encode : Value → Except EncodeError (List UInt8)
  | .null => .ok [tagByte .null]
  | .boolean b => .ok [tagByte .boolean, if b then 1 else 0]
  | .integer n => .ok (tagByte .integer :: bigEndian 8 (n.toInt % 2 ^ (64 : Nat)).toNat)
  | .uinteger n => .ok (tagByte .uinteger :: bigEndian 8 n.toNat)
  | .real x => .ok (tagByte .real :: bigEndian 8 x.bits)
  | .string text => do return tagByte .string :: (← encodeText text)
  | .array items => do
    let length ← encodeLength items.length
    return tagByte .array :: (length ++ (← encodeItems items))
  | .object members => do
    let length ← encodeLength members.length
    return tagByte .object :: (length ++ (← encodeMembers members))

/-- The encodings of items, one after another. -/
def encodeItems : List Value → Except EncodeError (List UInt8)
  | [] => .ok []
  | v :: vs => do
    let first ← encode v
    return first ++ (← encodeItems vs)

/-- The encodings of names and values, one after another. -/
def encodeMembers : List (String × Value) → Except EncodeError (List UInt8)
  | [] => .ok []
  | (name, v) :: ms => do
    let name ← encodeText name
    let first ← encode v
    return name ++ (first ++ (← encodeMembers ms))

end

end TableJson.Wire
