import TableJson.Error
import TableJson.Options
import TableJson.Utf8
import TableJson.Value.Members

/-!
# Decoding — values from bytes

A reader takes bytes off the front of what is left.  It reports the first thing that is wrong, and what was read
before that is gone.  Containers may nest `defaultMaxDepth` deep; one level more is refused at its tag.
-/

namespace TableJson.Wire

/-- Takes bytes off the front and answers, or fails; the bytes left come along either way. -/
def Reader (β : Type) := List UInt8 → Except DecodeError β × List UInt8

namespace Reader

variable {β γ : Type}

/-- Answers without reading. -/
def pure (b : β) : Reader β := fun bytes => (.ok b, bytes)

/-- Fails without reading. -/
def fail (e : DecodeError) : Reader β := fun bytes => (.error e, bytes)

/-- Reads on after an answer. -/
def bind (r : Reader β) (next : β → Reader γ) : Reader γ := fun bytes =>
  match r bytes with
  | (.ok b, rest) => next b rest
  | (.error e, rest) => (.error e, rest)

instance : Monad Reader where
  pure := pure
  bind := bind

/-- Takes `n` bytes, or none if there are not so many. -/
def take (n : Nat) : Reader (List UInt8) := fun bytes =>
  let taken := bytes.take n
  if taken.length = n then (.ok taken, bytes.drop n) else (.error .unexpectedEnd, bytes)

/-- Reads the same thing `n` times. -/
def times (r : Reader β) : Nat → Reader (List β)
  | 0 => pure []
  | n + 1 => do
    let first ← r
    let others ← times r n
    return first :: others

end Reader

/-- The number that bytes in big-endian order stand for. -/
def ofBigEndian (bytes : List UInt8) : Nat := bytes.foldl (fun n b => 256 * n + b.toNat) 0

/-- A number in `n` bytes. -/
def readNat (n : Nat) : Reader Nat := do
  let bytes ← Reader.take n
  return ofBigEndian bytes

/-- A length and so many bytes of UTF-8. -/
def readText : Reader String := do
  let length ← readNat 4
  let bytes ← Reader.take length
  match Utf8.decode? bytes with
  | some cs => return String.ofList cs
  | none => Reader.fail .invalidUtf8

/-- A byte that says which boolean. -/
def readBool : Reader Bool := do
  let byte ← readNat 1
  match byte with
  | 0 => return false
  | 1 => return true
  | other => Reader.fail (.invalidBoolean (.ofNat other))

/-- A tag byte. -/
def readKind : Reader Kind := do
  let tag ← readNat 1
  match Kind.ofTag? tag with
  | some kind => return kind
  | none => Reader.fail (.unknownTag (.ofNat tag))

/-- A name and a value. -/
def readMember (value : Reader Value) : Reader (String × Value) := do
  let name ← readText
  let v ← value
  return (name, v)

/-- What follows the tag of a kind; a container holds values as `child` reads them, if it may stand here. -/
def readPayload (child : Option (Reader Value)) : Kind → Reader Value
  | .null => return .null
  | .boolean => do return .boolean (← readBool)
  | .integer => do return .integer (.ofNat (← readNat 8))
  | .uinteger => do return .uinteger (.ofNat (← readNat 8))
  | .real => do return .real (.ofNat (← readNat 8))
  | .string => do return .string (← readText)
  | .array =>
    match child with
    | none => Reader.fail .tooDeep
    | some child => do
      let n ← readNat 4
      return .array (← child.times n)
  | .object =>
    match child with
    | none => Reader.fail .tooDeep
    | some child => do
      let n ← readNat 4
      return .object (Members.ofList (← (readMember child).times n))

/-- A value with containers nested at most `levels` deep. -/
def readValue : Nat → Reader Value
  | 0 => do readPayload none (← readKind)
  | levels + 1 => do readPayload (some (readValue levels)) (← readKind)

/-- Reads one value off the front. -/
def decode (bytes : List UInt8) : Except DecodeError Value × List UInt8 := readValue defaultMaxDepth bytes

/-- The value that spans all of `bytes`. -/
def decodeAll (bytes : List UInt8) : Except DecodeError Value :=
  match decode bytes with
  | (.ok v, []) => .ok v
  | (.ok _, rest) => .error (.trailingBytes rest.length)
  | (.error e, _) => .error e

/-- Reads values for as long as bytes are left, up to the first error, with the number of bytes left after each. -/
def decodeWhile : Nat → List UInt8 → List (Except DecodeError Value × Nat)
  | 0, _ => []
  | _, [] => []
  | fuel + 1, bytes =>
    match decode bytes with
    | (.ok v, rest) => (.ok v, rest.length) :: decodeWhile fuel rest
    | (.error e, rest) => [(.error e, rest.length)]

/-- Every value of a stream; each takes a byte at least, so its length bounds their number. -/
def decodeStream (bytes : List UInt8) : List (Except DecodeError Value × Nat) := decodeWhile bytes.length bytes

end TableJson.Wire
