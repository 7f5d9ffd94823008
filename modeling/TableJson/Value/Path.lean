import TableJson.Value.Members

/-!
# Paths — the way to a value inside a value

A path is a list of steps, each the name of a member or the index of an item.  Three readers walk it:

* `pointer?` finds the value or says that there is none;
* `follow` reads null for whatever is not there;
* `updateAt?` changes the value in place, if it is there.
-/

namespace TableJson

/-- One step into a value. -/
inductive Component where
  | key (name : String)
  | index (i : Nat)
deriving DecidableEq, Repr

namespace Component

def key? : Component → Option String
  | key name => some name
  | index _ => none

def index? : Component → Option Nat
  | key _ => none
  | index i => some i

/-- The index with the bits of an integer in 64-bit words. -/
def ofInt (i : Int) : Component := index (i % 2 ^ (64 : Nat)).toNat

end Component

/-- The way to a value. -/
abbrev Path := List Component

namespace Value

/-- The child that a step leads to: a name leads into objects only, an index into arrays only. -/
def child? : Value → Component → Option Value
  | object members, .key name => Members.find? name members
  | array items, .index i => items[i]?
  | _, _ => none

/-- The value at the end of a path. -/
def pointer? : Path → Value → Option Value
  | [], v => some v
  | step :: path, v => (v.child? step).bind (pointer? path)

/-- The value at the end of a path, null where there is none. -/
def follow : Path → Value → Value
  | [], v => v
  | step :: path, v => follow path ((v.child? step).getD null)

/-- The value with the child at a step replaced, if it has one there. -/
def replaceChild : Value → Component → Value → Value
  | object members, .key name, child => object (Members.insert name child members)
  | array items, .index i, child => array (items.set i child)
  | v, _, _ => v

/-- Changes the value at the end of a path by `change`, which may answer something of its own. -/
def updateAt? {β : Type} (change : Value → β × Value) : Path → Value → Option (β × Value)
  | [], v => some (change v)
  | step :: path, v =>
    match v.child? step with
    | none => none
    | some child => (updateAt? change path child).map fun (answer, child) => (answer, v.replaceChild step child)

end Value

end TableJson
