import TableJson.Value.Path

/-!
# Edits — changing a value in place

Editing treats null as a container still to be chosen: storing under an index makes it an array, under a name an
object.  Arrays grow with nulls, absent names come into being.  Any other value of the wrong kind is a violation.

`assign` works step by step, and takes nothing back where a later step meets a violation.
-/

namespace TableJson

/-- What a caller may not ask for. -/
inductive Violation where
  | notArray (found : Kind)
  | notObject (found : Kind)
  | nothingOpen
deriving DecidableEq, Repr

/-- The text of a violation. -/
def Violation.message : Violation → String
  | notArray found => "expected an array or null, found " ++ found.name
  | notObject found => "expected an object or null, found " ++ found.name
  | nothingOpen => "container closed with no container open"

namespace Value

/-- The items of an array; null has none. -/
def itemsOrNew : Value → Except Violation (List Value)
  | null => .ok []
  | array items => .ok items
  | v => .error (.notArray v.kind)

/-- The members of an object; null has none. -/
def membersOrNew : Value → Except Violation Members
  | null => .ok []
  | object members => .ok members
  | v => .error (.notObject v.kind)

/-! ## Storing along a path -/

/-- The value, made a container with a child at `step`, and that child. -/
def openAt (v : Value) : Component → Except Violation (Value × Value)
  | .index i => do
    let items ← v.itemsOrNew
    let grown := items ++ List.replicate (i + 1 - items.length) null
    return (array grown, grown.getD i null)
  | .key name => do
    let members ← v.membersOrNew
    match Members.find? name members with
    | some child => return (object members, child)
    | none => return (object (Members.insert name null members), null)

/-- Stores `new` at the end of a path, making containers on the way; the result is the value afterwards, with the
violation that stopped it if one did. -/
def assign (new : Value) : Path → Value → Value × Option Violation
  | [], _ => (new, none)
  | step :: path, v =>
    match v.openAt step with
    | .error violation => (v, some violation)
    | .ok (opened, child) =>
      let stored := assign new path child
      (opened.replaceChild step stored.1, stored.2)

/-! ## Arrays -/

/-- Appends an item. -/
def push (v item : Value) : Except Violation Value := do
  return array ((← v.itemsOrNew) ++ [item])

/-- Takes an item out of an array. -/
def removeIndex (i : Nat) : Value → Option Value × Value
  | array items => (items[i]?, array (items.eraseIdx i))
  | v => (none, v)

/-- Changes the items of an array. -/
def modifyItems? (f : List Value → List Value) : Value → Option Value
  | array items => some (array (f items))
  | _ => none

/-! ## Objects -/

/-- Puts a member in, and gives the one it replaces. -/
def insert (v : Value) (name : String) (member : Value) : Except Violation (Option Value × Value) := do
  let members ← v.membersOrNew
  return (Members.find? name members, object (Members.insert name member members))

/-- The member with a name. -/
def find? (name : String) (v : Value) : Option Value := v.toMembers?.bind (·.find? name)

/-- Whether there is a member with a name. -/
def contains (name : String) (v : Value) : Bool := (v.find? name).isSome

/-- Takes a member out of an object. -/
def remove (name : String) : Value → Option Value × Value
  | object members => (Members.find? name members, object (Members.erase name members))
  | v => (none, v)

/-- Replaces the value of a member that is there. -/
def replaceMember? (v : Value) (name : String) (member : Value) : Option Value :=
  (v.find? name).map fun _ => v.replaceChild (.key name) member

/-- Changes the members of an object. -/
def modifyMembers? (f : Members → Members) : Value → Option Value
  | object members => some (object (f members))
  | _ => none

/-! ## Strings -/

/-- Changes the text of a string. -/
def modifyString? (f : String → String) : Value → Option Value
  | string s => some (string (f s))
  | _ => none

end Value

end TableJson
