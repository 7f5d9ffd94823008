import TableJson.Value.Edit

/-!
# Steps — paths as they are handed in

The name of a member is handed in as a slice of a text, as a text that is lent, or as a text that is given away.  A
name that is not given away is looked up first, so that it is copied for new members only, and is then looked up
again; a name that is given away is put in with one look.

`Value.store` is `Value.assign` for paths whose names are handed in.
-/

namespace TableJson

/-- How the name of a member is handed in. -/
inductive Handing where
  | slice
  | lent
  | given
deriving DecidableEq, Repr

/-- One step into a value, as it is handed in. -/
inductive Step where
  | key (handing : Handing) (name : String)
  | index (i : Nat)
deriving DecidableEq, Repr

/-- The step, however it was handed in. -/
def Step.component : Step → Component
  | key _ name => .key name
  | index i => .index i

/-- The members with one under a name, which is null if it is new. -/
def Members.reserve (name : String) (members : Members) : Members :=
  if (find? name members).isSome then members else insert name .null members

namespace Value

/-- The value, made an object with a member under a name that is looked up twice, and that member. -/
def openLent (v : Value) (name : String) : Except Violation (Value × Value) := do
  let members := Members.reserve name (← v.membersOrNew)
  return (object members, (Members.find? name members).getD null)

/-- The value, made a container with a child at a step, and that child. -/
def openStep (v : Value) : Step → Except Violation (Value × Value)
  | .key .slice name => v.openLent name
  | .key .lent name => v.openLent name
  | .key .given name => v.openAt (.key name)
  | .index i => v.openAt (.index i)

/-- Stores `new` at the end of a path as it is handed in, making containers on the way; the result is the value
afterwards, with the violation that stopped it if one did. -/
def store (new : Value) : List Step → Value → Value × Option Violation
  | [], _ => (new, none)
  | step :: steps, v =>
    match v.openStep step with
    | .error violation => (v, some violation)
    | .ok (opened, child) =>
      let stored := store new steps child
      (opened.replaceChild step.component stored.1, stored.2)

end Value

end TableJson
