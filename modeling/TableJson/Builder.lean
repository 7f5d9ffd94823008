import TableJson.Event
import TableJson.Value.Edit

/-!
# Builder — a value from events

Containers are put together from the inside out: each open container is a frame on a stack until its end, when it is
attached to the frame below, or becomes the root.  The first completed top-level value stays the root; a second one
is refused.  Closing with nothing open is a violation.
-/

namespace TableJson

/-- What an open container holds so far. -/
inductive Container where
  | object (members : Members)
  | array (items : Array Value)

namespace Container

/-- A container with nothing in it. -/
def empty : ContainerKind → Container
  | .object => object []
  | .array => array #[]

/-- The value it has become. -/
def toValue : Container → Value
  | object members => .object members
  | array items => .array items.toList

/-- Puts a value in, under a name if it is an object. -/
def attach (name : String) (v : Value) : Container → Container
  | object members => object (Members.insert name v members)
  | array items => array (items.push v)

end Container

/-- The value of a scalar. -/
def Scalar.toValue : Scalar → Value
  | null => .null
  | boolean b => .boolean b
  | integer n => .integer n
  | uinteger n => .uinteger n
  | real x => .real x
  | string s => .string s

/-- An open container, and the name it will be attached under. -/
structure Frame where
  name : String
  container : Container

/-- The open containers, innermost first, and the completed top-level value. -/
structure Builder where
  stack : List Frame := []
  root : Option Value := none

namespace Builder

/-- The value built, null if none was completed. -/
def finish (b : Builder) : Value := b.root.getD .null

/-- Adds a complete value; a second top-level value is refused. -/
def attach (name : String) (v : Value) (b : Builder) : Builder × Bool :=
  match b.stack, b.root with
  | frame :: stack, _ => ({ b with stack := { frame with container := frame.container.attach name v } :: stack }, true)
  | [], none => ({ b with root := some v }, true)
  | [], some _ => (b, false)

/-- Opens a container; a second top-level value is refused. -/
def enter (kind : ContainerKind) (name : String) (b : Builder) : Builder × Bool :=
  if b.stack.isEmpty && b.root.isSome then (b, false)
  else ({ b with stack := { name, container := .empty kind } :: b.stack }, true)

/-- Closes the innermost container, whatever its kind, and attaches it. -/
def leave (b : Builder) : Except Violation (Builder × Bool) :=
  match b.stack with
  | [] => .error .nothingOpen
  | frame :: stack => .ok ({ b with stack }.attach frame.name frame.container.toValue)

/-- Takes one event. -/
def feed (e : Event) (b : Builder) : Except Violation (Builder × Bool) :=
  match e with
  | .beginJson => .ok (b, true)
  | .endJson _ => .ok (b, true)
  | .opened kind name => .ok (b.enter kind name)
  | .closed _ _ => b.leave
  | .scalar name value => .ok (b.attach name value.toValue)

/-- The builder as a consumer; a violation stops the reading and stays. -/
def consumer : Consumer (Except Violation Builder) := fun e state =>
  match state with
  | .error violation => (.error violation, false)
  | .ok b =>
    match b.feed e with
    | .error violation => (.error violation, false)
    | .ok (b, answer) => (.ok b, answer)

end Builder

end TableJson
