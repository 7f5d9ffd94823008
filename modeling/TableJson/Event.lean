import TableJson.Number.Binary

/-!
# Events — what a reader of JSON text reports

A document is reported as a sequence of events, in document order.  A consumer takes one event after another and
answers each; `false` stops the reading.
-/

namespace TableJson

open Number

/-- The two kinds of container. -/
inductive ContainerKind where
  | object
  | array
deriving DecidableEq, Repr

/-- A value without children, as reported. -/
inductive Scalar where
  | null
  | boolean (b : Bool)
  | integer (n : Int64)
  | uinteger (n : UInt64)
  | real (x : Binary64)
  | string (s : String)
deriving DecidableEq, Repr

/-- One report.  `name` is the member name where the value sits directly in an object, and empty elsewhere. -/
inductive Event where
  | beginJson
  /-- The end of the document, and whether it was one. -/
  | endJson (success : Bool)
  /-- The start of a container. -/
  | opened (kind : ContainerKind) (name : String)
  /-- The end of a container, with the name it was opened with. -/
  | closed (kind : ContainerKind) (name : String)
  | scalar (name : String) (value : Scalar)
deriving DecidableEq, Repr

/-- Takes an event and answers whether to go on; `σ` is what the consumer keeps. -/
abbrev Consumer (σ : Type) := Event → σ → σ × Bool

namespace Consumer

/-- The consumer that keeps nothing and goes on whatever comes. -/
def indifferent : Consumer Unit := fun _ s => (s, true)

/-- The consumer that keeps every event, the last one first, and goes on while it has fewer than `limit`. -/
def recorder (limit : Option Nat) : Consumer (List Event) := fun e events =>
  let events := e :: events
  (events,
    match limit with
    | some n => decide (events.length < n)
    | none => true)

end Consumer

end TableJson
