import TableJson.Error
import TableJson.Event
import TableJson.Grammar.Rules
import TableJson.Machine.Run
import TableJson.Number.Numeral
import TableJson.Options
import TableJson.Text.Unescape

/-!
# Sessions — from matching rows to events

A session is the context of one reading: it turns the actions of the grammar into events for a consumer.  It keeps
the name of the member being read, the parts of the number being read, the names of the open containers and their
number, the first failure, and whether the end of the document has been reported.
-/

namespace TableJson.Grammar

open Machine Number

/-- Why a session refused an action, and where, if the session itself knows. -/
structure Failure where
  code : ErrorCode
  offset : Option Nat
deriving DecidableEq, Repr

/-- The parts of a number; absent ones are empty. -/
structure NumberParts where
  sign : Match := {}
  integral : Match := {}
  frac : Match := {}
  exp : Match := {}
deriving DecidableEq, Repr

/-- The state of a reading. -/
structure Session (σ : Type) where
  consumer : σ
  memberName : String := ""
  number : NumberParts := {}
  /-- Names of the open objects, innermost first. -/
  objects : List String := []
  /-- Names of the open arrays, innermost first. -/
  arrays : List String := []
  depth : Nat := 0
  failure : Option Failure := none
  ended : Bool := false

/-! ## Numbers -/

namespace NumberParts

/-- The characters of a match in ASCII. -/
def chars (m : Match) : List Char := m.bytes.map fun b => Char.ofNat b.toNat

/-- The whole literal. -/
def literal (n : NumberParts) : List Char := chars n.sign ++ chars n.integral ++ chars n.frac ++ chars n.exp

/-- What a literal denotes: an unsigned integer without sign, fraction and exponent, a signed one with a sign only,
and a real otherwise and where an integer does not fit.  A literal that no finite real is near to denotes nothing. -/
def scalar? (n : NumberParts) : Option Scalar :=
  let whole := digitsValue (chars n.integral)
  let isInteger := n.frac.bytes.isEmpty && n.exp.bytes.isEmpty
  if isInteger && n.sign.bytes.isEmpty && decide (whole < 2 ^ (64 : Nat)) then some (.uinteger (.ofNat whole))
  else if isInteger && !n.sign.bytes.isEmpty && decide (whole ≤ 2 ^ (63 : Nat)) then some (.integer (.ofInt (-whole)))
  else
    match (Binary.read? n.literal : Option Binary64) with
    | some x => if x.isFinite then some (.real x) else none
    | none => none

end NumberParts

/-! ## Strings -/

/-- The text that a quoted string stands for. -/
def decode? (options : Options) (quoted : Match) : Option String := do
  let body ← Utf8.decode? (quoted.bytes.drop 1).dropLast
  return String.ofList (← Text.unescape? options.replaceInvalidSurrogates body)

namespace Session

variable {σ : Type}

/-- Keeps the first failure, and refuses. -/
def fail (code : ErrorCode) (offset : Option Nat) (s : Session σ) : Session σ × Bool :=
  match s.failure with
  | some _ => (s, false)
  | none => ({ s with failure := some { code, offset } }, false)

section Consume

variable (consume : Consumer σ)

/-- Hands an event to the consumer. -/
def deliver (e : Event) (s : Session σ) : Session σ × Bool :=
  let answer := consume e s.consumer
  ({ s with consumer := answer.1 }, answer.2)

/-- Takes the pending member name for a scalar and reports it. -/
def deliverScalar (value : Scalar) (s : Session σ) : Session σ × Bool :=
  { s with memberName := "" }.deliver consume (.scalar s.memberName value)

/-- Reports the number that has been read. -/
def deliverNumber (s : Session σ) : Session σ × Bool :=
  match s.number.scalar? with
  | some value => s.deliverScalar consume value
  | none => { s with memberName := "" }.fail .badNumber (some s.number.sign.start)

/-- Reports the end of the document, as the failure of one. -/
def endInFailure (code : ErrorCode) (offset : Option Nat) (s : Session σ) : Session σ × Bool :=
  (({ s with ended := true }.fail code offset).1).deliver consume (.endJson false)

/-- Opens a container that starts at `offset`, unless it would nest too deep. -/
def enter (options : Options) (kind : ContainerKind) (offset : Nat) (s : Session σ) : Session σ × Bool :=
  if options.maxDepth ≤ s.depth then s.fail .tooDeep (some offset)
  else
    let name := s.memberName
    let entered := { s with depth := s.depth + 1, memberName := "" }
    let entered :=
      match kind with
      | .object => { entered with objects := name :: s.objects }
      | .array => { entered with arrays := name :: s.arrays }
    entered.deliver consume (.opened kind name)

/-- Closes a container, with the name that the last open one of its kind was opened with. -/
def leave (kind : ContainerKind) (s : Session σ) : Session σ × Bool :=
  let left := { s with depth := s.depth - 1 }
  match kind with
  | .object => { left with objects := s.objects.tail }.deliver consume (.closed kind (s.objects.headD ""))
  | .array => { left with arrays := s.arrays.tail }.deliver consume (.closed kind (s.arrays.headD ""))

/-- Does what a matching row means, in a text of `size` bytes; `false` stops the reading. -/
def act (options : Options) (size : Nat) : Context Action (Session σ)
  | .beginJson, _, s => s.deliver consume .beginJson
  | .successEndJson, m, s =>
    if m.stop < size then ((s.endInFailure consume .excessSource (some m.stop)).1, false)
    else { s with ended := true }.deliver consume (.endJson true)
  | .failedEndJson, _, s => s.endInFailure consume .badJson none
  | .falseValue, _, s => s.deliverScalar consume (.boolean false)
  | .nullValue, _, s => s.deliverScalar consume .null
  | .trueValue, _, s => s.deliverScalar consume (.boolean true)
  | .numberSign, m, s => ({ s with number := { s.number with sign := m } }, true)
  | .numberIntegral, m, s => ({ s with number := { s.number with integral := m } }, true)
  | .numberFrac, m, s => ({ s with number := { s.number with frac := m } }, true)
  | .numberExp, m, s => ({ s with number := { s.number with exp := m } }, true)
  | .numberValue, _, s => s.deliverNumber consume
  | .malformedNumber, m, s => ((s.fail .badNumber (some m.start)).1, true)
  | .stringValue, m, s =>
    match decode? options m with
    | some text => s.deliverScalar consume (.string text)
    | none => s.fail .badNumber (some m.start)
  | .beginMember, m, s =>
    match decode? options m with
    | some name => ({ s with memberName := name }, true)
    | none => s.fail .badNumber (some m.start)
  | .endMember, _, s => ({ s with memberName := "" }, true)
  | .beginObject, m, s => s.enter consume options .object m.start
  | .endObject, _, s => s.leave consume .object
  | .beginArray, m, s => s.enter consume options .array m.start
  | .endArray, _, s => s.leave consume .array

end Consume

end Session

end TableJson.Grammar
