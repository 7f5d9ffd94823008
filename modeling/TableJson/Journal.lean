import TableJson.Debug.Data
import TableJson.Value.Read

/-!
# Journals — what happens during a reading

A journal notes, in order, the start of a reading, every container that is opened and closed, the first failure, what
stopped the walk, and how it all ended.  The start and the end are of the level `info`, the rest of the level `detail`.
-/

namespace TableJson

/-- How much a note matters. -/
inductive Level where
  | detail
  | info
deriving DecidableEq, Repr

/-- One note of a journal. -/
inductive Note where
  | started (bytes : Nat)
  | opened (kind : ContainerKind) (name : String) (depth : Nat)
  | closed (name : String) (depth : Nat)
  | failed (failure : Grammar.Failure)
  | halted (halt : Machine.Halt)
  | succeeded
  | refused (error : ParseError)
deriving DecidableEq, Repr

namespace Note

/-- How much a note matters. -/
def level : Note → Level
  | started _ | succeeded | refused _ => .info
  | opened .. | closed .. | failed _ | halted _ => .detail

/-- The term of an offset that may be missing, as text. -/
def offsetText (offset : Option Nat) : String :=
  String.ofList (Debug.Term.ofOption (offset.map .ofNat)).inline

/-- A name in quotes. -/
def nameText (name : String) : String := String.ofList (Debug.quoted '"' name.toList)

/-- The text of a note. -/
def message : Note → String
  | started bytes => "parsing " ++ toString bytes ++ " bytes"
  | opened kind name depth =>
    "open " ++ String.ofList (Debug.ofContainer (.empty kind)).inline ++ " " ++ nameText name
      ++ " at depth " ++ toString depth
  | closed name depth => "close " ++ nameText name ++ " at depth " ++ toString depth
  | failed failure => failure.code.message ++ " at " ++ offsetText failure.offset
  | halted (.aborted offset) => "action aborted the run at byte " ++ toString offset
  | halted (.rejected row offset) =>
    "reject row " ++ toString row ++ " matched at byte " ++ toString offset
  | succeeded => "parse succeeded"
  | refused error => "parse failed: " ++ error.message

end Note

/-! ## Keeping a journal -/

/-- What a builder notes when it takes an event. -/
def Builder.notes (e : Event) (b : Builder) : List Note :=
  match e, b.stack with
  | .opened kind name, stack => if (b.enter kind name).2 then [.opened kind name stack.length] else []
  | .closed _ _, frame :: stack => [.closed frame.name stack.length]
  | _, _ => []

/-- The builder as a consumer that keeps notes, the last one first. -/
def Builder.notingConsumer : Consumer (List Note × Except Violation Builder) := fun e (notes, state) =>
  let added :=
    match state with
    | .ok b => b.notes e
    | .error _ => []
  let answer := Builder.consumer e state
  ((added.reverse ++ notes, answer.1), answer.2)

namespace Value

/-- Reads a value and keeps a journal. -/
def readNoting (options : Options) (text : String) : List Note × Except ParseError Value :=
  let reading := Grammar.read Builder.notingConsumer options text ([], .ok {})
  let ending :=
    match reading.result with
    | .ok () => Note.succeeded
    | .error e => Note.refused e
  let notes := .started text.utf8ByteSize :: reading.consumer.1.reverse ++ (reading.failure.map Note.failed).toList
    ++ (reading.halt.map Note.halted).toList ++ [ending]
  (notes, read options text)

end Value

end TableJson
