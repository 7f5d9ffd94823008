import TableJson.Grammar.Session

/-!
# Reading — JSON text to events

`read` walks the table of a whole document over a text, with a session as its context, and says whether the text was
one JSON document.  An error without an offset of its own lies at the furthest byte that the walk has looked at.

A consumer that stops the reading hears nothing more; any other failure is reported to it as `endJson false`, unless
the grammar has already done so.
-/

namespace TableJson.Grammar

open Machine

/-- Tables open inside one another for each level of nesting: the value, its container, the body, the next element
and, in objects, the member. -/
def tablesPerLevel : Nat := 5

/-- Tables open inside one another outside of all levels: the document, and a value that is a string down to the
digits of an escape. -/
def tablesPerDocument : Nat := 7

/-- No table of the grammar ever goes back to an earlier row, and none has more rows than this. -/
def rowsPerTable : Nat := 7

/-- How many tables a reading may have open inside one another. -/
def nesting (options : Options) : Nat := tablesPerLevel * options.maxDepth + tablesPerDocument

section Read

variable {σ : Type} (consume : Consumer σ) (options : Options) (text : String)

/-- Walks the table of a document over the text. -/
def walkText (s : σ) : Outcome × State (Session σ) :=
  run rows (Session.act consume options text.utf8ByteSize) rowsPerTable (nesting options) .jsonText
    (.start (Utf8.encode text.toList)) { context := { consumer := s } }

/-- The failure that an outcome amounts to, in a text of `size` bytes; none for a document. -/
def Failure.ofOutcome (size : Nat) (recorded : Option Failure) : Outcome → Option Failure
  | .matched next => if next.offset = size then none else some ⟨.excessSource, some next.offset⟩
  | .mismatch => some ⟨.badJson, none⟩
  | .halted (.aborted _) => some (recorded.getD ⟨.aborted, none⟩)
  | .halted (.rejected ..) => some (recorded.getD ⟨.badJson, none⟩)
  | .exhausted => some ⟨.badJson, none⟩

/-- What a reading has come to. -/
structure Reading (σ : Type) where
  consumer : σ
  result : Except ParseError Unit
  /-- The failure that the session kept. -/
  failure : Option Failure
  /-- What stopped the walk, if it did not end by itself. -/
  halt : Option Halt

/-- Reads the text and reports its events. -/
def read (s : σ) : Reading σ :=
  let (outcome, state) := walkText consume options text s
  let session := state.context
  let halt :=
    match outcome with
    | .halted h => some h
    | _ => none
  match Failure.ofOutcome text.utf8ByteSize session.failure outcome with
  | none => { consumer := session.consumer, result := .ok (), failure := session.failure, halt }
  | some failure =>
    let consumer :=
      if session.ended || failure.code == .aborted then session.consumer
      else (consume (.endJson false) session.consumer).1
    let error := ParseError.locate failure.code text (failure.offset.getD state.furthest)
    { consumer, result := .error error, failure := session.failure, halt }

end Read

/-- Whether a text is a JSON document, and if not why. -/
def validate (options : Options) (text : String) : Except ParseError Unit :=
  (read Consumer.indifferent options text ()).result

end TableJson.Grammar
