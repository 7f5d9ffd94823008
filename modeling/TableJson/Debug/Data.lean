import TableJson.Builder
import TableJson.Debug.Quoted
import TableJson.Grammar.Read
import TableJson.Number.Text
import TableJson.Text.Pretty

/-!
# Data for developers — the terms of values, builders, errors and settings
-/

namespace TableJson.Debug

open Number

/-! ## Values -/

mutual

/-- A value, as the name of its kind with its payload. -/
def ofValue : Value → Term
  | .null => .ofString "Null"
  | .boolean b => .apply "Boolean" (.ofBool b)
  | .integer n => .apply "Integer" (.atom (intText n.toInt))
  | .uinteger n => .apply "UInteger" (.atom (intText n.toNat))
  | .real x => .apply "Real" (.atom (Binary64.text x))
  | .string s => .apply "String" (.ofText s)
  | .array items => .apply "Array" (.list (ofItems items))
  | .object members => .apply "Object" (.map (ofMembers members))

/-- Items, one after another. -/
def ofItems : List Value → List Term
  | [] => []
  | v :: vs => ofValue v :: ofItems vs

/-- Members, one after another. -/
def ofMembers : List (String × Value) → List (Term × Term)
  | [] => []
  | (name, v) :: ms => (.ofText name, ofValue v) :: ofMembers ms

end

/-- One step of a path. -/
def ofComponent : Component → Term
  | .key name => .apply "Key" (.ofText name)
  | .index i => .apply "Index" (.ofNat i)

/-- Bounds on a number of children. -/
def ofSizeHint (hint : Nat × Option Nat) : Term :=
  .call [] [.ofNat hint.1, .ofOption (hint.2.map .ofNat)]

/-! ## Builders -/

/-- An open container. -/
def ofContainer : Container → Term
  | .object members => .apply "Object" (.map (ofMembers members))
  | .array items => .apply "Array" (.list (ofItems items.toList))

/-- A frame of a builder. -/
def ofFrame (frame : Frame) : Term :=
  .ofFields "Frame" [("name", .ofText frame.name), ("container", ofContainer frame.container)]

/-- A builder, its outermost frame first. -/
def ofBuilder (b : Builder) : Term :=
  .ofFields "DomBuilder" [
    ("stack", .list (b.stack.reverse.map ofFrame)),
    ("root", .ofOption (b.root.map ofValue))]

/-! ## Errors -/

/-- A failed reading. -/
def ofParseError (e : ParseError) : Term :=
  .ofFields "ParseError" [
    ("code", .ofString e.code.name),
    ("offset", .ofNat e.offset),
    ("line", .ofNat e.line),
    ("column", .ofNat e.column)]

/-- Malformed bytes. -/
def ofDecodeError (e : DecodeError) : Term :=
  match e with
  | .unknownTag tag => .apply e.name (.ofNat tag.toNat)
  | .invalidBoolean byte => .apply e.name (.ofNat byte.toNat)
  | .trailingBytes n => .apply e.name (.ofNat n)
  | .unexpectedEnd | .invalidUtf8 | .tooDeep => .ofString e.name

/-- A value that has no bytes. -/
def ofEncodeError : EncodeError → Term
  | .lengthOverflow length => .apply "LengthOverflow" (.ofNat length)

/-! ## Settings -/

/-- The grammar, of which only the number of rows of a document is shown. -/
def ofGrammar : Term :=
  .record "Grammar".toList [("rows", .ofNat (Grammar.rows .jsonText).length)] true

/-- The settings of a reading. -/
def ofOptions (options : Options) : Term :=
  .ofFields "ParserOptions" [
    ("max_depth", .ofNat options.maxDepth),
    ("replace_invalid_surrogates", .ofBool options.replaceInvalidSurrogates)]

/-- The layout of pretty text. -/
def ofLayout (layout : Text.Layout) : Term :=
  .ofFields "PrettyConfig" [
    ("indent", .ofNat layout.indent),
    ("space_after_colon", .ofBool layout.spaceAfterColon)]

end TableJson.Debug
