import TableJson.Text.Compact

/-!
# Pretty text — one item or member on a line, indented

Scalars and empty containers are written as in compact text.
-/

namespace TableJson.Text

/-- How pretty text is laid out. -/
structure Layout where
  /-- Spaces for each level of nesting. -/
  indent : Nat := 4
  /-- Whether a space follows the colon of a member. -/
  spaceAfterColon : Bool := true
deriving DecidableEq, Repr

/-- Writes the start of a line `depth` levels deep. -/
def Layout.putMargin {σ : Type} [Writer σ] (layout : Layout) (depth : Nat) : Write σ :=
  putTimes (layout.indent * depth) ' '

/-- What follows the name of a member. -/
def Layout.colon (layout : Layout) : List Char := if layout.spaceAfterColon then [':', ' '] else [':']

section Pretty

variable {σ : Type} [Writer σ] (layout : Layout)

mutual

/-- Writes a value that sits `depth` levels deep. -/
def putPretty : Value → Nat → Write σ
  | .array (v :: vs), depth, s => do
    let s ← putAll ['[', '\n'] s
    let s ← putLines false (v :: vs) (depth + 1) s
    let s ← put '\n' s
    let s ← layout.putMargin depth s
    put ']' s
  | .object (m :: ms), depth, s => do
    let s ← putAll ['\x7b', '\n'] s
    let s ← putMemberLines false (m :: ms) (depth + 1) s
    let s ← put '\n' s
    let s ← layout.putMargin depth s
    put '\x7d' s
  | v, _, s => putCompact v s

/-- Writes items on lines of their own. -/
def putLines (follows : Bool) : List Value → Nat → Write σ
  | [], _, s => .ok s
  | v :: vs, depth, s => do
    let s ← putAll (if follows then [',', '\n'] else []) s
    let s ← layout.putMargin depth s
    let s ← putPretty v depth s
    putLines true vs depth s

/-- Writes members on lines of their own. -/
def putMemberLines (follows : Bool) : List (String × Value) → Nat → Write σ
  | [], _, s => .ok s
  | (name, v) :: ms, depth, s => do
    let s ← putAll (if follows then [',', '\n'] else []) s
    let s ← layout.putMargin depth s
    let s ← putQuoted name s
    let s ← putAll layout.colon s
    let s ← putPretty v depth s
    putMemberLines true ms depth s

end

end Pretty

end TableJson.Text

namespace TableJson.Value

/-- The pretty text of a value. -/
def pretty (layout : Text.Layout) (v : Value) : String := Text.Sink.unlimited (Text.putPretty layout v 0)

end TableJson.Value
