import TableJson.Number.Text
import TableJson.Text.Escape
import TableJson.Value.Basic

/-!
# Compact text — a value on one line, without blanks

Reals that no JSON number can write are written as `null`.
-/

namespace TableJson.Text

open Number

/-- The text of a real in JSON. -/
def realText (x : Binary64) : List Char := if x.isFinite then x.text else ['n', 'u', 'l', 'l']

section Compact

variable {σ : Type} [Writer σ]

mutual

/-- Writes a value. -/
def putCompact : Value → Write σ
  | .null, s => putAll ['n', 'u', 'l', 'l'] s
  | .boolean b, s => putAll (if b then ['t', 'r', 'u', 'e'] else ['f', 'a', 'l', 's', 'e']) s
  | .integer n, s => putAll (intText n.toInt) s
  | .uinteger n, s => putAll (intText n.toNat) s
  | .real x, s => putAll (realText x) s
  | .string text, s => putQuoted text s
  | .array items, s => do
    let s ← put '[' s
    let s ← putItems false items s
    put ']' s
  | .object members, s => do
    let s ← put '\x7b' s
    let s ← putMembers false members s
    put '\x7d' s

/-- Writes items with commas between them; `follows` says that there is something before the first. -/
def putItems (follows : Bool) : List Value → Write σ
  | [], s => .ok s
  | v :: vs, s => do
    let s ← putAll (if follows then [','] else []) s
    let s ← putCompact v s
    putItems true vs s

/-- Writes members with commas between them; `follows` says that there is something before the first. -/
def putMembers (follows : Bool) : List (String × Value) → Write σ
  | [], s => .ok s
  | (name, v) :: ms, s => do
    let s ← putAll (if follows then [','] else []) s
    let s ← putQuoted name s
    let s ← put ':' s
    let s ← putCompact v s
    putMembers true ms s

end

end Compact

end TableJson.Text

namespace TableJson.Value

/-- The compact text of a value. -/
def compact (v : Value) : String := Text.Sink.unlimited (Text.putCompact v)

end TableJson.Value
