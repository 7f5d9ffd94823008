import TableJson.Value.Basic

/-!
# Tokens — a value as a flat sequence

A value is emitted in document order: a scalar as one token, a container as its start with the number of its
children, the children, and a closing token; a member as the text of its name and its value.
-/

namespace TableJson

open Number

/-- One step of an emission. -/
inductive Token where
  | unit
  | boolean (b : Bool)
  | signed (n : Int64)
  | unsigned (n : UInt64)
  | real (x : Binary64)
  | text (s : String)
  | sequence (length : Nat)
  | mapping (length : Nat)
  | close
deriving DecidableEq, Repr

namespace Value

mutual

/-- The tokens of a value. -/
def tokens : Value → List Token
  | null => [.unit]
  | boolean b => [.boolean b]
  | integer n => [.signed n]
  | uinteger n => [.unsigned n]
  | real x => [.real x]
  | string s => [.text s]
  | array items => .sequence items.length :: (itemTokens items ++ [.close])
  | object members => .mapping members.length :: (memberTokens members ++ [.close])

/-- The tokens of items, one after another. -/
def itemTokens : List Value → List Token
  | [] => []
  | v :: vs => tokens v ++ itemTokens vs

/-- The tokens of names and values, one after another. -/
def memberTokens : List (String × Value) → List Token
  | [] => []
  | (name, v) :: ms => .text name :: (tokens v ++ memberTokens ms)

end

end Value

/-- Emits tokens to a receiver that refuses the `refused`-th, counted from 1: the tokens received, and whether they
are all. -/
def Token.send (refused : Option Nat) (tokens : List Token) : List Token × Bool :=
  match refused with
  | none => (tokens, true)
  | some n => if 1 ≤ n ∧ n ≤ tokens.length then (tokens.take (n - 1), false) else (tokens, true)

end TableJson
