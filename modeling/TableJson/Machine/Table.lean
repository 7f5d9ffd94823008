/-!
# Tables — the rows a machine walks through

A program is a family of tables named by `τ`; tables may refer to each other and to themselves.  A table is a list
of rows, walked from row 0.  Each row holds a test and says where to go on when the test matches and when it does
not; a matching row may carry an action, a tag that means nothing to the machine.
-/

namespace TableJson.Machine

/-- Where the walk through a table goes on. -/
inductive Exit where
  /-- Out of the table. -/
  | leave
  /-- At row `n`. -/
  | row (n : Nat)
deriving DecidableEq, Repr

/-- What a row does once its test has matched. -/
inductive Status where
  /-- Go on as `onMatch` says. -/
  | normal
  /-- Leave the table with a match. -/
  | accept
  /-- Stop the whole run. -/
  | reject
deriving DecidableEq, Repr

/-- The test of a row at the current position; `max = none` sets no upper bound. -/
inductive Matcher (τ : Type) where
  /-- Always matches and consumes nothing. -/
  | nothing
  /-- Exactly this text. -/
  | seq (text : String)
  /-- One character of the set. -/
  | oneOf (set : String)
  /-- One character of the set, or nothing. -/
  | optOneOf (set : String)
  /-- One character from `lo` to `hi`, both included. -/
  | range (lo hi : Char)
  /-- The table `t`. -/
  | table (t : τ)
  /-- The table `t`, or nothing. -/
  | optTable (t : τ)
  /-- Between `min` and `max` characters of the set. -/
  | repeatOneOf (set : String) (min : Nat) (max : Option Nat)
  /-- Between `min` and `max` matches of the table `t`, one after another. -/
  | repeatTable (t : τ) (min : Nat) (max : Option Nat)
deriving DecidableEq, Repr

/-- One row of a table; `α` holds the actions. -/
structure Row (τ α : Type) where
  matcher : Matcher τ
  onMatch : Exit := .leave
  onFail : Exit := .leave
  status : Status := .normal
  action : Option α := none
deriving DecidableEq, Repr

/-- The rows of every table. -/
abbrev Program (τ α : Type) := τ → List (Row τ α)

end TableJson.Machine
