import TableJson.Debug.Quoted
import TableJson.Machine.Table
import TableJson.Number.Format

/-!
# Tables for developers — the terms of rows

A nested table is shown by its number of rows only, so that tables may refer to themselves.  The exit of a table and
a missing upper bound are shown as the largest number of 64 bits.
-/

namespace TableJson.Debug

open Machine

/-- The number that stands for what has no number. -/
def unlimited : Nat := 2 ^ (64 : Nat) - 1

/-- Where a row goes on. -/
def ofExit : Exit → Term
  | .leave => .ofNat unlimited
  | .row n => .ofNat n

/-- An upper bound. -/
def ofMax (max : Option Nat) : Term := .ofNat (max.getD unlimited)

/-- A nested table. -/
def ofNested (rows : Nat) : Term := .atom ('[' :: (Nat.toDigits 10 rows ++ " rows]".toList))

section Rows

variable {τ : Type} (rowsOf : τ → Nat)

/-- A nested table with the bounds of its repetition, always on one line. -/
def ofRepeat (t : τ) (min : Nat) (max : Option Nat) : Term :=
  .atom (Term.call "RptTr".toList [ofNested (rowsOf t), .ofNat min, ofMax max]).inline

/-- A nested table under a name, always on one line. -/
def ofTable (name : String) (t : τ) : Term := .atom (Term.apply name (ofNested (rowsOf t))).inline

/-- The test of a row; `rowsOf` counts the rows of the tables. -/
def ofMatcher : Matcher τ → Term
  | .nothing => .ofString "Nothing"
  | .seq text => .apply "Seq" (.ofText text)
  | .oneOf set => .apply "OneOf" (.ofText set)
  | .optOneOf set => .apply "OptOneOf" (.ofText set)
  | .range lo hi => .call "Range".toList [.ofChar lo, .ofChar hi]
  | .table t => ofTable rowsOf "Tr" t
  | .optTable t => ofTable rowsOf "OptTr" t
  | .repeatOneOf set min max =>
    .ofFields "RptOneOf" [("set", .ofText set), ("min", .ofNat min), ("max", ofMax max)]
  | .repeatTable t min max => ofRepeat rowsOf t min max

/-- What a row does after a match. -/
def ofStatus : Status → Term
  | .normal => .ofString "Normal"
  | .accept => .ofString "Accept"
  | .reject => .ofString "Reject"

/-- A row whose actions are numbers. -/
def ofRow (row : Row τ Nat) : Term :=
  .ofFields "Transition" [
    ("on_match", ofExit row.onMatch),
    ("on_fail", ofExit row.onFail),
    ("matcher", ofMatcher rowsOf row.matcher),
    ("status", ofStatus row.status),
    ("action", .ofOption (row.action.map .ofNat))]

end Rows

end TableJson.Debug
