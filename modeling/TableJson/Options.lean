/-!
# Options — what a reader of JSON text may be told
-/

namespace TableJson

/-- How deep containers may nest unless told otherwise, in text and in binary. -/
def defaultMaxDepth : Nat := 128

/-- The settings of a reading. -/
structure Options where
  /-- How deep containers may nest. -/
  maxDepth : Nat := defaultMaxDepth
  /-- Whether an escape for half a surrogate pair reads as U+FFFD instead of failing. -/
  replaceInvalidSurrogates : Bool := false
deriving DecidableEq, Repr

end TableJson
