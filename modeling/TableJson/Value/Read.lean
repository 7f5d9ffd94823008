import TableJson.Builder
import TableJson.Grammar.Read

/-!
# Values from text
-/

namespace TableJson.Value

/-- The value that a JSON document stands for. -/
def read (options : Options) (text : String) : Except ParseError Value :=
  let reading := Grammar.read Builder.consumer options text (.ok {})
  match reading.result, reading.consumer with
  | .ok (), .ok b => .ok b.finish
  | .ok (), .error _ => .ok null
  | .error e, _ => .error e

end TableJson.Value
