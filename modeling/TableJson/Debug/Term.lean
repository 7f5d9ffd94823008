/-!
# Terms — data laid out for developers

A term is the shape of some data: an atom, a name with arguments, a record, a list or a map.  It is laid out on one
line, or with every part on a line of its own, indented by four spaces and followed by a comma.
-/

namespace TableJson.Debug

/-- The shape of some data. -/
inductive Term where
  | atom (text : List Char)
  | call (name : List Char) (args : List Term)
  /-- A name with fields; `more` says that not all of them are shown. -/
  | record (name : List Char) (fields : List (String × Term)) (more : Bool)
  | list (items : List Term)
  | map (entries : List (Term × Term))

namespace Term

/-- An atom. -/
def ofString (s : String) : Term := atom s.toList

/-- Between parts on one line. -/
def separator (follows : Bool) : List Char := if follows then [',', ' '] else []

mutual

/-- A term on one line. -/
def inline : Term → List Char
  | atom text => text
  | call name args => name ++ '(' :: (inlineItems false args ++ [')'])
  | record name fields more =>
    name ++ [' ', '\x7b', ' '] ++ inlineFields false fields
      ++ (if more then [',', ' ', '.', '.'] else []) ++ [' ', '\x7d']
  | list items => '[' :: (inlineItems false items ++ [']'])
  | map entries => '\x7b' :: (inlineEntries false entries ++ ['\x7d'])

/-- Parts on one line. -/
def inlineItems (follows : Bool) : List Term → List Char
  | [] => []
  | t :: ts => separator follows ++ (inline t ++ inlineItems true ts)

/-- Fields on one line. -/
def inlineFields (follows : Bool) : List (String × Term) → List Char
  | [] => []
  | (name, t) :: fs => separator follows ++ (name.toList ++ ':' :: ' ' :: (inline t ++ inlineFields true fs))

/-- Entries on one line. -/
def inlineEntries (follows : Bool) : List (Term × Term) → List Char
  | [] => []
  | (k, t) :: es => separator follows ++ (inline k ++ ':' :: ' ' :: (inline t ++ inlineEntries true es))

end

/-- The start of a line. -/
def margin (depth : Nat) : List Char := List.replicate (4 * depth) ' '

mutual

/-- A term on lines of its own, `depth` levels deep. -/
def expanded (depth : Nat) : Term → List Char
  | atom text => text
  | call name [] => name
  | call name args => name ++ '(' :: '\n' :: (expandedItems (depth + 1) args ++ margin depth ++ [')'])
  | record name fields more =>
    name ++ ' ' :: '\x7b' :: '\n' ::
      (expandedFields (depth + 1) fields ++ (if more then margin (depth + 1) ++ ['.', '.', '\n'] else [])
        ++ margin depth ++ ['\x7d'])
  | list [] => ['[', ']']
  | list items => '[' :: '\n' :: (expandedItems (depth + 1) items ++ margin depth ++ [']'])
  | map [] => ['\x7b', '\x7d']
  | map entries => '\x7b' :: '\n' :: (expandedEntries (depth + 1) entries ++ margin depth ++ ['\x7d'])

/-- Parts on lines of their own. -/
def expandedItems (depth : Nat) : List Term → List Char
  | [] => []
  | t :: ts => margin depth ++ (expanded depth t ++ ',' :: '\n' :: expandedItems depth ts)

/-- Fields on lines of their own. -/
def expandedFields (depth : Nat) : List (String × Term) → List Char
  | [] => []
  | (name, t) :: fs =>
    margin depth ++ (name.toList ++ ':' :: ' ' :: (expanded depth t ++ ',' :: '\n' :: expandedFields depth fs))

/-- Entries on lines of their own. -/
def expandedEntries (depth : Nat) : List (Term × Term) → List Char
  | [] => []
  | (k, t) :: es =>
    margin depth ++ (expanded depth k ++ ':' :: ' ' :: (expanded depth t ++ ',' :: '\n' :: expandedEntries depth es))

end

end Term

end TableJson.Debug
