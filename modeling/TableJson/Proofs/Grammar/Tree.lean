import TableJson.Builder
import TableJson.Proofs.Grammar.Lexeme
import TableJson.Proofs.Machine.Text

/-!
# Trees — the grammar of JSON text

```text
JSON-text = ws value ws
value     = false / null / true / number / string / object / array
object    = begin-object [ member *( value-separator member ) ] end-object
member    = string name-separator value
array     = begin-array [ value *( value-separator value ) ] end-array
```

A `Tree` is a derivation of `value`: brackets, braces, colons and commas come with the blanks around them.  Objects
and arrays have one shape; an entry of an object has a `Label`, its name and the colon, and one of an array has none.
A `Document` is a derivation of `JSON-text`.

A tree has a text, a depth, the literals and strings in it, a value, and the events that report it.  `trace` is what a
walk over its text hands over, with the offsets.  `spots` are its numbers, each with all that stands before it.
-/

namespace TableJson.Grammar

open Machine Utf8

/-! ## Derivations -/

/-- What stands before an entry of a container: in an object a name and a colon, in an array nothing. -/
inductive Label : ContainerKind → Type
  | item : Label .array
  | member (name : Quoted) (colon : Around) : Label .object

mutual

/-- A derivation of a value. -/
inductive Tree : Type
  | null
  | boolean (b : Bool)
  | number (n : Literal)
  | string (s : Quoted)
  | container (kind : ContainerKind) (opening : Around) (body : Body kind) (closing : Around)

/-- What stands between the ends of a container: nothing, or a first entry and further ones. -/
inductive Body : ContainerKind → Type
  | empty (kind : ContainerKind) : Body kind
  | entries {kind : ContainerKind} (label : Label kind) (first : Tree) (rest : Rest kind) : Body kind

/-- Further entries, each after a comma. -/
inductive Rest : ContainerKind → Type
  | nil (kind : ContainerKind) : Rest kind
  | cons {kind : ContainerKind} (comma : Around) (label : Label kind) (entry : Tree) (rest : Rest kind) : Rest kind

end

/-- A derivation of a document. -/
structure Document where
  before : Blanks
  tree : Tree
  after : Blanks

/-! ## Texts -/

/-- The character that opens a container. -/
def openChar : ContainerKind → Char
  | .object => '\x7b'
  | .array => '['

/-- The character that closes a container. -/
def closeChar : ContainerKind → Char
  | .object => '\x7d'
  | .array => ']'

/-- The words for the values that have names. -/
def nullText : List Char := ['n', 'u', 'l', 'l']

@[inherit_doc nullText]
def booleanText (b : Bool) : List Char := if b then ['t', 'r', 'u', 'e'] else ['f', 'a', 'l', 's', 'e']

/-- The characters of a label. -/
def Label.text {kind : ContainerKind} : Label kind → List Char
  | .item => []
  | .member name colon => name.text ++ colon.text ':'

mutual

/-- The characters of a value. -/
def Tree.text : Tree → List Char
  | .null => nullText
  | .boolean b => booleanText b
  | .number n => n.text
  | .string s => Quoted.text s
  | .container kind opening body closing =>
    opening.text (openChar kind) ++ (body.text ++ closing.text (closeChar kind))

@[inherit_doc Tree.text]
def Body.text {kind : ContainerKind} : Body kind → List Char
  | .empty _ => []
  | .entries label first rest => label.text ++ (first.text ++ rest.text)

@[inherit_doc Tree.text]
def Rest.text {kind : ContainerKind} : Rest kind → List Char
  | .nil _ => []
  | .cons comma label entry rest => comma.text ',' ++ (label.text ++ (entry.text ++ rest.text))

end

/-- The characters of a document. -/
def Document.text (d : Document) : List Char := d.before.chars ++ (d.tree.text ++ d.after.chars)

/-! ## What is in a tree -/

/-- The strings of a label. -/
def Label.strings {kind : ContainerKind} : Label kind → List Quoted
  | .item => []
  | .member name _ => [name]

/-- The name that an entry goes by, empty in an array. -/
def Label.name {kind : ContainerKind} : Label kind → String
  | .item => ""
  | .member name _ => Quoted.value name

mutual

/-- The largest number of containers open at once. -/
def Tree.depth : Tree → Nat
  | .container _ _ body _ => body.depth + 1
  | _ => 0

@[inherit_doc Tree.depth]
def Body.depth {kind : ContainerKind} : Body kind → Nat
  | .empty _ => 0
  | .entries _ first rest => max first.depth rest.depth

@[inherit_doc Tree.depth]
def Rest.depth {kind : ContainerKind} : Rest kind → Nat
  | .nil _ => 0
  | .cons _ _ entry rest => max entry.depth rest.depth

end

mutual

/-- The number literals of a tree. -/
def Tree.literals : Tree → List Literal
  | .number n => [n]
  | .container _ _ body _ => body.literals
  | _ => []

@[inherit_doc Tree.literals]
def Body.literals {kind : ContainerKind} : Body kind → List Literal
  | .empty _ => []
  | .entries _ first rest => first.literals ++ rest.literals

@[inherit_doc Tree.literals]
def Rest.literals {kind : ContainerKind} : Rest kind → List Literal
  | .nil _ => []
  | .cons _ _ entry rest => entry.literals ++ rest.literals

end

mutual

/-- The strings and member names of a tree. -/
def Tree.strings : Tree → List Quoted
  | .string s => [s]
  | .container _ _ body _ => body.strings
  | _ => []

@[inherit_doc Tree.strings]
def Body.strings {kind : ContainerKind} : Body kind → List Quoted
  | .empty _ => []
  | .entries label first rest => label.strings ++ (first.strings ++ rest.strings)

@[inherit_doc Tree.strings]
def Rest.strings {kind : ContainerKind} : Rest kind → List Quoted
  | .nil _ => []
  | .cons _ label entry rest => label.strings ++ (entry.strings ++ rest.strings)

end

/-! ## What a tree denotes -/

mutual

/-- The value that a tree denotes.  Of several members with one name the last stays. -/
def Tree.value : Tree → Value
  | .null => .null
  | .boolean b => .boolean b
  | .number n => n.scalar.toValue
  | .string s => .string (Quoted.value s)
  | .container .array _ body _ => .array (body.values.map Prod.snd)
  | .container .object _ body _ => .object (Members.ofList body.values)

/-- The entries with their names, in order. -/
def Body.values {kind : ContainerKind} : Body kind → List (String × Value)
  | .empty _ => []
  | .entries label first rest => (label.name, first.value) :: rest.values

@[inherit_doc Body.values]
def Rest.values {kind : ContainerKind} : Rest kind → List (String × Value)
  | .nil _ => []
  | .cons _ label entry rest => (label.name, entry.value) :: rest.values

end

mutual

/-- The events that report a value of the given name. -/
def Tree.events : Tree → String → List Event
  | .null, name => [.scalar name .null]
  | .boolean b, name => [.scalar name (.boolean b)]
  | .number n, name => [.scalar name n.scalar]
  | .string s, name => [.scalar name (.string (Quoted.value s))]
  | .container kind _ body _, name => .opened kind name :: (body.events ++ [.closed kind name])

/-- The events that report the entries of a container. -/
def Body.events {kind : ContainerKind} : Body kind → List Event
  | .empty _ => []
  | .entries label first rest => first.events label.name ++ rest.events

@[inherit_doc Body.events]
def Rest.events {kind : ContainerKind} : Rest kind → List Event
  | .nil _ => []
  | .cons _ label entry rest => entry.events label.name ++ rest.events

end

/-! ## What a walk hands over -/

/-- The action at the start of a container. -/
def Action.opens : ContainerKind → Action
  | .object => .beginObject
  | .array => .beginArray

/-- The action at the end of a container. -/
def Action.closes : ContainerKind → Action
  | .object => .endObject
  | .array => .endArray

/-- The actions of a number. -/
def Literal.trace (n : Literal) (o : Nat) : List (Action × Match) :=
  [(.numberSign, ⟨o, encode n.sign⟩),
    (.numberIntegral, ⟨o + size n.sign, encode n.integral⟩),
    (.numberFrac, ⟨o + size (n.sign ++ n.integral), encode n.frac⟩),
    (.numberExp, ⟨o + size (n.sign ++ n.integral ++ n.frac), encode n.exp⟩)]

/-- The actions of an entry, where `inner` are those of its value. -/
def Label.trace {kind : ContainerKind} (label : Label kind) (o : Nat) (entry : List Char)
    (inner : List (Action × Match)) : List (Action × Match) :=
  match label with
  | .item => inner
  | .member name colon =>
    (.beginMember, ⟨o, encode name.text⟩) ::
      (inner ++ [(.endMember, ⟨o + size (name.text ++ colon.text ':'), encode entry⟩)])

mutual

/-- The actions of a value whose text starts at the offset `o`.  Where a number might stand, the walk looks for its
sign, and so it does before strings and containers, and before the end of an empty array. -/
def Tree.trace : Tree → Nat → List (Action × Match)
  | .null, o => [(.nullValue, ⟨o, encode nullText⟩)]
  | .boolean b, o => [(if b then .trueValue else .falseValue, ⟨o, encode (booleanText b)⟩)]
  | .number n, o => n.trace o ++ [(.numberValue, ⟨o, encode n.text⟩)]
  | .string s, o => [(.numberSign, ⟨o, []⟩), (.stringValue, ⟨o, encode (Quoted.text s)⟩)]
  | .container kind opening body closing, o =>
    (.numberSign, ⟨o, []⟩) :: (Action.opens kind, ⟨o, encode (opening.text (openChar kind))⟩) ::
      (body.trace (o + size (opening.text (openChar kind))) ++
        [(Action.closes kind,
          ⟨o + size (opening.text (openChar kind) ++ body.text), encode (closing.text (closeChar kind))⟩)])

/-- The actions of the entries of a container. -/
def Body.trace {kind : ContainerKind} : Body kind → Nat → List (Action × Match)
  | .empty .array, o => [(.numberSign, ⟨o, []⟩)]
  | .empty .object, _ => []
  | .entries label first rest, o =>
    label.trace o first.text (first.trace (o + size label.text)) ++ rest.trace (o + size (label.text ++ first.text))

@[inherit_doc Body.trace]
def Rest.trace {kind : ContainerKind} : Rest kind → Nat → List (Action × Match)
  | .nil _, _ => []
  | .cons comma label entry rest, o =>
    label.trace (o + size (comma.text ',')) entry.text (entry.trace (o + size (comma.text ',' ++ label.text))) ++
      rest.trace (o + size (comma.text ',' ++ label.text ++ entry.text))

end

/-- The actions of a document. -/
def Document.trace (d : Document) : List (Action × Match) :=
  (.beginJson, ⟨0, []⟩) :: (d.tree.trace (size d.before.chars) ++ [(.successEndJson, ⟨size d.text, []⟩)])

/-! ## Numbers and what stands before them -/

/-- What stands before a place in a document: its text, the events that report it, the largest number of containers
open in it at once, the number of those open at its end, and the literals and strings in it. -/
structure Front where
  text : List Char := []
  events : List Event := []
  depth : Nat := 0
  opened : Nat := 0
  literals : List Literal := []
  strings : List Quoted := []

/-- One after the other. -/
def Front.append (f g : Front) : Front where
  text := f.text ++ g.text
  events := f.events ++ g.events
  depth := max f.depth (f.opened + g.depth)
  opened := f.opened + g.opened
  literals := f.literals ++ g.literals
  strings := f.strings ++ g.strings

instance : Append Front := ⟨Front.append⟩

/-- The start of a container. -/
def Around.front (opening : Around) (kind : ContainerKind) (name : String) : Front where
  text := opening.text (openChar kind)
  events := [.opened kind name]
  depth := 1
  opened := 1

@[inherit_doc Front]
def Label.front {kind : ContainerKind} (label : Label kind) : Front := { text := label.text, strings := label.strings }

/-- A whole value. -/
def Tree.front (t : Tree) (name : String) : Front where
  text := t.text
  events := t.events name
  depth := t.depth
  literals := t.literals
  strings := t.strings

/-- A number in a document, with the name that it goes by and what stands before it. -/
structure Spot where
  front : Front := {}
  name : String
  literal : Literal

/-- The spot with more before it. -/
def Spot.after (f : Front) (spot : Spot) : Spot := { spot with front := f ++ spot.front }

/-- The numbers of an entry, where `inner` are those of its value, and of what follows it. -/
def Label.spots {kind : ContainerKind} (label : Label kind) (entry : Front) (inner rest : List Spot) : List Spot :=
  inner.map (.after label.front) ++ rest.map (.after (label.front ++ entry))

mutual

/-- The numbers of a value of the given name. -/
def Tree.spots : Tree → String → List Spot
  | .number n, name => [{ name, literal := n }]
  | .container kind opening body _, name => body.spots.map (.after (opening.front kind name))
  | _, _ => []

@[inherit_doc Tree.spots]
def Body.spots {kind : ContainerKind} : Body kind → List Spot
  | .empty _ => []
  | .entries label first rest => label.spots (first.front label.name) (first.spots label.name) rest.spots

@[inherit_doc Tree.spots]
def Rest.spots {kind : ContainerKind} : Rest kind → List Spot
  | .nil _ => []
  | .cons comma label entry rest =>
    (label.spots (entry.front label.name) (entry.spots label.name) rest.spots).map (.after { text := comma.text ',' })

end

/-- The numbers of a document. -/
def Document.spots (d : Document) : List Spot :=
  (d.tree.spots "").map (.after { text := d.before.chars, events := [.beginJson] })

/-! ## Trees that differ in blanks -/

/-- The characters that are not blank. -/
def bare (cs : List Char) : List Char := cs.filter fun c => !isBlank c

theorem bare_append (cs ds : List Char) : bare (cs ++ ds) = bare cs ++ bare ds := List.filter_append cs ds

theorem bare_blanks (b : Blanks) : bare b.chars = [] := by
  rw [bare, List.filter_eq_nil_iff]
  intro c hc
  rw [b.blank c hc]
  decide

theorem bare_around (a : Around) {c : Char} (hc : isBlank c = false) : bare (a.text c) = [c] := by
  have hchar : bare (c :: a.after.chars) = c :: bare a.after.chars := List.filter_cons_of_pos (by rw [hc]; rfl)
  rw [Around.text, bare_append, hchar, bare_blanks, bare_blanks, List.nil_append]

/-- The spot without the blanks before it. -/
def Front.bare (f : Front) : Front := { f with text := Grammar.bare f.text }

@[inherit_doc Front.bare]
def Spot.bare (spot : Spot) : Spot := { spot with front := spot.front.bare }

theorem Front.bare_append (f g : Front) : (f ++ g).bare = f.bare ++ g.bare := by
  have htext : Grammar.bare (f.text ++ g.text) = Grammar.bare f.text ++ Grammar.bare g.text := Grammar.bare_append ..
  change Front.mk (Grammar.bare (f.text ++ g.text)) _ _ _ _ _ = _
  rw [htext]
  rfl

theorem map_bare_after (f : Front) (spots : List Spot) :
    (spots.map (.after f)).map Spot.bare = (spots.map Spot.bare).map (.after f.bare) := by
  rw [List.map_map, List.map_map]
  refine List.map_congr_left fun spot _ => ?_
  simp only [Function.comp, Spot.after, Spot.bare, Front.bare_append]

/-- Labels of one name. -/
structure Label.Alike {kind : ContainerKind} (l m : Label kind) : Prop where
  name : l.name = m.name
  strings : l.strings = m.strings
  bare : bare l.text = bare m.text

/-- Trees of one value and the same events, with the same literals and strings, equally deep, and of one text but for
blanks. -/
structure Tree.Alike (t u : Tree) : Prop where
  depth : t.depth = u.depth
  literals : t.literals = u.literals
  strings : t.strings = u.strings
  value : t.value = u.value
  events : t.events = u.events
  bare : bare t.text = bare u.text
  spots (name : String) : (t.spots name).map Spot.bare = (u.spots name).map Spot.bare

@[inherit_doc Tree.Alike]
structure Body.Alike {kind : ContainerKind} (b c : Body kind) : Prop where
  depth : b.depth = c.depth
  literals : b.literals = c.literals
  strings : b.strings = c.strings
  values : b.values = c.values
  events : b.events = c.events
  bare : bare b.text = bare c.text
  spots : b.spots.map Spot.bare = c.spots.map Spot.bare

@[inherit_doc Tree.Alike]
structure Rest.Alike {kind : ContainerKind} (r s : Rest kind) : Prop where
  depth : r.depth = s.depth
  literals : r.literals = s.literals
  strings : r.strings = s.strings
  values : r.values = s.values
  events : r.events = s.events
  bare : bare r.text = bare s.text
  spots : r.spots.map Spot.bare = s.spots.map Spot.bare

section Alike

variable {kind : ContainerKind} {t u : Tree} {l m : Label kind} {b c : Body kind} {r s : Rest kind}

theorem Tree.Alike.refl (t : Tree) : t.Alike t := ⟨rfl, rfl, rfl, rfl, rfl, rfl, fun _ => rfl⟩

theorem Tree.Alike.front (h : t.Alike u) (name : String) : (t.front name).bare = (u.front name).bare := by
  simp only [Tree.front, Front.bare, h.bare, h.events, h.depth, h.literals, h.strings]

theorem Label.Alike.front (h : l.Alike m) : l.front.bare = m.front.bare := by
  simp only [Label.front, Front.bare, h.bare, h.strings]

/-- The numbers of entries that are alike, and of what follows them. -/
theorem Label.Alike.spots (h : l.Alike m) {f g : Front} (hentry : f.bare = g.bare) {xs ys zs ws : List Spot}
    (hinner : xs.map Spot.bare = ys.map Spot.bare) (hrest : zs.map Spot.bare = ws.map Spot.bare) :
    (l.spots f xs zs).map Spot.bare = (m.spots g ys ws).map Spot.bare := by
  rw [Label.spots, Label.spots, List.map_append, List.map_append, map_bare_after, map_bare_after, map_bare_after,
    map_bare_after, Front.bare_append, Front.bare_append, h.front, hentry, hinner, hrest]

theorem not_blank_open (kind : ContainerKind) : isBlank (openChar kind) = false := by cases kind <;> rfl

theorem not_blank_close (kind : ContainerKind) : isBlank (closeChar kind) = false := by cases kind <;> rfl

theorem Body.Alike.container (h : b.Alike c) (opening opening' closing closing' : Around) :
    (Tree.container kind opening b closing).Alike (.container kind opening' c closing') := by
  have hfront (name : String) : (opening.front kind name).bare = (opening'.front kind name).bare := by
    simp only [Around.front, Front.bare, bare_around _ (not_blank_open kind)]
  refine ⟨?_, ?_, ?_, ?_, ?_, ?_, ?_⟩
  · simp only [Tree.depth, h.depth]
  · simp only [Tree.literals, h.literals]
  · simp only [Tree.strings, h.strings]
  · cases kind <;> simp only [Tree.value, h.values]
  · funext name
    simp only [Tree.events, h.events]
  · simp only [Tree.text, bare_append, bare_around _ (not_blank_open kind), bare_around _ (not_blank_close kind), h.bare]
  · intro name
    rw [Tree.spots, Tree.spots, map_bare_after, map_bare_after, hfront, h.spots]

theorem Body.Alike.entries (hl : l.Alike m) (ht : t.Alike u) (hr : r.Alike s) :
    (Body.entries l t r).Alike (.entries m u s) := by
  refine ⟨?_, ?_, ?_, ?_, ?_, ?_, ?_⟩
  · simp only [Body.depth, ht.depth, hr.depth]
  · simp only [Body.literals, ht.literals, hr.literals]
  · simp only [Body.strings, hl.strings, ht.strings, hr.strings]
  · simp only [Body.values, hl.name, ht.value, hr.values]
  · simp only [Body.events, hl.name, ht.events, hr.events]
  · simp only [Body.text, bare_append, hl.bare, ht.bare, hr.bare]
  · rw [Body.spots, Body.spots, hl.name]
    exact hl.spots (ht.front m.name) (ht.spots m.name) hr.spots

theorem Rest.Alike.cons (hl : l.Alike m) (ht : t.Alike u) (hr : r.Alike s) (comma comma' : Around) :
    (Rest.cons comma l t r).Alike (.cons comma' m u s) := by
  have hcomma : (Front.mk (comma.text ',') [] 0 0 [] []).bare = (Front.mk (comma'.text ',') [] 0 0 [] []).bare := by
    simp only [Front.bare, bare_around _ (show isBlank ',' = false from rfl)]
  refine ⟨?_, ?_, ?_, ?_, ?_, ?_, ?_⟩
  · simp only [Rest.depth, ht.depth, hr.depth]
  · simp only [Rest.literals, ht.literals, hr.literals]
  · simp only [Rest.strings, hl.strings, ht.strings, hr.strings]
  · simp only [Rest.values, hl.name, ht.value, hr.values]
  · simp only [Rest.events, hl.name, ht.events, hr.events]
  · simp only [Rest.text, bare_append, bare_around _ (show isBlank ',' = false from rfl), hl.bare, ht.bare, hr.bare]
  · rw [Rest.spots, Rest.spots, hl.name, map_bare_after, map_bare_after, hcomma,
      hl.spots (ht.front m.name) (ht.spots m.name) hr.spots]

end Alike

end TableJson.Grammar
