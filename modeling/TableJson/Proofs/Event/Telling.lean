import TableJson.Builder
import TableJson.Proofs.Event.Outline
import TableJson.Proofs.Value.Norm

/-!
# Telling — which values events tell of

Events come in any order, and most orders are not those of a document.  `Tells es values` says what they tell where it
makes sense: named values, one after another.  An end of a container ends the one that was opened last, whatever kind
and name it gives; the start and the end of a document tell of nothing.

* `Value.events`: the events of a value in document order.  They tell of it (`tells_events`), and of members in any
  order, with repetitions, they tell the object that these gather to (`Value.gathered`).
* `Completes es v`: `v` is the first value that is told of at top level.
-/

namespace TableJson

/-- The value of a container from its named values; an array has no use for the names. -/
def ContainerKind.collect (kind : ContainerKind) (values : List (String × Value)) : Value :=
  match kind with
  | .object => .object (Members.ofList values)
  | .array => .array (values.map Prod.snd)

/-- The start and the end of a document. -/
def Event.isSilent : Event → Bool
  | .beginJson | .endJson _ => true
  | _ => false

/-- The values that events tell of one after another, with their names. -/
inductive Tells : List Event → List (String × Value) → Prop
  | nil : Tells [] []
  | silent {e : Event} {es : List Event} {values : List (String × Value)} (he : e.isSilent = true)
    (h : Tells es values) : Tells (e :: es) values
  | scalar (name : String) (v : Scalar) {es : List Event} {values : List (String × Value)} (h : Tells es values) :
    Tells (.scalar name v :: es) ((name, v.toValue) :: values)
  | container (kind closing : ContainerKind) (name last : String) {inner es : List Event}
    {entries values : List (String × Value)} (hinner : Tells inner entries) (h : Tells es values) :
    Tells (.opened kind name :: (inner ++ .closed closing last :: es)) ((name, kind.collect entries) :: values)

namespace Tells

variable {es fs : List Event} {values others : List (String × Value)}

theorem append (h : Tells es values) (h' : Tells fs others) : Tells (es ++ fs) (values ++ others) := by
  induction h with
  | nil => exact h'
  | silent he _ ih => exact .silent he ih
  | scalar name v _ ih => exact .scalar name v ih
  | container kind closing name last hinner _ _ ih =>
    rw [List.cons_append, List.append_assoc]
    exact .container kind closing name last hinner ih

theorem concat_silent (h : Tells es values) {e : Event} (he : e.isSilent = true) : Tells (es ++ [e]) values := by
  have := h.append (.silent he .nil)
  rwa [List.append_nil] at this

/-- One container. -/
theorem single (kind closing : ContainerKind) (name last : String) (h : Tells es values) :
    Tells (.opened kind name :: (es ++ [.closed closing last])) [(name, kind.collect values)] :=
  .container kind closing name last h .nil

end Tells

/-! ## The events of a value -/

namespace Value

mutual

/-- The events of a value of the given name, in document order. -/
def events (name : String) : Value → List Event
  | null => [.scalar name .null]
  | boolean b => [.scalar name (.boolean b)]
  | integer n => [.scalar name (.integer n)]
  | uinteger n => [.scalar name (.uinteger n)]
  | real x => [.scalar name (.real x)]
  | string s => [.scalar name (.string s)]
  | array items => .opened .array name :: (itemEvents items ++ [.closed .array name])
  | object members => .opened .object name :: (memberEvents members ++ [.closed .object name])

/-- The events of items, which have no names. -/
def itemEvents : List Value → List Event
  | [] => []
  | v :: vs => events "" v ++ itemEvents vs

/-- The events of members. -/
def memberEvents : List (String × Value) → List Event
  | [] => []
  | (name, v) :: ms => events name v ++ memberEvents ms

end

mutual

/-- The value with the members of every object inserted one after another. -/
def gathered : Value → Value
  | .array items => .array (gatheredItems items)
  | .object members => .object (Members.ofList (gatheredMembers members))
  | v => v

@[inherit_doc gathered]
def gatheredItems : List Value → List Value
  | [] => []
  | v :: vs => gathered v :: gatheredItems vs

@[inherit_doc gathered]
def gatheredMembers : List (String × Value) → List (String × Value)
  | [] => []
  | (name, v) :: ms => (name, gathered v) :: gatheredMembers ms

end

mutual

/-- Nothing changes where members are in order. -/
theorem gathered_of_wellFormed : ∀ {v : Value}, v.WellFormed → v.gathered = v
  | .array items, h => by rw [gathered, gatheredItems_of_wellFormed h]
  | .object members, h => by
    rw [gathered, gatheredMembers_of_wellFormed h.2, Members.ofList_of_ordered h.1]
  | .null, _ | .boolean _, _ | .integer _, _ | .uinteger _, _ | .real _, _ | .string _, _ => rfl

theorem gatheredItems_of_wellFormed : ∀ {items : List Value}, WellFormedItems items → gatheredItems items = items
  | [], _ => rfl
  | v :: vs, h => by rw [gatheredItems, gathered_of_wellFormed h.1, gatheredItems_of_wellFormed h.2]

theorem gatheredMembers_of_wellFormed : ∀ {members : List (String × Value)}, WellFormedMembers members →
    gatheredMembers members = members
  | [], _ => rfl
  | (name, v) :: ms, h => by rw [gatheredMembers, gathered_of_wellFormed h.1, gatheredMembers_of_wellFormed h.2]

end

mutual

/-- The events of a value tell of it, with members in whatever order it has them. -/
theorem tells_events : ∀ (name : String) (v : Value), Tells (v.events name) [(name, v.gathered)]
  | name, .null => .scalar name .null .nil
  | name, .boolean b => .scalar name (.boolean b) .nil
  | name, .integer n => .scalar name (.integer n) .nil
  | name, .uinteger n => .scalar name (.uinteger n) .nil
  | name, .real x => .scalar name (.real x) .nil
  | name, .string s => .scalar name (.string s) .nil
  | name, .array items => by
    have h := Tells.single .array .array name name (tells_itemEvents items)
    rwa [ContainerKind.collect, List.map_map, Function.comp_def, List.map_id'] at h
  | name, .object members => Tells.single .object .object name name (tells_memberEvents members)

theorem tells_itemEvents : ∀ items : List Value,
    Tells (itemEvents items) ((gatheredItems items).map fun v => ("", v))
  | [] => .nil
  | v :: vs => (tells_events "" v).append (tells_itemEvents vs)

theorem tells_memberEvents : ∀ members : List (String × Value),
    Tells (memberEvents members) (gatheredMembers members)
  | [] => .nil
  | (name, v) :: ms => (tells_events name v).append (tells_memberEvents ms)

end

end Value

/-! ## The first value -/

/-- No value starts with any of the events. -/
def Idle (es : List Event) : Prop := ∀ e ∈ es, e.starts? = none

/-- The first value that is told of at top level: none starts before it, and it comes to its end. -/
def Completes (es : List Event) (v : Value) : Prop :=
  ∃ (name : String) (before telling after : List Event),
    es = before ++ (telling ++ after) ∧ Idle before ∧ Tells telling [(name, v)]

theorem idle_concat {es : List Event} {e : Event} (h : Idle es) (he : e.starts? = none) : Idle (es ++ [e]) := by
  intro f hf
  rcases List.mem_append.1 hf with hf | hf
  · exact h f hf
  · rw [List.mem_singleton.1 hf]
    exact he

theorem Completes.append {es : List Event} {v : Value} (h : Completes es v) (fs : List Event) :
    Completes (es ++ fs) v := by
  obtain ⟨name, before, telling, after, rfl, hidle, htells⟩ := h
  exact ⟨name, before, telling, after ++ fs, by simp only [List.append_assoc], hidle, htells⟩

end TableJson
