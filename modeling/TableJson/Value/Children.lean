import TableJson.Value.Path

/-!
# Children — listing what a container holds

`Value.children` lists items with their index and members with their name, in order; scalars have no children.
`Children.next` hands them out one at a time, and `Children.remaining` all that are left.
-/

namespace TableJson

/-- Children still to be handed out. -/
inductive Children where
  | nothing
  /-- Items, with the index of the first. -/
  | items (index : Nat) (rest : List Value)
  | members (rest : Members)

namespace Children

/-- The next child, and the others. -/
def next : Children → Option (Component × Value) × Children
  | nothing => (none, nothing)
  | items i [] => (none, items i [])
  | items i (v :: vs) => (some (.index i, v), items (i + 1) vs)
  | members [] => (none, members [])
  | members ((name, v) :: ms) => (some (.key name, v), members ms)

/-- A lower and an upper bound on how many are left. -/
def sizeHint : Children → Nat × Option Nat
  | nothing => (0, some 0)
  | items _ vs => (vs.length, some vs.length)
  | members ms => (ms.length, some ms.length)

/-- How many are left. -/
def length (c : Children) : Nat := c.sizeHint.1

theorem length_of_next {c rest : Children} {child : Component × Value} (h : c.next = (some child, rest)) :
    c.length = rest.length + 1 := by
  unfold next at h
  split at h <;> simp only [Prod.mk.injEq, reduceCtorEq, false_and, Option.some.injEq] at h
  all_goals
    obtain ⟨-, rfl⟩ := h
    rfl

/-- What `f` makes of each child that is left, handed out one after another. -/
def collect {β : Type} (f : Component × Value → β) (c : Children) : List β :=
  match _h : c.next with
  | (none, _) => []
  | (some child, rest) => f child :: collect f rest
termination_by c.length
decreasing_by
  have := length_of_next _h
  omega

/-- All children that are left. -/
def remaining (c : Children) : List (Component × Value) := c.collect id

end Children

namespace Value

/-- The children of a value, with the steps that lead to them. -/
def children : Value → Children
  | array items => .items 0 items
  | object members => .members members
  | _ => .nothing

/-- The children of a value. -/
def childValues (v : Value) : List Value := v.children.collect Prod.snd

end Value

end TableJson
