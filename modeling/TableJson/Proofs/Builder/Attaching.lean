import TableJson.Proofs.Event.Telling
import TableJson.Proofs.Grammar.Reporting

/-!
# Attaching — where a builder puts values

A value joins the innermost frame, or becomes the root.  Events that tell of values lead a builder to where attaching
these values leads it, whatever is open around them (`Builder.feed_of_tells`): a frame gathers what its container holds,
and the end of the container leaves the frames around it as they were.
-/

namespace TableJson

namespace Grammar

/-- A container after some named values have been put in. -/
def attachAll (values : List (String × Value)) (c : Container) : Container :=
  values.foldl (fun c p => c.attach p.1 p.2) c

theorem attachAll_array (values : List (String × Value)) (items : Array Value) :
    attachAll values (.array items) = .array (items ++ (values.map Prod.snd).toArray) := by
  unfold attachAll
  induction values generalizing items with
  | nil => simp
  | cons p values ih =>
    rw [List.foldl_cons, Container.attach, ih]
    simp

theorem attachAll_object (values : List (String × Value)) (members : Members) :
    attachAll values (.object members) = .object (values.foldl (fun ms p => Members.insert p.1 p.2 ms) members) := by
  unfold attachAll
  induction values generalizing members with
  | nil => rfl
  | cons p values ih => rw [List.foldl_cons, Container.attach, ih, List.foldl_cons]

/-- A value may be put somewhere: into a frame, or at the root. -/
def Open (b : Builder) : Prop := b.stack ≠ [] ∨ b.root = none

theorem attach_of_open {b : Builder} (h : Open b) (name : String) (v : Value) :
    b.attach name v = ((b.attach name v).1, true) := by
  obtain ⟨stack, root⟩ := b
  cases stack with
  | cons frame stack => rfl
  | nil =>
    rcases h with h | h
    · exact absurd rfl h
    · obtain rfl : root = none := h
      rfl

end Grammar

open Grammar

/-- The container of some values, put in one after another. -/
theorem toValue_attachAll_empty (kind : ContainerKind) (values : List (String × Value)) :
    (attachAll values (.empty kind)).toValue = kind.collect values := by
  cases kind with
  | array =>
    rw [Container.empty, attachAll_array, Container.toValue, ContainerKind.collect]
    simp
  | object => rw [Container.empty, attachAll_object, Container.toValue, ContainerKind.collect, Members.ofList]

namespace Builder

variable {b : Builder} {frame : Frame} {stack : List Frame} {root : Option Value}

/-- The builder after some values have been attached. -/
def attachAll (values : List (String × Value)) (b : Builder) : Builder :=
  values.foldl (fun b p => (b.attach p.1 p.2).1) b

/-- Values go to the innermost frame, if there is one. -/
theorem attachAll_frame (values : List (String × Value)) :
    attachAll values ⟨frame :: stack, root⟩ =
      ⟨{ frame with container := Grammar.attachAll values frame.container } :: stack, root⟩ := by
  induction values generalizing frame with
  | nil => rfl
  | cons p values ih => exact ih

/-- A frame takes any number of values, and the root takes one. -/
def HasRoom (values : List (String × Value)) (b : Builder) : Prop :=
  values = [] ∨ b.stack ≠ [] ∨ (b.root = none ∧ values.length = 1)

theorem HasRoom.opens {p : String × Value} {values : List (String × Value)} (h : b.HasRoom (p :: values)) : Open b := by
  rcases h with h | h | h
  · simp at h
  · exact Or.inl h
  · exact Or.inr h.1

theorem HasRoom.rest {p : String × Value} {values : List (String × Value)} (h : b.HasRoom (p :: values)) :
    (b.attach p.1 p.2).1.HasRoom values := by
  obtain ⟨stack, root⟩ := b
  cases stack with
  | cons frame stack => exact Or.inr (Or.inl (List.cons_ne_nil _ _))
  | nil =>
    rcases h with h | h | h
    · simp at h
    · exact absurd rfl h
    · exact Or.inl (List.length_eq_zero_iff.1 (Nat.succ.inj h.2))

/-- Where a value may be put, there is room for one. -/
theorem hasRoom_of_open (h : Open b) (name : String) (v : Value) : b.HasRoom [(name, v)] :=
  h.elim (fun hstack => Or.inr (Or.inl hstack)) fun hroot => Or.inr (Or.inr ⟨hroot, rfl⟩)

/-! ## Events one by one -/

theorem consumer_silent {e : Event} (he : e.isSilent = true) (b : Builder) :
    Builder.consumer e (.ok b) = (.ok b, true) := by
  cases e with
  | beginJson => rfl
  | endJson success => rfl
  | _ => simp [Event.isSilent] at he

theorem consumer_scalar (h : Open b) (name : String) (v : Scalar) :
    Builder.consumer (.scalar name v) (.ok b) = (.ok (b.attach name v.toValue).1, true) := by
  simp only [Builder.consumer, Builder.feed]
  rw [attach_of_open h]

theorem consumer_opened (h : Open b) (kind : ContainerKind) (name : String) :
    Builder.consumer (.opened kind name) (.ok b) =
      (.ok ⟨{ name, container := .empty kind } :: b.stack, b.root⟩, true) := by
  have hroom : (b.stack.isEmpty && b.root.isSome) = false := by
    rcases h with h | h <;> simp [h]
  simp only [Builder.consumer, Builder.feed, Builder.enter, hroom]
  rfl

theorem consumer_closed (h : Open ⟨stack, root⟩) (kind : ContainerKind) (name : String) :
    Builder.consumer (.closed kind name) (.ok ⟨frame :: stack, root⟩) =
      (.ok (attach frame.name frame.container.toValue ⟨stack, root⟩).1, true) := by
  simp only [Builder.consumer, Builder.feed, Builder.leave]
  rw [attach_of_open h]

/-! ## Events that tell -/

/-- Where there is room for what events tell of, the builder takes each of them, and attaches these values. -/
theorem feed_of_tells {es : List Event} {values : List (String × Value)} (h : Tells es values)
    (hroom : b.HasRoom values) : Builder.consumer.feed es (.ok b) = (.ok (b.attachAll values), true) := by
  induction h generalizing b with
  | nil => rfl
  | silent he _ ih =>
    rw [Consumer.feed, consumer_silent he]
    exact ih hroom
  | scalar name v _ ih =>
    rw [Consumer.feed, consumer_scalar hroom.opens]
    exact ih hroom.rest
  | @container kind closing name last inner es entries values _ _ ihinner ih =>
    have hopen := hroom.opens
    -- the entries join the new frame, and its end leaves the frames below as they were
    have hframe : HasRoom entries ⟨{ name, container := .empty kind } :: b.stack, b.root⟩ :=
      Or.inr (Or.inl (List.cons_ne_nil _ _))
    rw [Consumer.feed, consumer_opened hopen]
    simp only [Consumer.feed_append, ihinner hframe, attachAll_frame]
    rw [Consumer.feed, consumer_closed hopen, toValue_attachAll_empty]
    exact ih hroom.rest

end Builder

end TableJson
