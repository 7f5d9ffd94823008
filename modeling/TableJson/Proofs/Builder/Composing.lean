import TableJson.Proofs.Builder.Attaching
import TableJson.Proofs.Value.Bracketing

/-!
# Composing — the builder puts in place what it is told

The events of a value come to the same as the value, wherever one may be put (`takes_events`): to the end of the open
array, under its name into the open object, or to the root (`Attached`).
-/

namespace TableJson

open Grammar

/-! ## What a consumer that takes everything has answered -/

theorem Consumer.answers_of_feed {σ : Type} {consume : Consumer σ} {es : List Event} {c c' : σ}
    (h : consume.feed es c = (c', true)) :
    consume.answers es c = es.map (fun e => (e, true)) ∧ consume.after es c = c' := by
  induction es generalizing c with
  | nil => exact ⟨rfl, congrArg Prod.fst h⟩
  | cons e es ih =>
    rw [feed] at h
    rcases hstep : consume e c with ⟨mid, _ | _⟩
    · simp [hstep] at h
    · simp only [hstep] at h
      obtain ⟨hanswers, hafter⟩ := ih h
      rw [after, List.foldl_cons, answers, hstep, hanswers]
      exact ⟨rfl, hafter⟩

namespace Builder

variable {b : Builder}

/-! ## The events of a value -/

/-- Where a value goes: to the end of the innermost array, under its name into the innermost object, or to the root. -/
inductive Attached (name : String) (v : Value) : Builder → Builder → Prop
  | item (frame : String) (items : Array Value) (stack : List Frame) (root : Option Value) :
    Attached name v ⟨⟨frame, .array items⟩ :: stack, root⟩ ⟨⟨frame, .array (items.push v)⟩ :: stack, root⟩
  | member (frame : String) (members : Members) (stack : List Frame) (root : Option Value) :
    Attached name v ⟨⟨frame, .object members⟩ :: stack, root⟩
      ⟨⟨frame, .object (members.insert name v)⟩ :: stack, root⟩
  | root : Attached name v ⟨[], none⟩ ⟨[], some v⟩

/-- What events come to that are those of a value: each is taken, and the value is in its place. -/
def TakesAs (es : List Event) (name : String) (v : Value) (b : Builder) : Prop :=
  ∃ b', Attached name v b b' ∧ b.attach name v = (b', true) ∧
    Builder.consumer.answers es (.ok b) = es.map (fun e => (e, true)) ∧ Builder.consumer.after es (.ok b) = .ok b'

theorem attached (h : Open b) (name : String) (v : Value) : Attached name v b (b.attach name v).1 := by
  obtain ⟨stack, root⟩ := b
  rcases stack with _ | ⟨⟨frame, members | items⟩, stack⟩
  · rcases h with h | h
    · exact absurd rfl h
    · obtain rfl : root = none := h
      exact .root
  · exact .member frame members stack root
  · exact .item frame items stack root

theorem takesAs_of_tells {es : List Event} {name : String} {v : Value} (h : Tells es [(name, v)]) (hopen : Open b) :
    b.TakesAs es name v := by
  obtain ⟨hanswers, hafter⟩ := Consumer.answers_of_feed (feed_of_tells h (hasRoom_of_open hopen name v))
  exact ⟨_, attached hopen name v, attach_of_open hopen name v, hanswers, hafter⟩

/-- What a new builder makes of events that it takes. -/
def Finishes (es : List Event) (v : Value) : Prop :=
  ∃ b, Builder.consumer.answers es (.ok {}) = es.map (fun e => (e, true)) ∧
    Builder.consumer.after es (.ok {}) = .ok b ∧ b.finish = v

theorem finishes_of_tells {es : List Event} {name : String} {v : Value} (h : Tells es [(name, v)]) : Finishes es v := by
  obtain ⟨b, hattached, -, hanswers, hafter⟩ := takesAs_of_tells h (Or.inr rfl : Open {})
  cases hattached
  exact ⟨_, hanswers, hafter, rfl⟩

/-- An object is gathered from members whose values are in order. -/
theorem tells_object (name : String) {members : List (String × Value)} (h : ∀ p ∈ members, p.2.WellFormed) :
    Tells ((Value.object members).events name) [(name, .object (Members.ofList members))] := by
  have hmembers : Value.WellFormedMembers members := by
    rw [Value.wellFormedMembers_iff, Value.wellFormedItems_iff_forall]
    exact List.forall_mem_map.2 h
  have htells := Value.tells_events name (.object members)
  rwa [Value.gathered, Value.gatheredMembers_of_wellFormed hmembers] at htells

/-- Where a value may be put, its events are all taken, and put it there; from a new builder they make the value.  Of
members in any order, with repetitions, they make the object that inserting these one after another makes. -/
theorem takes_events {b : Builder} (hopen : b.stack ≠ [] ∨ b.root = none) (name : String) (v : OrderedValue) :
    b.TakesAs (v.val.events name) name v.val ∧ Finishes (v.val.events name) v.val ∧
      ∀ members : List (String × OrderedValue),
        b.TakesAs ((Value.object (members.map fun p => (p.1, p.2.val))).events name) name
            (.object (members.foldl (fun ms p => Members.insert p.1 p.2.val ms) [])) ∧
          Finishes ((Value.object (members.map fun p => (p.1, p.2.val))).events name)
            (.object (members.foldl (fun ms p => Members.insert p.1 p.2.val ms) [])) := by
  have htells := Value.tells_events name v.val
  rw [Value.gathered_of_wellFormed v.wellFormed] at htells
  refine ⟨takesAs_of_tells htells hopen, finishes_of_tells htells, fun members => ?_⟩
  have hmembers : ∀ p ∈ members.map fun p => (p.1, p.2.val), p.2.WellFormed :=
    List.forall_mem_map.2 fun p _ => p.2.wellFormed
  have hobject := tells_object name hmembers
  rw [Members.ofList, List.foldl_map] at hobject
  exact ⟨takesAs_of_tells hobject hopen, finishes_of_tells hobject⟩

theorem takes_events_nested :
    (⟨[⟨"list", .array #[.null]⟩], none⟩ : Builder).TakesAs
        ((Value.object [("a", .array [.boolean true]), ("b", .null)]).events "x") "x"
        (.object [("a", .array [.boolean true]), ("b", .null)]) ∧
      Finishes ((Value.object [("b", .array []), ("a", .null), ("b", .boolean true)]).events "x")
        (.object [("a", .null), ("b", .boolean true)]) := by
  have hordered : Members.Ordered [("a", .array [.boolean true]), ("b", .null)] := by
    refine ⟨fun p hp => ?_, fun p hp => absurd hp List.not_mem_nil, trivial⟩
    obtain rfl := List.mem_singleton.1 hp
    decide
  have hwf : (Value.object [("a", .array [.boolean true]), ("b", .null)]).WellFormed :=
    ⟨hordered, by simp [Value.WellFormedMembers, Value.WellFormedItems, Value.WellFormed]⟩
  obtain ⟨htakes, -, hmembers⟩ :=
    takes_events (b := ⟨[⟨"list", .array #[.null]⟩], none⟩) (Or.inl (by simp)) "x" ⟨_, hwf⟩
  exact ⟨htakes, (hmembers [("b", ⟨.array [], trivial⟩), ("a", ⟨.null, trivial⟩), ("b", ⟨.boolean true, trivial⟩)]).2⟩

end Builder

end TableJson
