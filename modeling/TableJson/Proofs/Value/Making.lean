import TableJson.Proofs.Builder.Using
import TableJson.Proofs.Value.Limits
import TableJson.Proofs.Value.Pointing
import TableJson.Proofs.Wire.Parts
import TableJson.Token.Offer

/-!
# Making — members stay in order

Objects are ordered (`Value.WellFormed`) not because anyone looks, but because every way to make a value and every way
to change one in place keeps it so.

* `Value.Made v`: the value `v` comes out of the operations of the library, one after another.
* `Value.Made.wellFormed`: so it is an `OrderedValue`, one operation at a time.
-/

namespace TableJson

namespace Value

variable {v w new child item member : Value} {name : String} {path : Path}

/-! ## Containers -/

theorem wellFormed_of_isScalar (h : v.isScalar = true) : v.WellFormed := by
  cases v with
  | array => cases h
  | object => cases h
  | _ => trivial

theorem wellFormed_insert {ms : Members} (hms : (object ms).WellFormed) (hv : v.WellFormed) :
    (object (Members.insert name v ms)).WellFormed := by
  obtain ⟨hordered, hvalues⟩ := wellFormed_object_iff.1 hms
  refine wellFormed_object_iff.2 ⟨Members.ordered_insert hordered, fun p hp => ?_⟩
  rcases Members.mem_insert hp with rfl | hp
  · exact hv
  · exact hvalues p hp

theorem wellFormed_erase {ms : Members} (hms : (object ms).WellFormed) :
    (object (Members.erase name ms)).WellFormed := by
  obtain ⟨hordered, hvalues⟩ := wellFormed_object_iff.1 hms
  exact wellFormed_object_iff.2
    ⟨Members.ordered_erase hordered, fun p hp => hvalues p (Members.mem_of_mem_erase hp)⟩

theorem wellFormed_ofList {pairs : List (String × Value)} (h : ∀ p ∈ pairs, p.2.WellFormed) :
    (object (Members.ofList pairs)).WellFormed :=
  wellFormed_object_iff.2 ⟨Members.ordered_ofList pairs, fun p hp => h p (Members.mem_ofList hp)⟩

theorem wellFormed_itemsOrNew {items : List Value} (hv : v.WellFormed) (h : v.itemsOrNew = .ok items) :
    (array items).WellFormed := by
  rcases itemsOrNew_eq_ok h with ⟨rfl, rfl⟩ | rfl
  · trivial
  · exact hv

theorem wellFormed_membersOrNew {ms : Members} (hv : v.WellFormed) (h : v.membersOrNew = .ok ms) :
    (object ms).WellFormed := by
  rcases membersOrNew_eq_ok h with ⟨rfl, rfl⟩ | rfl
  · exact ⟨trivial, trivial⟩
  · exact hv

/-! ## Paths -/

theorem wellFormed_replaceChild (step : Component) (hv : v.WellFormed) (hchild : child.WellFormed) :
    (v.replaceChild step child).WellFormed := by
  cases v with
  | array items =>
    cases step with
    | index i =>
      refine wellFormed_array_iff.2 fun w hw => ?_
      rcases List.mem_or_eq_of_mem_set hw with hw | rfl
      · exact wellFormed_array_iff.1 hv w hw
      · exact hchild
    | key name => exact hv
  | object members =>
    cases step with
    | index i => exact hv
    | key name => exact wellFormed_insert hv hchild
  | _ => exact hv

theorem wellFormed_openAt {step : Component} {opened : Value} (hv : v.WellFormed)
    (h : v.openAt step = .ok (opened, child)) : opened.WellFormed ∧ child.WellFormed := by
  constructor
  · rcases openAt_cases h with ⟨i, items, -, hitems, rfl, -⟩ | ⟨name, members, -, hmembers, rfl, -⟩
    · -- the items that were there, and nulls
      refine wellFormed_array_iff.2 fun w hw => ?_
      rcases List.mem_append.1 hw with hw | hw
      · exact wellFormed_array_iff.1 (wellFormed_itemsOrNew hv hitems) w hw
      · rw [List.eq_of_mem_replicate hw]
        trivial
    · have hwf := wellFormed_membersOrNew hv hmembers
      rw [Members.reserve]
      split
      · exact hwf
      · exact wellFormed_insert hwf trivial
  · rw [(opened_of_openAt h).child_eq]
    cases hchild : v.child? step with
    | none => trivial
    | some there => exact wellFormed_child? hv hchild

theorem wellFormed_pointer? (hv : v.WellFormed) (h : v.pointer? path = some w) : w.WellFormed := by
  induction path generalizing v with
  | nil => exact Option.some.inj h ▸ hv
  | cons step path ih =>
    obtain ⟨child, hchild, hw⟩ := Option.bind_eq_some_iff.1 h
    exact ih (wellFormed_child? hv hchild) hw

/-- Storing keeps members in order, also where it is stopped on the way. -/
theorem wellFormed_assign (hnew : new.WellFormed) (hv : v.WellFormed) : (assign new path v).1.WellFormed := by
  induction path generalizing v with
  | nil => exact hnew
  | cons step path ih =>
    cases hopen : v.openAt step with
    | error violation => rwa [assign, hopen]
    | ok pair =>
      obtain ⟨opened, child⟩ := pair
      obtain ⟨hopened, hchild⟩ := wellFormed_openAt hv hopen
      rw [assign_cons_of_openAt hopen]
      exact wellFormed_replaceChild step hopened (ih hchild)

theorem wellFormed_updateAt? {β : Type} {change : Value → β × Value} {answer : β} (hv : v.WellFormed)
    (hchange : ∀ x, v.pointer? path = some x → (change x).2.WellFormed)
    (h : updateAt? change path v = some (answer, w)) : w.WellFormed := by
  cases hx : v.pointer? path with
  | none =>
    rw [updateAt?_of_pointer?_none change hx] at h
    cases h
  | some x =>
    rw [updateAt?_of_pointer? change hx] at h
    obtain ⟨-, rfl⟩ := Prod.mk.inj (Option.some.inj h)
    exact wellFormed_assign (hchange x hx) hv

/-! ## Single items and members -/

theorem wellFormed_push (hv : v.WellFormed) (hitem : item.WellFormed) (h : v.push item = .ok w) : w.WellFormed := by
  cases hitems : v.itemsOrNew with
  | error violation => rw [push, hitems] at h; cases h
  | ok items =>
    rw [push, hitems] at h
    obtain rfl := Except.ok.inj h
    refine wellFormed_array_iff.2 (List.forall_mem_append.2 ⟨?_, List.forall_mem_singleton.2 hitem⟩)
    exact wellFormed_array_iff.1 (wellFormed_itemsOrNew hv hitems)

theorem wellFormed_removeIndex (i : Nat) (hv : v.WellFormed) : (v.removeIndex i).2.WellFormed := by
  cases v with
  | array items =>
    exact wellFormed_array_iff.2 fun w hw => wellFormed_array_iff.1 hv w (List.mem_of_mem_eraseIdx hw)
  | _ => exact hv

theorem wellFormed_insertMember {old : Option Value} (hv : v.WellFormed) (hmember : member.WellFormed)
    (h : v.insert name member = .ok (old, w)) : w.WellFormed := by
  cases hmembers : v.membersOrNew with
  | error violation => rw [insert, hmembers] at h; cases h
  | ok members =>
    rw [insert, hmembers] at h
    obtain ⟨-, rfl⟩ := Prod.mk.inj (Except.ok.inj h)
    exact wellFormed_insert (wellFormed_membersOrNew hv hmembers) hmember

theorem wellFormed_remove (name : String) (hv : v.WellFormed) : (v.remove name).2.WellFormed := by
  cases v with
  | object members => exact wellFormed_erase hv
  | _ => exact hv

theorem wellFormed_replaceMember? (hv : v.WellFormed) (hmember : member.WellFormed)
    (h : v.replaceMember? name member = some w) : w.WellFormed := by
  obtain ⟨-, -, rfl⟩ := Option.map_eq_some_iff.1 h
  exact wellFormed_replaceChild _ hv hmember

end Value

/-! ## Builders -/

theorem Container.wellFormed_attach {c : Container} {name : String} {v : Value} (hc : c.toValue.WellFormed)
    (hv : v.WellFormed) : (c.attach name v).toValue.WellFormed := by
  cases c with
  | object members => exact Value.wellFormed_insert hc hv
  | array items =>
    rw [Container.attach, Container.toValue, Array.toList_push]
    exact Value.wellFormed_array_iff.2 (List.forall_mem_append.2
      ⟨Value.wellFormed_array_iff.1 hc, List.forall_mem_singleton.2 hv⟩)

namespace Builder

/-- What a builder holds is in order. -/
structure WellFormed (b : Builder) : Prop where
  stack : ∀ frame ∈ b.stack, frame.container.toValue.WellFormed
  root : ∀ v, b.root = some v → v.WellFormed

namespace WellFormed

variable {b : Builder} {name : String} {v : Value}

theorem new : WellFormed {} := ⟨by simp, by simp⟩

theorem attach (h : b.WellFormed) (hv : v.WellFormed) : (b.attach name v).1.WellFormed := by
  obtain ⟨stack, root⟩ := b
  cases stack with
  | nil =>
    cases root with
    | none => exact ⟨h.stack, fun w hw => Option.some.inj hw ▸ hv⟩
    | some root => exact h
  | cons frame stack =>
    obtain ⟨hframe, hstack⟩ := List.forall_mem_cons.1 h.stack
    exact ⟨List.forall_mem_cons.2 ⟨Container.wellFormed_attach hframe hv, hstack⟩, h.root⟩

theorem enter (h : b.WellFormed) (kind : ContainerKind) (name : String) : (b.enter kind name).1.WellFormed := by
  have hempty : (Container.empty kind).toValue.WellFormed := by
    cases kind
    · exact ⟨trivial, trivial⟩
    · trivial
  rw [Builder.enter]
  split
  · exact h
  · exact ⟨List.forall_mem_cons.2 ⟨hempty, h.stack⟩, h.root⟩

/-- One event, whatever the builder makes of it. -/
theorem call (h : b.WellFormed) (e : Event) : (b.call e).1.WellFormed := by
  cases e with
  | beginJson => exact h
  | endJson accepted => exact h
  | opened kind name => exact h.enter kind name
  | scalar name v =>
    refine h.attach (Value.wellFormed_of_isScalar ?_)
    cases v <;> rfl
  | closed kind name =>
    obtain ⟨stack, root⟩ := b
    cases stack with
    | nil => exact h
    | cons frame stack =>
      obtain ⟨hframe, hstack⟩ := List.forall_mem_cons.1 h.stack
      exact attach (b := ⟨stack, root⟩) ⟨hstack, h.root⟩ hframe

/-- Any events, one after another. -/
theorem used (h : b.WellFormed) (es : List Event) : (b.used es).WellFormed := by
  induction es generalizing b with
  | nil => exact h
  | cons e es ih => exact ih (h.call e)

theorem finish (h : b.WellFormed) : b.finish.WellFormed := by
  rw [Builder.finish]
  cases hroot : b.root with
  | none => trivial
  | some v => exact h.root v hroot

end WellFormed

end Builder

/-! ## Offers -/

namespace Offer

mutual

/-- The value that an offer gives is in order, whatever order its names are offered in. -/
theorem wellFormed_value : ∀ (o : Offer) {v : Value}, o.value = .ok v → v.WellFormed
  | .unit, _, h | .absent, _, h | .boolean _, _, h | .unsigned _, _, h | .single _, _, h | .real _, _, h | .char _, _, h
  | .text _, _, h => by
    obtain rfl := Except.ok.inj h
    trivial
  | .signed n, _, h => by
    obtain rfl := Except.ok.inj h
    split <;> trivial
  | .present inner, _, h => wellFormed_value inner h
  | .sequence items, _, h => by
    cases hvs : values items with
    | error e => rw [value, hvs] at h; cases h
    | ok vs =>
      rw [value, hvs] at h
      obtain rfl := Except.ok.inj h
      exact Value.wellFormed_array_iff.2 (wellFormed_values items hvs)
  | .mapping entries, _, h => by
    cases hms : valuesByName entries [] with
    | error e => rw [value, hms] at h; cases h
    | ok ms =>
      rw [value, hms] at h
      obtain rfl := Except.ok.inj h
      have hnone : (Value.object []).WellFormed := ⟨trivial, trivial⟩
      exact wellFormed_valuesByName entries hnone hms
  | .failure _, _, h | .wrapped _, _, h | .wideSigned _, _, h | .wideUnsigned _, _, h | .bytes _, _, h => by cases h

theorem wellFormed_values : ∀ (items : List Offer) {vs : List Value}, values items = .ok vs → ∀ v ∈ vs, v.WellFormed
  | [], _, h => by
    obtain rfl := Except.ok.inj h
    exact fun v hv => absurd hv List.not_mem_nil
  | item :: items, _, h => by
    cases hv : item.value with
    | error e => rw [values, hv] at h; cases h
    | ok v =>
      cases hvs : values items with
      | error e => rw [values, hv, hvs] at h; cases h
      | ok vs =>
        rw [values, hv, hvs] at h
        obtain rfl := Except.ok.inj h
        exact List.forall_mem_cons.2 ⟨wellFormed_value item hv, wellFormed_values items hvs⟩

theorem wellFormed_valuesByName : ∀ (entries : List Offer) {ms ms' : Members}, (Value.object ms).WellFormed →
    valuesByName entries ms = .ok ms' → (Value.object ms').WellFormed
  | [], _, _, hms, h => Except.ok.inj h ▸ hms
  | [key], _, _, _, h => by
    cases hk : key.name with
    | error e => rw [valuesByName, hk] at h; cases h
    | ok k => rw [valuesByName, hk] at h; cases h
  | key :: item :: entries, ms, _, hms, h => by
    cases hk : key.name with
    | error e => rw [valuesByName, hk] at h; cases h
    | ok k =>
      cases hv : item.value with
      | error e => rw [valuesByName, hk, hv] at h; cases h
      | ok v =>
        rw [valuesByName, hk, hv] at h
        exact wellFormed_valuesByName entries (Value.wellFormed_insert hms (wellFormed_value item hv)) h

end

end Offer

/-! ## Everything -/

/-- Values that come out of the operations of the library. -/
inductive Value.Made : Value → Prop
  | scalar {v : Value} (h : v.isScalar = true) : Made v
  | array {items : List Value} (h : ∀ v ∈ items, Made v) : Made (.array items)
  | object {pairs : List (String × Value)} (h : ∀ p ∈ pairs, Made p.2) : Made (.object (Members.ofList pairs))
  | read {options : Options} {text : String} {v : Value} (h : Value.read options text = .ok v) : Made v
  | decoded {bytes rest : List UInt8} {v : Value} (h : Wire.decode bytes = (.ok v, rest)) : Made v
  | offered {o : Offer} {v : Value} (h : o.value = .ok v) : Made v
  | built (es : List Event) : Made (Builder.used es {}).finish
  | found {path : Path} {v x : Value} (hv : Made v) (h : v.pointer? path = some x) : Made x
  /-- Also where storing is stopped on the way. -/
  | stored (steps : List Step) {new v : Value} (hnew : Made new) (hv : Made v) : Made (store new steps v).1
  | updated {β : Type} {change : Value → β × Value} {path : Path} {v w : Value} {answer : β} (hv : Made v)
      (hchange : ∀ x, v.pointer? path = some x → Made (change x).2)
      (h : updateAt? change path v = some (answer, w)) : Made w
  | pushed {v item w : Value} (hv : Made v) (hitem : Made item) (h : v.push item = .ok w) : Made w
  | removedIndex (i : Nat) {v : Value} (hv : Made v) : Made (v.removeIndex i).2
  | inserted {v member w : Value} {name : String} {old : Option Value} (hv : Made v) (hmember : Made member)
      (h : v.insert name member = .ok (old, w)) : Made w
  | removed (name : String) {v : Value} (hv : Made v) : Made (v.remove name).2
  | replaced {v member w : Value} {name : String} (hv : Made v) (hmember : Made member)
      (h : v.replaceMember? name member = some w) : Made w
  /-- A change of all members at once has to keep them in order by itself. -/
  | modified {f : Members → Members} {ms : Members} {w : Value} (hms : Made (.object ms))
      (hordered : Members.Ordered ms → Members.Ordered (f ms)) (hmade : ∀ p ∈ f ms, Made p.2)
      (h : (Value.object ms).modifyMembers? f = some w) : Made w

/-- Whatever comes out of the operations of the library is in order, at every depth. -/
theorem Value.Made.wellFormed {v : Value} (h : Made v) : v.WellFormed := by
  induction h with
  | scalar h => exact wellFormed_of_isScalar h
  | array _ ih => exact wellFormed_array_iff.2 ih
  | object _ ih => exact wellFormed_ofList ih
  | read h => exact (read_denotes h).2.1
  | decoded h =>
    obtain ⟨layout, -, hlayout⟩ := (Wire.takes_readValue _ _ _ _).1 h
    exact (Wire.fitting_of_layout hlayout).wellFormed
  | offered h => exact Offer.wellFormed_value _ h
  | built es => exact (Builder.WellFormed.new.used es).finish
  | found _ h ih => exact wellFormed_pointer? ih h
  | stored steps _ _ ihnew ih => exact store_eq_assign _ steps _ ▸ wellFormed_assign ihnew ih
  | updated _ _ h ih ihchange => exact wellFormed_updateAt? ih ihchange h
  | pushed _ _ h ih ihitem => exact wellFormed_push ih ihitem h
  | removedIndex i _ ih => exact wellFormed_removeIndex i ih
  | inserted _ _ h ih ihmember => exact wellFormed_insertMember ih ihmember h
  | removed name _ ih => exact wellFormed_remove name ih
  | replaced _ _ h ih ihmember => exact wellFormed_replaceMember? ih ihmember h
  | modified _ hordered _ h ih ihmade =>
    obtain rfl := Option.some.inj h
    exact wellFormed_object_iff.2 ⟨hordered (wellFormed_object_iff.1 ih).1, ihmade⟩

end TableJson
