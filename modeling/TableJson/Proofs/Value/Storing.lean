import TableJson.Proofs.Value.Opening

/-!
# Storing — what `assign` changes, and what it leaves alone

What a step makes is null, and null refuses no step.  So where a later step is refused, no step before it has made
anything.

* `Blocked path v violation`: along the path a value is found that refuses the next step.
* `store_atomic`: storing completes, or the path is blocked and the value is what it was.
* `store_lens`: what was stored is read back, what is read along any path that parts from it is what it was, and
  storing once more changes nothing.
-/

namespace TableJson

namespace Value

/-! ## Refusals -/

/-- A value that is neither null nor of the kind that a step asks for. -/
inductive Refuses : Value → Component → Violation → Prop
  | index {v : Value} (i : Nat) (notNull : v.kind ≠ .null) (notArray : v.kind ≠ .array) :
      Refuses v (.index i) (.notArray v.kind)
  | key {v : Value} (name : String) (notNull : v.kind ≠ .null) (notObject : v.kind ≠ .object) :
      Refuses v (.key name) (.notObject v.kind)

section Refusals

variable {v : Value} {violation : Violation}

theorem openAt_eq_error_iff {step : Component} : v.openAt step = .error violation ↔ Refuses v step violation := by
  constructor
  · intro h
    cases step with
    | index i =>
      cases v with
      | null => cases h
      | array items => cases h
      | _ =>
        cases h
        exact .index i (by simp [kind]) (by simp [kind])
    | key name =>
      cases hmembers : v.membersOrNew with
      | ok members => rw [openAt_key hmembers] at h; cases h
      | error found =>
        rw [openAt, hmembers] at h
        obtain rfl := Except.error.inj h
        cases v with
        | null => cases hmembers
        | object members => cases hmembers
        | _ =>
          cases hmembers
          exact .key name (by simp [kind]) (by simp [kind])
  · rintro (⟨i, hnull, harray⟩ | ⟨name, hnull, hobject⟩)
    · cases v with
      | null => exact absurd rfl hnull
      | array items => exact absurd rfl harray
      | _ => rfl
    · cases v with
      | null => exact absurd rfl hnull
      | object members => exact absurd rfl hobject
      | _ => rfl

/-- What refuses a step has no child there. -/
theorem child?_of_refuses {step : Component} (h : Refuses v step violation) : v.child? step = none := by
  cases h with
  | index i _ harray =>
    cases v with
    | array items => exact absurd rfl harray
    | _ => rfl
  | key name _ hobject =>
    cases v with
    | object members => exact absurd rfl hobject
    | _ => rfl

end Refusals

/-! ## Storing along a path -/

section Storing

variable {new v : Value} {path : Path} {violation : Violation}

theorem assign_cons_of_refuses {step : Component} (h : Refuses v step violation) :
    assign new (step :: path) v = (v, some violation) := by
  rw [assign, openAt_eq_error_iff.2 h]

theorem assign_cons_of_openAt {step : Component} {opened child : Value} (h : v.openAt step = .ok (opened, child)) :
    assign new (step :: path) v = (opened.replaceChild step (assign new path child).1, (assign new path child).2) := by
  rw [assign, h]

/-- Storing that completes opens the value, and completes in the child there. -/
theorem exists_opened_of_done {step : Component} (h : (assign new (step :: path) v).2 = none) :
    ∃ opened child, Opened v step opened child ∧ (assign new path child).2 = none ∧
      assign new (step :: path) v = (opened.replaceChild step (assign new path child).1, none) := by
  cases hopen : v.openAt step with
  | error found =>
    rw [assign_cons_of_refuses (openAt_eq_error_iff.1 hopen)] at h
    cases h
  | ok pair =>
    obtain ⟨opened, child⟩ := pair
    have hassign : assign new (step :: path) v = _ := assign_cons_of_openAt hopen
    rw [hassign] at h
    exact ⟨opened, child, opened_of_openAt hopen, h, hassign.trans (Prod.ext rfl h)⟩

theorem wellFormed_child? {step : Component} {child : Value} (hv : v.WellFormed) (h : v.child? step = some child) :
    child.WellFormed := by
  cases v with
  | array items =>
    cases step with
    | index i => exact wellFormed_array_iff.1 hv child (List.mem_of_getElem? h)
    | key name => cases h
  | object members =>
    cases step with
    | index i => cases h
    | key name =>
      obtain ⟨hordered, hvalues⟩ := wellFormed_object_iff.1 hv
      exact hvalues _ ((Members.find?_eq_some_iff_mem hordered name child).1 h)
  | _ => cases h

/-- Putting a child where it is changes nothing. -/
theorem replaceChild_child? {step : Component} {child : Value} (hv : v.WellFormed)
    (h : v.child? step = some child) : v.replaceChild step child = v := by
  cases v with
  | array items =>
    cases step with
    | index i =>
      obtain ⟨hi, rfl⟩ := List.getElem?_eq_some_iff.1 h
      exact congrArg array (List.set_getElem_self hi)
    | key name => cases h
  | object members =>
    cases step with
    | index i => cases h
    | key name => exact congrArg object (Members.insert_of_find? hv.1 h)
  | _ => cases h

/-- What was stored is found at the end of the path. -/
theorem pointer?_assign (h : (assign new path v).2 = none) : (assign new path v).1.pointer? path = some new := by
  induction path generalizing v with
  | nil => rfl
  | cons step path ih =>
    obtain ⟨opened, child, hopened, hdone, hassign⟩ := exists_opened_of_done h
    rw [hassign, pointer?, hopened.stored, Option.bind_some]
    exact ih hdone

theorem follow_of_pointer? {w : Value} {rest : Path} (h : v.pointer? path = some w) :
    follow (path ++ rest) v = follow rest w := by
  induction path generalizing v with
  | nil =>
    obtain rfl := Option.some.inj h
    rfl
  | cons step path ih =>
    obtain ⟨child, hchild, hw⟩ := Option.bind_eq_some_iff.1 h
    rw [List.cons_append, follow, hchild, Option.getD_some]
    exact ih hw

/-- Two paths have another step at one place. -/
def Differ (p q : Path) : Prop := ∃ (k : Nat) (s t : Component), p[k]? = some s ∧ q[k]? = some t ∧ s ≠ t

theorem differ_cons_self {step : Component} {p q : Path} (h : Differ (step :: p) (step :: q)) : Differ p q := by
  obtain ⟨k, s, t, hs, ht, hne⟩ := h
  cases k with
  | zero =>
    obtain rfl := Option.some.inj hs
    obtain rfl := Option.some.inj ht
    exact absurd rfl hne
  | succ k => exact ⟨k, s, t, hs, ht, hne⟩

/-- What is read along a path that parts from the one stored along is what it was. -/
theorem follow_assign_of_differ {q : Path} (h : (assign new path v).2 = none) (hq : Differ path q) :
    follow q (assign new path v).1 = follow q v := by
  induction path generalizing v q with
  | nil =>
    obtain ⟨k, s, t, hs, -, -⟩ := hq
    cases hs
  | cons step path ih =>
    obtain ⟨opened, child, hopened, hdone, hassign⟩ := exists_opened_of_done h
    rw [hassign]
    cases q with
    | nil =>
      obtain ⟨k, s, t, -, ht, -⟩ := hq
      cases ht
    | cons other q =>
      by_cases hother : other = step
      · subst hother
        rw [follow, follow, hopened.stored, Option.getD_some, ih hdone (differ_cons_self hq), hopened.child_eq]
      · rw [follow, follow, hopened.others _ hother]

/-- Storing what is there already changes nothing. -/
theorem assign_assign (h : (assign new path v).2 = none) :
    assign new path (assign new path v).1 = ((assign new path v).1, none) := by
  induction path generalizing v with
  | nil => rfl
  | cons step path ih =>
    obtain ⟨opened, child, hopened, hdone, hassign⟩ := exists_opened_of_done h
    rw [hassign, assign_cons_of_openAt (hopened.again _), ih hdone, hopened.settled]

end Storing

/-! ## Paths as they are handed in -/

/-- Two looks at a name do what one does. -/
theorem openStep_eq (v : Value) (step : Step) : v.openStep step = v.openAt step.component := by
  have hlent (name : String) : v.openLent name = v.openAt (.key name) := by
    cases hmembers : v.membersOrNew with
    | error violation => rw [openLent, openAt, hmembers]; rfl
    | ok members =>
      rw [openAt_key hmembers, openLent, hmembers]
      change Except.ok (_, (Members.find? name (Members.reserve name members)).getD null) = _
      rw [Members.find?_reserve, Option.getD_some]
  cases step with
  | index i => rfl
  | key handing name =>
    cases handing with
    | slice => exact hlent name
    | lent => exact hlent name
    | given => rfl

/-- How names are handed in makes no difference. -/
theorem store_eq_assign (new : Value) (steps : List Step) (v : Value) :
    store new steps v = assign new (steps.map Step.component) v := by
  induction steps generalizing v with
  | nil => rfl
  | cons step steps ih =>
    rw [store, List.map_cons, assign, openStep_eq]
    cases v.openAt step.component with
    | error violation => rfl
    | ok pair =>
      dsimp only
      rw [ih]

/-- After storing, a path that goes on from the one stored along reads what it reads in the value stored, a path that
parts from it reads what it did before, and storing again, with the names handed in in any way, changes nothing. -/
theorem store_lens {new v : Value} {steps : List Step} (h : (store new steps v).2 = none) :
    (∀ rest, follow (steps.map Step.component ++ rest) (store new steps v).1 = follow rest new) ∧
      (∀ q, Differ (steps.map Step.component) q → follow q (store new steps v).1 = follow q v) ∧
      ∀ again : List Step, again.map Step.component = steps.map Step.component →
        store new again (store new steps v).1 = ((store new steps v).1, none) := by
  simp only [store_eq_assign] at h ⊢
  refine ⟨?_, ?_, ?_⟩
  · intro rest
    exact follow_of_pointer? (pointer?_assign h)
  · intro q hq
    exact follow_assign_of_differ h hq
  · intro again hagain
    rw [hagain]
    exact assign_assign h

theorem store_lens_sparse :
    let v := object [("a", array [uinteger 1])]
    let stored := (store (string "x") [.key .slice "a", .index 2, .key .lent "b"] v).1
    (store (string "x") [.key .slice "a", .index 2, .key .lent "b"] v).2 = none ∧
      follow [.key "a", .index 2, .key "b"] stored = string "x" ∧
      follow [.key "a", .index 0] stored = uinteger 1 ∧ follow [.key "a", .index 1] stored = null ∧
      store (string "x") [.key .given "a", .index 2, .key .slice "b"] stored = (stored, none) := by
  intro v stored
  have hdone : (store (string "x") [.key .slice "a", .index 2, .key .lent "b"] v).2 = none := by rfl
  obtain ⟨hrest, hothers, hagain⟩ := store_lens hdone
  refine ⟨hdone, hrest [], ?_, ?_, hagain _ rfl⟩
  · exact hothers [.key "a", .index 0] ⟨1, .index 2, .index 0, rfl, rfl, by decide⟩
  · exact hothers [.key "a", .index 1] ⟨1, .index 2, .index 1, rfl, rfl, by decide⟩

end Value

end TableJson
