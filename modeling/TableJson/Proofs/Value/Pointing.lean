import TableJson.Proofs.Value.Storing

/-!
# Pointing — one place, however it is reached

`pointer?`, `follow`, `updateAt?` and `store` walk the same path in four ways: the first and the third stop where a
step leads nowhere, the second reads null from there on, the fourth makes what is missing.  Where there is a value at
the end of a path, all four come to it.

* `openAt_of_child?`: a step that leads somewhere makes nothing.
* `updateAt?_of_pointer?`: changing a value in place stores what it is changed to.
* `pointer?_agrees`: the four ways agree where there is a value, and only `store` goes on where there is none.
-/

namespace TableJson

namespace Value

/-- A value after a change was asked for at the end of a path: where there is no value it is what it was. -/
def changedAt {β : Type} (change : Value → β × Value) (path : Path) (v : Value) : Value :=
  ((updateAt? change path v).map Prod.snd).getD v

/-! ## One step -/

section Steps

variable {v child : Value} {step : Component}

/-- Replacing a child leaves the other children as they are, those that are not there included. -/
theorem child?_replaceChild_of_ne (v : Value) (new : Value) {step other : Component} (h : other ≠ step) :
    (v.replaceChild step new).child? other = v.child? other := by
  cases v with
  | array items =>
    cases step with
    | key name => rfl
    | index i =>
      cases other with
      | key key => rfl
      | index j =>
        have hne : i ≠ j := by
          rintro rfl
          exact h rfl
        exact List.getElem?_set_ne hne
  | object members =>
    cases step with
    | index i => rfl
    | key name =>
      cases other with
      | index j => rfl
      | key key =>
        have hne : key ≠ name := by
          rintro rfl
          exact h rfl
        exact Members.find?_insert_of_ne new members hne
  | _ => rfl

/-- A step that leads somewhere makes nothing. -/
theorem openAt_of_child? (h : v.child? step = some child) : v.openAt step = .ok (v, child) := by
  cases hopen : v.openAt step with
  | error violation =>
    rw [child?_of_refuses (openAt_eq_error_iff.1 hopen)] at h
    cases h
  | ok pair =>
    obtain ⟨opened, there⟩ := pair
    have hopened := opened_of_openAt hopen
    rw [hopened.kept h, hopened.child_eq, h, Option.getD_some]

theorem child?_replaceChild_self (h : v.child? step = some child) (new : Value) :
    (v.replaceChild step new).child? step = some new :=
  (opened_of_openAt (openAt_of_child? h)).stored new

end Steps

/-! ## Along a path -/

section Paths

variable {v x : Value} {path : Path}

theorem pointer?_append (path rest : Path) (v : Value) :
    v.pointer? (path ++ rest) = (v.pointer? path).bind (pointer? rest) := by
  induction path generalizing v with
  | nil => rfl
  | cons step path ih =>
    rw [List.cons_append, pointer?, pointer?]
    cases v.child? step with
    | none => rfl
    | some child => exact ih child

theorem follow_null (path : Path) : follow path null = null := by
  induction path with
  | nil => rfl
  | cons step path ih => exact ih

theorem follow_of_pointer?_none (h : v.pointer? path = none) : follow path v = null := by
  induction path generalizing v with
  | nil => cases h
  | cons step path ih =>
    rw [pointer?] at h
    rw [follow]
    cases hchild : v.child? step with
    | none => exact follow_null path
    | some child =>
      rw [hchild, Option.bind_some] at h
      exact ih h

/-- Storing where there is a value meets no violation. -/
theorem assign_of_pointer? (h : v.pointer? path = some x) (new : Value) : (assign new path v).2 = none := by
  induction path generalizing v with
  | nil => rfl
  | cons step path ih =>
    obtain ⟨child, hchild, hx⟩ := Option.bind_eq_some_iff.1 h
    rw [assign_cons_of_openAt (openAt_of_child? hchild)]
    exact ih hx

/-- Storing where there is a value leaves all that does not lie on the way or beyond it, what is missing included. -/
theorem pointer?_assign_of_parting (h : v.pointer? path = some x) (new : Value) {other : Path}
    (hbelow : ¬ path <+: other) (habove : ¬ other <+: path) :
    (assign new path v).1.pointer? other = v.pointer? other := by
  induction path generalizing v other with
  | nil => exact absurd List.nil_prefix hbelow
  | cons step path ih =>
    obtain ⟨child, hchild, hx⟩ := Option.bind_eq_some_iff.1 h
    rw [assign_cons_of_openAt (openAt_of_child? hchild)]
    cases other with
    | nil => exact absurd List.nil_prefix habove
    | cons first other =>
      rw [pointer?, pointer?]
      by_cases hfirst : first = step
      · subst hfirst
        rw [child?_replaceChild_self hchild, hchild]
        refine ih hx ?_ ?_
        · intro hprefix
          exact hbelow (List.cons_prefix_cons.2 ⟨rfl, hprefix⟩)
        · intro hprefix
          exact habove (List.cons_prefix_cons.2 ⟨rfl, hprefix⟩)
      · rw [child?_replaceChild_of_ne v _ hfirst]

/-- Changing a value in place stores what it is changed to. -/
theorem updateAt?_of_pointer? {β : Type} (change : Value → β × Value) (h : v.pointer? path = some x) :
    updateAt? change path v = some ((change x).1, (assign (change x).2 path v).1) := by
  induction path generalizing v with
  | nil =>
    obtain rfl := Option.some.inj h
    rfl
  | cons step path ih =>
    obtain ⟨child, hchild, hx⟩ := Option.bind_eq_some_iff.1 h
    rw [updateAt?, hchild, assign_cons_of_openAt (openAt_of_child? hchild)]
    dsimp only
    rw [ih hx, Option.map_some]

theorem updateAt?_of_pointer?_none {β : Type} (change : Value → β × Value) (h : v.pointer? path = none) :
    updateAt? change path v = none := by
  induction path generalizing v with
  | nil => cases h
  | cons step path ih =>
    rw [pointer?] at h
    rw [updateAt?]
    cases hchild : v.child? step with
    | none => rfl
    | some child =>
      rw [hchild, Option.bind_some] at h
      dsimp only
      rw [ih h, Option.map_none]

/-- Putting a value where it is changes nothing. -/
theorem assign_pointer? (hv : v.WellFormed) (h : v.pointer? path = some x) : (assign x path v).1 = v := by
  induction path generalizing v with
  | nil => exact Option.some.inj h.symm
  | cons step path ih =>
    obtain ⟨child, hchild, hx⟩ := Option.bind_eq_some_iff.1 h
    rw [assign_cons_of_openAt (openAt_of_child? hchild)]
    dsimp only
    rw [ih (wellFormed_child? hv hchild) hx, replaceChild_child? hv hchild]

end Paths

/-! ## The four ways -/

/-- Where there is a value at the end of a path, reading with null for what is missing reads it, and a change in place
is handed it, and makes of the whole what storing the changed value makes of it, however the names are handed in: what
lies beyond the end of the path is read in the changed value, and what lies neither on the path nor beyond it is what
it was, or is still not there.  A change that changes nothing gives back the whole.  Where there is no value, there is
none to change, the whole is what it was, and null is read. -/
theorem pointer?_agrees (path : Path) (v : Value) :
    (∀ x, v.pointer? path = some x →
      follow path v = x ∧
      (∀ {β : Type} (change : Value → β × Value), ∃ w,
        updateAt? change path v = some ((change x).1, w) ∧ changedAt change path v = w ∧
        (∀ steps : List Step, steps.map Step.component = path → store (change x).2 steps v = (w, none)) ∧
        (∀ rest, w.pointer? (path ++ rest) = (change x).2.pointer? rest) ∧
        ∀ other, ¬ path <+: other → ¬ other <+: path → w.pointer? other = v.pointer? other) ∧
      (v.WellFormed → updateAt? (fun there => (there, there)) path v = some (x, v))) ∧
    (v.pointer? path = none →
      (∀ {β : Type} (change : Value → β × Value), updateAt? change path v = none ∧ changedAt change path v = v) ∧
      follow path v = null) := by
  constructor
  · intro x hx
    refine ⟨?_, ?_, ?_⟩
    · have hfollow : follow (path ++ []) v = follow [] x := follow_of_pointer? hx
      rwa [List.append_nil] at hfollow
    · intro β change
      have hupdate := updateAt?_of_pointer? change hx
      have hdone := assign_of_pointer? hx (change x).2
      refine ⟨(assign (change x).2 path v).1, hupdate, ?_, ?_, ?_, ?_⟩
      · rw [changedAt, hupdate, Option.map_some, Option.getD_some]
      · rintro steps rfl
        rw [store_eq_assign]
        exact Prod.ext rfl hdone
      · intro rest
        rw [pointer?_append, pointer?_assign hdone, Option.bind_some]
      · intro other hbelow habove
        exact pointer?_assign_of_parting hx _ hbelow habove
    · intro hv
      rw [updateAt?_of_pointer? _ hx, assign_pointer? hv hx]
  · intro hnone
    refine ⟨?_, follow_of_pointer?_none hnone⟩
    intro β change
    have hupdate := updateAt?_of_pointer?_none change hnone
    refine ⟨hupdate, ?_⟩
    rw [changedAt, hupdate, Option.map_none, Option.getD_none]

/-- A member that is null is there, and a name that leads into an array is not. -/
theorem pointer?_agrees_null :
    let v := object [("a", array [uinteger 1, null])]
    let w := object [("a", array [uinteger 1, string "x"])]
    updateAt? (fun there => (there, string "x")) [.key "a", .index 1] v = some (null, w) ∧
      store (string "x") [.key .lent "a", .index 1] v = (w, none) ∧
      w.pointer? [.key "a", .index 0] = some (uinteger 1) ∧ w.pointer? [.key "a", .index 2] = none ∧
      updateAt? (fun there => (there, string "x")) [.key "a", .key "b"] v = none ∧
      follow [.key "a", .key "b"] v = null := by
  intro v w
  obtain ⟨-, hchange, -⟩ := (pointer?_agrees [.key "a", .index 1] v).1 null (by rfl)
  obtain ⟨u, hupdate, -, hstore, -, hothers⟩ := hchange fun there => (there, string "x")
  obtain ⟨hnone, hnull⟩ := (pointer?_agrees [.key "a", .key "b"] v).2 (by rfl)
  obtain rfl : u = w := (Prod.mk.inj (hstore [.key .lent "a", .index 1] rfl)).1.symm
  refine ⟨hupdate, hstore _ rfl, ?_, ?_, (hnone _).1, hnull⟩
  · exact hothers [.key "a", .index 0] (by decide) (by decide)
  · exact hothers [.key "a", .index 2] (by decide) (by decide)

end Value

end TableJson
