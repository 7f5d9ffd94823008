import TableJson.Value.Basic

/-!
# Members — the names and values of an object

Members are held in the order of their names.  `insert` replaces a member of the same name, so of several members
with one name the last stays.

* `Members.Ordered ms`: the names strictly increase.  Insertion and removal keep the order (`ordered_insert`,
  `ordered_erase`), and change what is found under their own name only (`find?_insert_self`, `find?_insert_of_ne`).
* `Value.WellFormed v`: every object in `v` is ordered.
* `OrderedValue`: a value together with that.
-/

namespace TableJson

namespace Members

/-- The value under a name. -/
def find? (name : String) : Members → Option Value
  | [] => none
  | (k, v) :: ms => if name = k then some v else find? name ms

/-- Puts a value under a name, at its place in the order. -/
def insert (name : String) (value : Value) : Members → Members
  | [] => [(name, value)]
  | (k, v) :: ms =>
    if name < k then (name, value) :: (k, v) :: ms
    else if name = k then (k, value) :: ms
    else (k, v) :: insert name value ms

/-- Takes the member with a name out. -/
def erase (name : String) : Members → Members
  | [] => []
  | (k, v) :: ms => if name = k then ms else (k, v) :: erase name ms

/-- The members of a list of pairs, later ones replacing earlier ones of the same name. -/
def ofList (pairs : List (String × Value)) : Members :=
  pairs.foldl (fun ms p => insert p.1 p.2 ms) []

/-- Names strictly increase. -/
def Ordered : Members → Prop
  | [] => True
  | (k, _) :: ms => (∀ p ∈ ms, k < p.1) ∧ Ordered ms

/-! ## Looking up -/

section Find

variable (name key : String) (v : Value) (ms : Members)

@[simp] theorem find?_nil : find? name [] = none := rfl

theorem find?_insert_self : find? name (insert name v ms) = some v := by
  induction ms with
  | nil => simp [insert, find?]
  | cons p ms ih =>
    obtain ⟨k, w⟩ := p
    unfold insert
    split
    · simp [find?]
    · split
      · simp [find?, *]
      · rw [find?, if_neg ‹_›, ih]

theorem find?_insert_of_ne {name key : String} (h : key ≠ name) : find? key (insert name v ms) = find? key ms := by
  induction ms with
  | nil => simp [insert, find?, h]
  | cons p ms ih =>
    obtain ⟨k, w⟩ := p
    unfold insert
    split
    · rw [find?, if_neg h]
    · split
      · rename_i hk
        subst hk
        simp [find?, h]
      · rw [find?, find?, ih]

theorem find?_eq_none_of_forall_lt {ms : Members} {key : String} (h : ∀ p ∈ ms, key < p.1) :
    find? key ms = none := by
  induction ms with
  | nil => rfl
  | cons p ms ih =>
    obtain ⟨k, w⟩ := p
    have hk : key < k := h (k, w) (List.mem_cons_self ..)
    have hne : key ≠ k := fun he => String.lt_irrefl k (he ▸ hk)
    rw [find?, if_neg hne, ih fun p hp => h p (List.mem_cons_of_mem _ hp)]

theorem find?_erase_of_ne {name key : String} (h : key ≠ name) : find? key (erase name ms) = find? key ms := by
  induction ms with
  | nil => rfl
  | cons p ms ih =>
    obtain ⟨k, w⟩ := p
    unfold erase
    split
    · rename_i hk
      subst hk
      rw [find?, if_neg h]
    · rw [find?, find?, ih]

theorem find?_erase_self {ms : Members} (h : Ordered ms) : find? name (erase name ms) = none := by
  induction ms with
  | nil => rfl
  | cons p ms ih =>
    obtain ⟨k, w⟩ := p
    unfold erase
    split
    · rename_i hk
      subst hk
      exact find?_eq_none_of_forall_lt h.1
    · rw [find?, if_neg ‹_›, ih h.2]

end Find

/-! ## Order -/

theorem lt_of_not_lt_of_ne {a b : String} (h : ¬ a < b) (hne : a ≠ b) : b < a :=
  Decidable.byContradiction fun hb => hne (Std.Trichotomous.trichotomous (r := fun x y : String => x < y) a b h hb)

/-- A member after an insertion is the new one or was there before. -/
theorem mem_insert {name : String} {v : Value} {ms : Members} {p : String × Value} (h : p ∈ insert name v ms) :
    p = (name, v) ∨ p ∈ ms := by
  induction ms with
  | nil => simpa [insert] using h
  | cons q ms ih =>
    obtain ⟨k, w⟩ := q
    unfold insert at h
    split at h
    · simpa using h
    · split at h
      · rename_i hk
        subst hk
        rcases List.mem_cons.1 h with rfl | hp
        · exact Or.inl rfl
        · exact Or.inr (List.mem_cons_of_mem _ hp)
      · rcases List.mem_cons.1 h with rfl | hp
        · exact Or.inr (List.mem_cons_self ..)
        · exact (ih hp).imp_right (List.mem_cons_of_mem _)

theorem ordered_insert {name : String} {v : Value} {ms : Members} (h : Ordered ms) : Ordered (insert name v ms) := by
  induction ms with
  | nil => exact ⟨fun p hp => absurd hp (List.not_mem_nil), trivial⟩
  | cons q ms ih =>
    obtain ⟨k, w⟩ := q
    unfold insert
    split
    · rename_i hlt
      refine ⟨fun p hp => ?_, h⟩
      rcases List.mem_cons.1 hp with rfl | hp
      · exact hlt
      · exact String.lt_trans hlt (h.1 p hp)
    · split
      · exact h
      · rename_i hlt hne
        refine ⟨fun p hp => ?_, ih h.2⟩
        rcases mem_insert hp with rfl | hp
        · exact lt_of_not_lt_of_ne hlt hne
        · exact h.1 p hp

theorem mem_of_mem_erase {name : String} {ms : Members} {p : String × Value} (h : p ∈ erase name ms) : p ∈ ms := by
  induction ms with
  | nil => exact h
  | cons q ms ih =>
    obtain ⟨k, w⟩ := q
    unfold erase at h
    split at h
    · exact List.mem_cons_of_mem _ h
    · rcases List.mem_cons.1 h with rfl | hp
      · exact List.mem_cons_self ..
      · exact List.mem_cons_of_mem _ (ih hp)

theorem ordered_erase {name : String} {ms : Members} (h : Ordered ms) : Ordered (erase name ms) := by
  induction ms with
  | nil => exact h
  | cons q ms ih =>
    obtain ⟨k, w⟩ := q
    unfold erase
    split
    · exact h.2
    · exact ⟨fun p hp => h.1 p (mem_of_mem_erase hp), ih h.2⟩

theorem ordered_ofList (pairs : List (String × Value)) : Ordered (ofList pairs) := by
  have (ms : Members) (h : Ordered ms) : Ordered (pairs.foldl (fun ms p => insert p.1 p.2 ms) ms) := by
    induction pairs generalizing ms with
    | nil => exact h
    | cons p pairs ih => exact ih _ (ordered_insert h)
  exact this [] trivial

end Members

mutual

/-- The members of every object in the value are ordered. -/
def Value.WellFormed : Value → Prop
  | .array items => Value.WellFormedItems items
  | .object members => Members.Ordered members ∧ Value.WellFormedMembers members
  | _ => True

/-- Every item is well formed. -/
def Value.WellFormedItems : List Value → Prop
  | [] => True
  | v :: vs => Value.WellFormed v ∧ Value.WellFormedItems vs

/-- Every member is well formed. -/
def Value.WellFormedMembers : List (String × Value) → Prop
  | [] => True
  | (_, v) :: ms => Value.WellFormed v ∧ Value.WellFormedMembers ms

end

/-- A value whose objects are ordered at every depth, as they are in all that the operations of the library make
(`Made.wellFormed`). -/
structure OrderedValue where
  val : Value
  wellFormed : val.WellFormed

end TableJson
