import TableJson.Value.Members

/-!
# Normal values — what text keeps of a value

Text does not tell a signed integer from an unsigned one of the same number, and has no word for reals that are not
finite. `Value.norm` is what is left of a value: integers that are not negative are unsigned, and what is no finite
number is null.

* `Value.nesting`: how many containers are open at once at most.
* `Value.Normal`: nothing in the value is lost, so that `norm` changes nothing (`norm_eq_self_iff`).
-/

namespace TableJson

theorem Members.ordered_iff_names (ms : Members) : Ordered ms ↔ (ms.map Prod.fst).Pairwise (· < ·) := by
  induction ms with
  | nil => simp [Ordered]
  | cons p ms ih => rw [Ordered, ih, List.map_cons, List.pairwise_cons, List.forall_mem_map]

/-- The order of members is that of their names. -/
theorem Members.ordered_congr {ms ns : Members} (h : ms.map Prod.fst = ns.map Prod.fst) : Ordered ms ↔ Ordered ns := by
  rw [ordered_iff_names, h, ordered_iff_names]

namespace Value

mutual

/-- The value as text keeps it. -/
def norm : Value → Value
  | .integer n => if 0 ≤ n.toInt then .uinteger (.ofNat n.toInt.toNat) else .integer n
  | .real x => if x.isFinite then .real x else .null
  | .array items => .array (normItems items)
  | .object members => .object (normMembers members)
  | v => v

@[inherit_doc norm]
def normItems : List Value → List Value
  | [] => []
  | v :: vs => norm v :: normItems vs

@[inherit_doc norm]
def normMembers : List (String × Value) → List (String × Value)
  | [] => []
  | (name, v) :: ms => (name, norm v) :: normMembers ms

end

mutual

/-- The largest number of containers open at once. -/
def nesting : Value → Nat
  | .array items => nestingItems items + 1
  | .object members => nestingMembers members + 1
  | _ => 0

@[inherit_doc nesting]
def nestingItems : List Value → Nat
  | [] => 0
  | v :: vs => max (nesting v) (nestingItems vs)

@[inherit_doc nesting]
def nestingMembers : List (String × Value) → Nat
  | [] => 0
  | (_, v) :: ms => max (nesting v) (nestingMembers ms)

end

mutual

/-- Every signed integer in the value is negative, and every real is finite. -/
def Normal : Value → Prop
  | .integer n => n.toInt < 0
  | .real x => x.isFinite = true
  | .array items => NormalItems items
  | .object members => NormalMembers members
  | _ => True

@[inherit_doc Normal]
def NormalItems : List Value → Prop
  | [] => True
  | v :: vs => Normal v ∧ NormalItems vs

@[inherit_doc Normal]
def NormalMembers : List (String × Value) → Prop
  | [] => True
  | (_, v) :: ms => Normal v ∧ NormalMembers ms

end

/-! Of items each counts by itself. -/

section Items

variable (items : List Value)

theorem wellFormedItems_iff_forall : WellFormedItems items ↔ ∀ v ∈ items, v.WellFormed := by
  induction items with
  | nil => simp [WellFormedItems]
  | cons v vs ih => rw [WellFormedItems, ih, List.forall_mem_cons]

theorem nestingItems_le_iff_forall (n : Nat) : nestingItems items ≤ n ↔ ∀ v ∈ items, v.nesting ≤ n := by
  induction items with
  | nil => simp [nestingItems]
  | cons v vs ih => rw [nestingItems, Nat.max_le, ih, List.forall_mem_cons]

end Items

/-! Of members the values count only. -/

section Members

variable (ms : List (String × Value))

theorem nestingMembers_eq : nestingMembers ms = nestingItems (ms.map Prod.snd) := by
  induction ms with
  | nil => rfl
  | cons p ms ih => rw [nestingMembers, ih, List.map_cons, nestingItems]

theorem normalMembers_iff : NormalMembers ms ↔ NormalItems (ms.map Prod.snd) := by
  induction ms with
  | nil => rfl
  | cons p ms ih => rw [NormalMembers, ih, List.map_cons, NormalItems]

theorem wellFormedMembers_iff : WellFormedMembers ms ↔ WellFormedItems (ms.map Prod.snd) := by
  induction ms with
  | nil => rfl
  | cons p ms ih => rw [WellFormedMembers, ih, List.map_cons, WellFormedItems]

end Members

theorem wellFormed_array_iff {items : List Value} : (array items).WellFormed ↔ ∀ v ∈ items, v.WellFormed :=
  wellFormedItems_iff_forall items

theorem wellFormed_object_iff {ms : Members} :
    (object ms).WellFormed ↔ Members.Ordered ms ∧ ∀ p ∈ ms, p.2.WellFormed := by
  rw [WellFormed, wellFormedMembers_iff, wellFormedItems_iff_forall, List.forall_mem_map]

mutual

/-- A value is kept by text exactly if it is normal. -/
theorem norm_eq_self_iff : ∀ v : Value, v.norm = v ↔ v.Normal
  | .null => by simp [norm, Normal]
  | .boolean _ => by simp [norm, Normal]
  | .integer n => by
    simp only [norm, Normal]
    split <;> simp <;> omega
  | .uinteger _ => by simp [norm, Normal]
  | .real x => by
    simp only [norm, Normal]
    split <;> simp [*]
  | .string _ => by simp [norm, Normal]
  | .array items => by simp [norm, Normal, normItems_eq_self_iff items]
  | .object members => by simp [norm, Normal, normMembers_eq_self_iff members]

theorem normItems_eq_self_iff : ∀ items : List Value, normItems items = items ↔ NormalItems items
  | [] => by simp [normItems, NormalItems]
  | v :: vs => by simp [normItems, NormalItems, norm_eq_self_iff v, normItems_eq_self_iff vs]

theorem normMembers_eq_self_iff : ∀ members : List (String × Value),
    normMembers members = members ↔ NormalMembers members
  | [] => by simp [normMembers, NormalMembers]
  | (name, v) :: ms => by simp [normMembers, NormalMembers, norm_eq_self_iff v, normMembers_eq_self_iff ms]

end

theorem eqv_self_of_isFinite {f : Number.Format} {x : Number.Binary f} (h : x.isFinite = true) : x.eqv x = true := by
  have hmagnitude : x.magnitude < f.infinity := of_decide_eq_true h
  simp [Number.Binary.eqv, Number.Binary.isNaN, Nat.le_of_lt hmagnitude]

mutual

/-- The equality of the library tells the two apart just as well. -/
theorem norm_eqv_iff : ∀ v : Value, v.norm.eqv v = true ↔ v.Normal
  | .null => by simp [norm, eqv, Normal]
  | .boolean _ => by simp [norm, eqv, Normal]
  | .integer n => by
    simp only [norm, Normal]
    split <;> simp [eqv] <;> omega
  | .uinteger _ => by simp [norm, eqv, Normal]
  | .real x => by
    simp only [norm, Normal]
    split
    · simp [eqv, eqv_self_of_isFinite, *]
    · simp [eqv, *]
  | .string _ => by simp [norm, eqv, Normal]
  | .array items => by simp [norm, eqv, Normal, normItems_eqv_iff items]
  | .object members => by simp [norm, eqv, Normal, normMembers_eqv_iff members]

theorem normItems_eqv_iff : ∀ items : List Value, eqvItems (normItems items) items = true ↔ NormalItems items
  | [] => by simp [normItems, eqvItems, NormalItems]
  | v :: vs => by simp [normItems, eqvItems, NormalItems, norm_eqv_iff v, normItems_eqv_iff vs]

theorem normMembers_eqv_iff : ∀ members : List (String × Value),
    eqvMembers (normMembers members) members = true ↔ NormalMembers members
  | [] => by simp [normMembers, eqvMembers, NormalMembers]
  | (name, v) :: ms => by simp [normMembers, eqvMembers, NormalMembers, norm_eqv_iff v, normMembers_eqv_iff ms]

end

/-- Names stay as they are. -/
theorem map_fst_normMembers (ms : List (String × Value)) : (normMembers ms).map Prod.fst = ms.map Prod.fst := by
  induction ms with
  | nil => rfl
  | cons p ms ih => rw [normMembers, List.map_cons, ih, List.map_cons]

theorem ordered_normMembers {ms : Members} (h : Members.Ordered ms) : Members.Ordered (normMembers ms) :=
  (Members.ordered_congr (map_fst_normMembers ms)).2 h

end Value

namespace Members

theorem insert_of_forall_lt {name : String} {v : Value} {ms : Members} (h : ∀ p ∈ ms, p.1 < name) :
    insert name v ms = ms ++ [(name, v)] := by
  induction ms with
  | nil => rfl
  | cons q ms ih =>
    obtain ⟨k, w⟩ := q
    have hk : k < name := h (k, w) (List.mem_cons_self ..)
    rw [insert, if_neg (fun hlt : name < k => String.lt_irrefl k (String.lt_trans hk hlt)),
      if_neg (fun he : name = k => String.lt_irrefl k (he ▸ hk)), ih fun p hp => h p (List.mem_cons_of_mem _ hp)]
    rfl

/-- Ordered members are gathered as they are. -/
theorem ofList_of_ordered {ms : Members} (h : Ordered ms) : ofList ms = ms := by
  have hfold (done : Members) (hdone : ∀ p ∈ done, ∀ q ∈ ms, p.1 < q.1) :
      ms.foldl (fun ms p => insert p.1 p.2 ms) done = done ++ ms := by
    induction ms generalizing done with
    | nil => simp
    | cons q ms ih =>
      rw [List.foldl_cons, insert_of_forall_lt fun p hp => hdone p hp q (List.mem_cons_self ..), ih h.2]
      · rw [List.append_assoc, List.singleton_append]
      · intro p hp r hr
        rcases List.mem_append.1 hp with hp | hp
        · exact hdone p hp r (List.mem_cons_of_mem _ hr)
        · rw [List.mem_singleton.1 hp]
          exact h.1 r hr
  exact hfold [] fun p hp => absurd hp List.not_mem_nil

end Members

end TableJson
