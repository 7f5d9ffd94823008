import TableJson.Proofs.Value.Norm

/-!
# Gathering — members from a list of pairs

`Gathers pairs ms` says what the members of a list of pairs are: they are ordered by name, and under each name stands
the value of the last pair with that name.  There is one such list of members, and `ofList` finds it
(`gathers_iff`).

Every member is one of the pairs (`mem_ofList`), and together they weigh no more, whatever is weighed
(`sum_ofList_le`).
-/

namespace TableJson.Members

-- sums start from the zero of the core library, whatever else is in scope
attribute [scoped instance (2000)] Zero.ofOfNat0

/-- Ordered members, with the last of the pairs under each name. -/
structure Gathers (pairs : List (String × Value)) (ms : Members) : Prop where
  ordered : Ordered ms
  last (name : String) : find? name ms = find? name pairs.reverse

section Find

variable (name key : String) (v : Value) (ms : Members)

theorem find?_insert : find? key (insert name v ms) = if key = name then some v else find? key ms := by
  split
  · rename_i h
    rw [h, find?_insert_self]
  · rename_i h
    exact find?_insert_of_ne v ms h

theorem find?_append (ns : Members) : find? name (ms ++ ns) = (find? name ms).or (find? name ns) := by
  induction ms with
  | nil => rfl
  | cons p ms ih =>
    obtain ⟨k, w⟩ := p
    rw [List.cons_append, find?, find?, ih]
    split <;> rfl

end Find

/-- The last of several pairs with one name stays. -/
theorem find?_ofList (pairs : List (String × Value)) (name : String) :
    find? name (ofList pairs) = find? name pairs.reverse := by
  have hfold (done : Members) : find? name (pairs.foldl (fun ms p => insert p.1 p.2 ms) done) =
      (find? name pairs.reverse).or (find? name done) := by
    induction pairs generalizing done with
    | nil => rfl
    | cons p pairs ih =>
      obtain ⟨k, v⟩ := p
      rw [List.foldl_cons, ih, find?_insert, List.reverse_cons, find?_append, Option.or_assoc, find?]
      split <;> rfl
  rw [ofList, hfold, find?_nil, Option.or_none]

/-- No name that is found comes before the first one. -/
theorem not_lt_of_find? {key l : String} {v w : Value} {ms : Members} (h : Ordered ((l, w) :: ms))
    (hfind : find? key ((l, w) :: ms) = some v) : ¬ key < l := by
  intro hlt
  have hall : ∀ p ∈ (l, w) :: ms, key < p.1 :=
    List.forall_mem_cons.2 ⟨hlt, fun p hp => String.lt_trans hlt (h.1 p hp)⟩
  rw [find?_eq_none_of_forall_lt hall] at hfind
  simp at hfind

/-- Ordered members are told apart by what they hold under each name. -/
theorem eq_of_find? : ∀ {ms ns : Members}, Ordered ms → Ordered ns → (∀ name, find? name ms = find? name ns) → ms = ns
  | [], [], _, _, _ => rfl
  | [], (l, w) :: ns, _, _, h => by
    have hl := h l
    simp [find?] at hl
  | (k, v) :: ms, [], _, _, h => by
    have hk := h k
    simp [find?] at hk
  | (k, v) :: ms, (l, w) :: ns, hms, hns, h => by
    have hk : find? k ((k, v) :: ms) = some v := if_pos rfl
    have hl : find? l ((l, w) :: ns) = some w := if_pos rfl
    -- the smaller of the two first names would be missing on the other side
    have hkl : ¬ k < l := not_lt_of_find? hns ((h k).symm.trans hk)
    have hlk : ¬ l < k := not_lt_of_find? hms ((h l).trans hl)
    obtain rfl : k = l := Decidable.byContradiction fun hne => hlk (lt_of_not_lt_of_ne hkl hne)
    have hv : v = w := by simpa [find?] using h k
    have htail : ms = ns := by
      refine eq_of_find? hms.2 hns.2 fun name => ?_
      by_cases hname : name = k
      · subst hname
        rw [find?_eq_none_of_forall_lt hms.1, find?_eq_none_of_forall_lt hns.1]
      · have := h name
        rwa [find?, find?, if_neg hname, if_neg hname] at this
    rw [hv, htail]

/-- The members that are gathered from some pairs, and no others. -/
theorem gathers_iff {pairs : List (String × Value)} {ms : Members} : Gathers pairs ms ↔ ms = ofList pairs := by
  constructor
  · intro h
    exact eq_of_find? h.ordered (ordered_ofList pairs) fun name => by rw [h.last, find?_ofList]
  · rintro rfl
    exact ⟨ordered_ofList pairs, find?_ofList pairs⟩

/-- Ordered members are gathered from themselves. -/
theorem gathers_self {ms : Members} (h : Ordered ms) : Gathers ms ms := gathers_iff.2 (ofList_of_ordered h).symm

/-! ## What is in them -/

theorem mem_ofList {pairs : List (String × Value)} {p : String × Value} (h : p ∈ ofList pairs) : p ∈ pairs := by
  have hfold : ∀ done : Members, p ∈ pairs.foldl (fun ms p => insert p.1 p.2 ms) done → p ∈ done ∨ p ∈ pairs := by
    clear h
    induction pairs with
    | nil => exact fun done h => Or.inl h
    | cons q pairs ih =>
      intro done h
      rcases ih (insert q.1 q.2 done) h with hp | hp
      · rcases mem_insert hp with rfl | hp
        · exact Or.inr (List.mem_cons_self ..)
        · exact Or.inl hp
      · exact Or.inr (List.mem_cons_of_mem _ hp)
  exact (hfold [] h).resolve_left List.not_mem_nil

theorem find?_eq_some_iff_mem {ms : Members} (h : Ordered ms) (name : String) (v : Value) :
    find? name ms = some v ↔ (name, v) ∈ ms := by
  induction ms with
  | nil => simp
  | cons q ms ih =>
    obtain ⟨k, w⟩ := q
    rw [find?, List.mem_cons]
    by_cases hk : name = k
    · subst hk
      have hnone : (name, v) ∉ ms := fun hm => String.lt_irrefl name (h.1 _ hm)
      simp [hnone, eq_comm]
    · rw [if_neg hk, ih h.2]
      simp [hk]

section Weights

-- what each member weighs
variable (weight : String × Value → Nat)

theorem sum_insert_le (name : String) (v : Value) (ms : Members) :
    ((insert name v ms).map weight).sum ≤ weight (name, v) + (ms.map weight).sum := by
  induction ms with
  | nil => simp [insert]
  | cons p ms ih =>
    obtain ⟨k, w⟩ := p
    unfold insert
    by_cases hlt : name < k
    · refine Nat.le_of_eq ?_
      rw [if_pos hlt, List.map_cons, List.sum_cons]
    · rw [if_neg hlt]
      by_cases hk : name = k
      · subst hk
        simp only [if_pos, List.map_cons, List.sum_cons]
        omega
      · simp only [if_neg hk, List.map_cons, List.sum_cons]
        omega

/-- Members weigh no more than the pairs they are gathered from. -/
theorem sum_ofList_le (pairs : List (String × Value)) :
    ((ofList pairs).map weight).sum ≤ (pairs.map weight).sum := by
  have hfold (done : Members) : ((pairs.foldl (fun ms p => insert p.1 p.2 ms) done).map weight).sum ≤
      (done.map weight).sum + (pairs.map weight).sum := by
    induction pairs generalizing done with
    | nil => simp
    | cons p pairs ih =>
      obtain ⟨k, v⟩ := p
      have htail := ih (insert k v done)
      have hhead := sum_insert_le weight k v done
      simp only [List.foldl_cons, List.map_cons, List.sum_cons]
      omega
  have hnil := hfold []
  rwa [List.map_nil, List.sum_nil, Nat.zero_add] at hnil

theorem length_ofList_le (pairs : List (String × Value)) : (ofList pairs).length ≤ pairs.length := by
  have hone (ms : Members) : (ms.map fun _ => 1).sum = ms.length := by
    rw [List.map_const', List.sum_replicate_nat, Nat.mul_one]
  rw [← hone, ← hone]
  exact sum_ofList_le (fun _ => 1) pairs

end Weights

end TableJson.Members
