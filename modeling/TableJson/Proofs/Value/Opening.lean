import TableJson.Proofs.Value.Gathering
import TableJson.Value.Step

/-!
# Opening — what a step makes of a value

A step opens a value: null becomes a container, an array grows up to the index, a name that is missing comes into
being.  `Opened` says what that does: what is made is null, what was there stays, and whatever is then put in the place
of the child, all other steps read as before.

There is room for as many items as an index asks for.
-/

namespace TableJson

/-! ## Members -/

namespace Members

variable (name : String) (v w : Value) (ms : Members)

theorem insert_insert_self : insert name v (insert name w ms) = insert name v ms := by
  have hself : ¬ name < name := String.lt_irrefl name
  induction ms with
  | nil => simp only [insert, if_neg hself, if_pos]
  | cons p ms ih =>
    obtain ⟨k, u⟩ := p
    by_cases hlt : name < k
    · simp only [insert, if_pos hlt, if_neg hself, if_pos]
    · by_cases hk : name = k
      · subst hk
        simp only [insert, if_neg hself, if_pos]
      · simp only [insert, if_neg hlt, if_neg hk, ih]

variable {name v ms}

/-- Putting in what is there changes nothing. -/
theorem insert_of_find? (hms : Ordered ms) (h : find? name ms = some v) : insert name v ms = ms := by
  induction ms with
  | nil => simp at h
  | cons p ms ih =>
    obtain ⟨k, u⟩ := p
    have hlt : ¬ name < k := not_lt_of_find? hms h
    by_cases hk : name = k
    · subst hk
      rw [find?, if_pos rfl] at h
      rw [insert, if_neg hlt, if_pos rfl, Option.some.inj h]
    · rw [find?, if_neg hk] at h
      rw [insert, if_neg hlt, if_neg hk, ih hms.2 h]

theorem reserve_of_find? (h : find? name ms = some v) : reserve name ms = ms := by
  rw [reserve, h]
  rfl

theorem reserve_of_none (h : find? name ms = none) : reserve name ms = insert name .null ms := by
  rw [reserve, h]
  rfl

/-- The second look finds a member: the one that was there, or null. -/
theorem find?_reserve (name : String) (ms : Members) :
    find? name (reserve name ms) = some ((find? name ms).getD .null) := by
  cases h : find? name ms with
  | none => rw [reserve_of_none h, find?_insert_self, Option.getD_none]
  | some v => rw [reserve_of_find? h, h, Option.getD_some]

theorem find?_reserve_of_ne {name key : String} (h : key ≠ name) (ms : Members) :
    find? key (reserve name ms) = find? key ms := by
  cases hname : find? name ms with
  | none => rw [reserve_of_none hname, find?_insert_of_ne _ _ h]
  | some v => rw [reserve_of_find? hname]

end Members

namespace Value

/-! ## Opening a value at a step -/

section Opening

variable {v : Value}

/-- The items, with nulls behind them up to an index. -/
def grow (i : Nat) (items : List Value) : List Value := items ++ List.replicate (i + 1 - items.length) null

theorem length_grow (i : Nat) (items : List Value) : (grow i items).length = max items.length (i + 1) := by
  rw [grow, List.length_append, List.length_replicate]
  omega

theorem grow_of_lt {i : Nat} {items : List Value} (h : i < items.length) : grow i items = items := by
  rw [grow, Nat.sub_eq_zero_of_le h, List.replicate_zero, List.append_nil]

/-- Nulls behind the items read like no items. -/
theorem getD_grow (i j : Nat) (items : List Value) : (grow i items)[j]?.getD null = items[j]?.getD null := by
  by_cases hj : j < items.length
  · rw [grow, List.getElem?_append_left hj]
  · rw [grow, List.getElem?_append_right (by omega), List.getElem?_eq_none (by omega : items.length ≤ j),
      List.getElem?_replicate]
    split <;> rfl

theorem itemsOrNew_eq_ok {items : List Value} (h : v.itemsOrNew = .ok items) :
    (v = null ∧ items = []) ∨ v = array items := by
  cases v with
  | null => exact .inl ⟨rfl, (Except.ok.inj h).symm⟩
  | array items' => exact .inr (congrArg array (Except.ok.inj h))
  | _ => cases h

theorem membersOrNew_eq_ok {members : Members} (h : v.membersOrNew = .ok members) :
    (v = null ∧ members = []) ∨ v = object members := by
  cases v with
  | null => exact .inl ⟨rfl, (Except.ok.inj h).symm⟩
  | object members' => exact .inr (congrArg object (Except.ok.inj h))
  | _ => cases h

theorem openAt_index {items : List Value} (h : v.itemsOrNew = .ok items) (i : Nat) :
    v.openAt (.index i) = .ok (array (grow i items), (grow i items).getD i null) := by
  rw [openAt, h]
  rfl

theorem openAt_key {members : Members} (h : v.membersOrNew = .ok members) (name : String) :
    v.openAt (.key name) = .ok (object (Members.reserve name members), (Members.find? name members).getD null) := by
  rw [openAt, h]
  cases hname : Members.find? name members with
  | none =>
    rw [Members.reserve_of_none hname]
    simp [bind, Except.bind, hname, pure, Except.pure]
  | some child =>
    rw [Members.reserve_of_find? hname]
    simp [bind, Except.bind, hname, pure, Except.pure]

/-- A value that opens is null or a container of the right kind. -/
theorem openAt_cases {step : Component} {opened child : Value} (h : v.openAt step = .ok (opened, child)) :
    (∃ i items, step = .index i ∧ v.itemsOrNew = .ok items ∧ opened = array (grow i items) ∧
        child = (grow i items).getD i null) ∨
      ∃ name members, step = .key name ∧ v.membersOrNew = .ok members ∧
        opened = object (Members.reserve name members) ∧ child = (Members.find? name members).getD null := by
  cases step with
  | index i =>
    cases hitems : v.itemsOrNew with
    | error violation => rw [openAt, hitems] at h; cases h
    | ok items =>
      rw [openAt_index hitems] at h
      obtain ⟨rfl, rfl⟩ := Prod.mk.inj (Except.ok.inj h)
      exact Or.inl ⟨i, items, rfl, rfl, rfl, rfl⟩
  | key name =>
    cases hmembers : v.membersOrNew with
    | error violation => rw [openAt, hmembers] at h; cases h
    | ok members =>
      rw [openAt_key hmembers] at h
      obtain ⟨rfl, rfl⟩ := Prod.mk.inj (Except.ok.inj h)
      exact Or.inr ⟨name, members, rfl, rfl, rfl, rfl⟩

/-- What a value is opened to at a step: the child there is the one that was there, or null, and after it was replaced
all other steps read as before. -/
structure Opened (v : Value) (step : Component) (opened child : Value) : Prop where
  child_eq : child = (v.child? step).getD null
  kept {there : Value} (h : v.child? step = some there) : opened = v
  stored (new : Value) : (opened.replaceChild step new).child? step = some new
  others (new : Value) {other : Component} (h : other ≠ step) :
    ((opened.replaceChild step new).child? other).getD null = (v.child? other).getD null
  again (new : Value) : (opened.replaceChild step new).openAt step = .ok (opened.replaceChild step new, new)
  settled (new : Value) : (opened.replaceChild step new).replaceChild step new = opened.replaceChild step new

theorem opened_index {items : List Value} (h : v.itemsOrNew = .ok items) (i : Nat) :
    Opened v (.index i) (array (grow i items)) ((grow i items).getD i null) := by
  have hread (j : Nat) : (v.child? (.index j)).getD null = items[j]?.getD null := by
    rcases itemsOrNew_eq_ok h with ⟨rfl, rfl⟩ | rfl <;> rfl
  have hkey (name : String) : v.child? (.key name) = none := by
    rcases itemsOrNew_eq_ok h with ⟨rfl, rfl⟩ | rfl <;> rfl
  have hi : i < (grow i items).length := by
    rw [length_grow]
    omega
  refine ⟨?_, ?_, ?_, ?_, ?_, ?_⟩
  · rw [List.getD_eq_getElem?_getD, getD_grow, hread]
  · intro there hthere
    rcases itemsOrNew_eq_ok h with ⟨rfl, rfl⟩ | rfl
    · cases hthere
    · rw [grow_of_lt (List.getElem?_eq_some_iff.1 hthere).1]
  · intro new
    exact List.getElem?_set_self hi
  · intro new other hother
    cases other with
    | key name => rw [hkey]; rfl
    | index j =>
      have hne : i ≠ j := by
        rintro rfl
        exact hother rfl
      change ((grow i items).set i new)[j]?.getD null = _
      rw [List.getElem?_set_ne hne, getD_grow, hread]
  · intro new
    have hopen := openAt_index (v := array ((grow i items).set i new)) rfl i
    have hgrown : grow i ((grow i items).set i new) = (grow i items).set i new :=
      grow_of_lt (List.length_set.symm ▸ hi)
    rwa [hgrown, List.getD_eq_getElem?_getD, List.getElem?_set_self hi, Option.getD_some] at hopen
  · intro new
    exact congrArg array (List.set_set ..)

theorem opened_key {members : Members} (h : v.membersOrNew = .ok members) (name : String) :
    Opened v (.key name) (object (Members.reserve name members)) ((Members.find? name members).getD null) := by
  have hread (key : String) : v.child? (.key key) = Members.find? key members := by
    rcases membersOrNew_eq_ok h with ⟨rfl, rfl⟩ | rfl <;> rfl
  have hindex (i : Nat) : v.child? (.index i) = none := by
    rcases membersOrNew_eq_ok h with ⟨rfl, rfl⟩ | rfl <;> rfl
  refine ⟨?_, ?_, ?_, ?_, ?_, ?_⟩
  · rw [hread]
  · intro there hthere
    rw [hread] at hthere
    rcases membersOrNew_eq_ok h with ⟨rfl, rfl⟩ | rfl
    · cases hthere
    · rw [Members.reserve_of_find? hthere]
  · intro new
    exact Members.find?_insert_self name new _
  · intro new other hother
    cases other with
    | index i => rw [hindex]; rfl
    | key key =>
      have hne : key ≠ name := by
        rintro rfl
        exact hother rfl
      change (Members.find? key (Members.insert name new _)).getD null = _
      rw [Members.find?_insert_of_ne _ _ hne, Members.find?_reserve_of_ne hne, hread]
  · intro new
    have hthere := Members.find?_insert_self name new (Members.reserve name members)
    have hopen := openAt_key (v := object (Members.insert name new (Members.reserve name members))) rfl name
    rwa [Members.reserve_of_find? hthere, hthere] at hopen
  · intro new
    exact congrArg object (Members.insert_insert_self ..)

theorem opened_of_openAt {step : Component} {opened child : Value} (h : v.openAt step = .ok (opened, child)) :
    Opened v step opened child := by
  rcases openAt_cases h with ⟨i, items, rfl, hitems, rfl, rfl⟩ | ⟨name, members, rfl, hmembers, rfl, rfl⟩
  · exact opened_index hitems i
  · exact opened_key hmembers name

end Opening

end Value

end TableJson
