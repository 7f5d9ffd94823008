import TableJson.Proofs.Value.Norm

/-!
# Unsigned values — integers without a needless sign

`Value.unsigned` is a value with its integers unsigned where they are not negative; nothing else is changed, and what
is not finite stays as it is.  Where all reals are finite that is what text keeps of a value (`norm_eq_unsigned`).
-/

namespace TableJson.Value

mutual

/-- The value with every integer unsigned that is not negative. -/
def unsigned : Value → Value
  | .integer n => if 0 ≤ n.toInt then .uinteger (.ofNat n.toInt.toNat) else .integer n
  | .array items => .array (unsignedItems items)
  | .object members => .object (unsignedMembers members)
  | v => v

@[inherit_doc unsigned]
def unsignedItems : List Value → List Value
  | [] => []
  | v :: vs => unsigned v :: unsignedItems vs

@[inherit_doc unsigned]
def unsignedMembers : List (String × Value) → List (String × Value)
  | [] => []
  | (name, v) :: ms => (name, unsigned v) :: unsignedMembers ms

end

mutual

/-- Every real in the value is finite. -/
def RealsFinite : Value → Prop
  | .real x => x.isFinite = true
  | .array items => RealsFiniteItems items
  | .object members => RealsFiniteMembers members
  | _ => True

@[inherit_doc RealsFinite]
def RealsFiniteItems : List Value → Prop
  | [] => True
  | v :: vs => RealsFinite v ∧ RealsFiniteItems vs

@[inherit_doc RealsFinite]
def RealsFiniteMembers : List (String × Value) → Prop
  | [] => True
  | (_, v) :: ms => RealsFinite v ∧ RealsFiniteMembers ms

end

mutual

/-- Text keeps the integers unsigned, and the reals if they are finite. -/
theorem norm_eq_unsigned : ∀ v : Value, v.RealsFinite → v.norm = v.unsigned
  | .null, _ => rfl
  | .boolean _, _ => rfl
  | .integer _, _ => rfl
  | .uinteger _, _ => rfl
  | .real _, h => if_pos h
  | .string _, _ => rfl
  | .array items, h => congrArg array (normItems_eq_unsigned items h)
  | .object members, h => congrArg object (normMembers_eq_unsigned members h)

theorem normItems_eq_unsigned : ∀ items : List Value, RealsFiniteItems items → normItems items = unsignedItems items
  | [], _ => rfl
  | v :: vs, h => by rw [normItems, unsignedItems, norm_eq_unsigned v h.1, normItems_eq_unsigned vs h.2]

theorem normMembers_eq_unsigned : ∀ members : List (String × Value), RealsFiniteMembers members →
    normMembers members = unsignedMembers members
  | [], _ => rfl
  | (name, v) :: ms, h => by
    rw [normMembers, unsignedMembers, norm_eq_unsigned v h.1, normMembers_eq_unsigned ms h.2]

end

mutual

/-- What is unsigned stays as it is. -/
theorem unsigned_unsigned : ∀ v : Value, v.unsigned.unsigned = v.unsigned
  | .null => rfl
  | .boolean _ => rfl
  | .integer n => by
    rw [unsigned]
    split
    · rfl
    · rename_i h
      rw [unsigned, if_neg h]
  | .uinteger _ => rfl
  | .real _ => rfl
  | .string _ => rfl
  | .array items => congrArg array (unsignedItems_unsigned items)
  | .object members => congrArg object (unsignedMembers_unsigned members)

theorem unsignedItems_unsigned : ∀ items : List Value, unsignedItems (unsignedItems items) = unsignedItems items
  | [] => rfl
  | v :: vs => by rw [unsignedItems, unsignedItems, unsigned_unsigned v, unsignedItems_unsigned vs]

theorem unsignedMembers_unsigned : ∀ members : List (String × Value),
    unsignedMembers (unsignedMembers members) = unsignedMembers members
  | [] => rfl
  | (name, v) :: ms => by rw [unsignedMembers, unsignedMembers, unsigned_unsigned v, unsignedMembers_unsigned ms]

end

theorem map_fst_unsignedMembers (ms : List (String × Value)) : (unsignedMembers ms).map Prod.fst = ms.map Prod.fst := by
  induction ms with
  | nil => rfl
  | cons p ms ih => rw [unsignedMembers, List.map_cons, ih, List.map_cons]

mutual

theorem wellFormed_unsigned : ∀ v : Value, v.WellFormed → v.unsigned.WellFormed
  | .null, h => h
  | .boolean _, h => h
  | .integer n, _ => by
    rw [unsigned]
    split <;> trivial
  | .uinteger _, h => h
  | .real _, h => h
  | .string _, h => h
  | .array items, h => wellFormedItems_unsigned items h
  | .object members, h =>
    ⟨(Members.ordered_congr (map_fst_unsignedMembers members)).2 h.1, wellFormedMembers_unsigned members h.2⟩

theorem wellFormedItems_unsigned : ∀ items : List Value, WellFormedItems items → WellFormedItems (unsignedItems items)
  | [], h => h
  | v :: vs, h => ⟨wellFormed_unsigned v h.1, wellFormedItems_unsigned vs h.2⟩

theorem wellFormedMembers_unsigned : ∀ members : List (String × Value), WellFormedMembers members →
    WellFormedMembers (unsignedMembers members)
  | [], h => h
  | (_, v) :: ms, h => ⟨wellFormed_unsigned v h.1, wellFormedMembers_unsigned ms h.2⟩

end

end TableJson.Value
