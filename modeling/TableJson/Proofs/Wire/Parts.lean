import Mathlib.Data.List.Forall2
import TableJson.Proofs.Wire.RoundTrip

/-!
# Parts — layouts cut into the layouts of what they hold

The bytes of a container are its tag, a count and so many parts, each of which a reader takes by itself.

* `Takes.parts_unique`: bytes are cut in one way only into so many parts.
* `layout_induction`: what holds of scalars, and of containers whose parts it holds of, holds of every layout.
* `fitting_of_layout`: what is laid out can be written, and read again with as many levels.
-/

namespace TableJson.Wire

/-! ## Parts, one after another -/

section Parts

variable {β : Type} {P : List UInt8 → β → Prop} {R : List UInt8 → List β → Prop} {r : Reader β}

/-- Where `R` spells several things by spelling each of them by `P`, its spellings are cut into parts. -/
theorem iff_parts (hnil : ∀ e, R e [] ↔ e = [])
    (hcons : ∀ e b bs, R e (b :: bs) ↔ ∃ e₁ e₂, e = e₁ ++ e₂ ∧ P e₁ b ∧ R e₂ bs) {e : List UInt8} {bs : List β} :
    R e bs ↔ ∃ parts : List (List UInt8), e = parts.flatten ∧ List.Forall₂ P parts bs := by
  induction bs generalizing e with
  | nil =>
    rw [hnil]
    constructor
    · rintro rfl
      exact ⟨[], rfl, .nil⟩
    · rintro ⟨parts, rfl, h⟩
      cases h
      rfl
  | cons b bs ih =>
    rw [hcons]
    constructor
    · rintro ⟨first, others, rfl, hfirst, hothers⟩
      obtain ⟨parts, rfl, hparts⟩ := ih.1 hothers
      exact ⟨first :: parts, rfl, .cons hfirst hparts⟩
    · rintro ⟨_, rfl, h⟩
      cases h with
      | @cons first _ parts _ hfirst hparts => exact ⟨first, parts.flatten, rfl, hfirst, ih.2 ⟨parts, rfl, hparts⟩⟩

/-- Bytes are cut in one way only into so many parts that a reader takes. -/
theorem Takes.parts_unique (hr : Takes r P) {parts parts' : List (List UInt8)} {bs bs' : List β}
    (h : List.Forall₂ P parts bs) (h' : List.Forall₂ P parts' bs') (hlength : bs.length = bs'.length)
    (heq : parts.flatten = parts'.flatten) : parts = parts' ∧ bs = bs' := by
  induction h generalizing parts' bs' with
  | nil =>
    obtain rfl := List.eq_nil_of_length_eq_zero hlength.symm
    cases h'
    exact ⟨rfl, rfl⟩
  | cons hfirst hparts ih =>
    cases h' with
    | nil => simp at hlength
    | cons hfirst' hparts' =>
      obtain ⟨rfl, rfl, hrest⟩ := hr.unique hfirst hfirst' heq
      obtain ⟨rfl, rfl⟩ := ih hparts' (Nat.succ.inj hlength) hrest
      exact ⟨rfl, rfl⟩

theorem forall₂_and_right {p : β → Prop} {parts : List (List UInt8)} {bs : List β} (h : List.Forall₂ P parts bs)
    (hp : ∀ b ∈ bs, p b) : List.Forall₂ (fun e b => P e b ∧ p b) parts bs := by
  induction h with
  | nil => exact .nil
  | cons hfirst _ ih =>
    obtain ⟨hb, hbs⟩ := List.forall_mem_cons.1 hp
    exact .cons ⟨hfirst, hb⟩ (ih hbs)

theorem forall_of_forall₂ {p : β → Prop} {parts : List (List UInt8)} {bs : List β} (h : List.Forall₂ P parts bs)
    (hp : ∀ e b, P e b → p b) : ∀ b ∈ bs, p b := by
  induction h with
  | nil => exact fun b hb => absurd hb List.not_mem_nil
  | cons hfirst _ ih => exact List.forall_mem_cons.2 ⟨hp _ _ hfirst, ih⟩

theorem exists_of_mem_parts {parts : List (List UInt8)} {bs : List β} (h : List.Forall₂ P parts bs)
    {part : List UInt8} (hpart : part ∈ parts) : ∃ b, P part b := by
  induction h with
  | nil => exact absurd hpart List.not_mem_nil
  | cons hfirst _ ih =>
    rcases List.mem_cons.1 hpart with rfl | hpart
    · exact ⟨_, hfirst⟩
    · exact ih hpart

end Parts

/-- A name with its length before it, and a value by `P`. -/
def Entry (P : List UInt8 → Value → Prop) (e : List UInt8) (p : String × Value) : Prop :=
  ∃ label first, e = label ++ first ∧ Spelled label p.1 ∧ P first p.2

section Containers

variable {levels : Nat} {e : List UInt8}

theorem items_iff_parts {vs : List Value} :
    Items levels e vs ↔ ∃ parts : List (List UInt8), e = parts.flatten ∧ List.Forall₂ (Layout levels) parts vs :=
  iff_parts (fun _ => items_nil_iff) fun _ _ _ => items_cons_iff

theorem pairs_iff_parts {ps : List (String × Value)} :
    Pairs levels e ps ↔
      ∃ parts : List (List UInt8), e = parts.flatten ∧ List.Forall₂ (Entry (Layout levels)) parts ps :=
  iff_parts (fun _ => pairs_nil_iff) fun _ _ _ => pairs_cons_iff

theorem encodeItems_iff_parts {vs : List Value} :
    encodeItems vs = .ok e ↔
      ∃ parts : List (List UInt8), e = parts.flatten ∧ List.Forall₂ (fun e v => encode v = .ok e) parts vs := by
  refine iff_parts (R := fun e vs => encodeItems vs = .ok e) (fun e => ?_) fun e v vs => ?_
  · rw [encodeItems, Except.ok.injEq, eq_comm]
  · rw [encodeItems_cons_iff]
    constructor
    · rintro ⟨first, others, hfirst, hothers, rfl⟩
      exact ⟨first, others, rfl, hfirst, hothers⟩
    · rintro ⟨first, others, rfl, hfirst, hothers⟩
      exact ⟨first, others, hfirst, hothers, rfl⟩

theorem encodeMembers_iff_parts {ms : List (String × Value)} :
    encodeMembers ms = .ok e ↔
      ∃ parts : List (List UInt8), e = parts.flatten ∧
        List.Forall₂ (Entry fun e v => encode v = .ok e) parts ms := by
  refine iff_parts (R := fun e ms => encodeMembers ms = .ok e) (fun e => ?_) fun e p ms => ?_
  · rw [encodeMembers, Except.ok.injEq, eq_comm]
  · obtain ⟨name, v⟩ := p
    rw [encodeMembers_cons_iff]
    constructor
    · rintro ⟨label, first, others, hlabel, hfirst, hothers, rfl⟩
      exact ⟨label ++ first, others, rfl, ⟨label, first, rfl, hlabel, hfirst⟩, hothers⟩
    · rintro ⟨_, others, rfl, ⟨label, first, rfl, hlabel, hfirst⟩, hothers⟩
      exact ⟨label, first, others, hlabel, hfirst, hothers, rfl⟩

end Containers

/-! ## What a layout can be -/

/-- What stands after the tag of a value that is no container is what would be written. -/
theorem encode_of_payload {levels : Nat} {kind : Kind} {bytes : List UInt8} {v : Value}
    (h : Payload levels kind bytes v) (hv : v.isScalar = true) : encode v = .ok (tagByte kind :: bytes) := by
  cases h with
  | null => rfl
  | boolean => rfl
  | integer => rfl
  | uinteger => rfl
  | real => rfl
  | string _ hspelled => exact encode_string_iff.2 ⟨_, hspelled, rfl⟩
  | array => cases hv
  | object => cases hv

/-- What holds of every scalar, and of every container whose parts it holds of, holds of every layout. -/
theorem layout_induction {motive : Nat → List UInt8 → Value → Prop}
    (scalar : ∀ levels e v, v.isScalar = true → encode v = .ok e → motive levels e v)
    (array : ∀ levels parts items, items.length < 2 ^ (32 : Nat) →
      List.Forall₂ (fun e v => Layout levels e v ∧ motive levels e v) parts items →
      motive (levels + 1) (tagByte .array :: (bigEndian 4 items.length ++ parts.flatten)) (.array items))
    (object : ∀ levels parts pairs, pairs.length < 2 ^ (32 : Nat) →
      List.Forall₂ (Entry fun e v => Layout levels e v ∧ motive levels e v) parts pairs →
      motive (levels + 1) (tagByte .object :: (bigEndian 4 pairs.length ++ parts.flatten))
        (.object (Members.ofList pairs)))
    {levels : Nat} {e : List UInt8} {v : Value} (h : Layout levels e v) : motive levels e v := by
  induction levels generalizing e v with
  | zero =>
    cases h with
    | tagged payload =>
      refine scalar _ _ _ ?_ (encode_of_payload payload ?_) <;> cases payload <;> rfl
  | succ levels ih =>
    cases h with
    | tagged payload =>
      by_cases hv : v.isScalar = true
      · exact scalar _ _ _ hv (encode_of_payload payload hv)
      · cases payload with
        | null => exact absurd rfl hv
        | boolean => exact absurd rfl hv
        | integer => exact absurd rfl hv
        | uinteger => exact absurd rfl hv
        | real => exact absurd rfl hv
        | string => exact absurd rfl hv
        | array count each =>
          obtain ⟨parts, rfl, hparts⟩ := items_iff_parts.1 each
          exact array levels parts _ count (hparts.imp fun e v hv => ⟨hv, ih hv⟩)
        | object count each gathers =>
          obtain ⟨parts, rfl, hparts⟩ := pairs_iff_parts.1 each
          obtain rfl := Members.gathers_iff.1 gathers
          refine object levels parts _ count (hparts.imp fun e p hp => ?_)
          obtain ⟨label, first, rfl, hlabel, hfirst⟩ := hp
          exact ⟨label, first, rfl, hlabel, hfirst, ih hfirst⟩

/-- A value with a layout of so many levels. -/
structure Fitting (levels : Nat) (v : Value) : Prop where
  wellFormed : v.WellFormed
  measured : v.Measured
  nesting_le : v.nesting ≤ levels

theorem fitting_scalar {levels : Nat} {v : Value} {e : List UInt8} (hv : v.isScalar = true) (he : encode v = .ok e) :
    Fitting levels v := by
  cases v with
  | array => cases hv
  | object => cases hv
  | string text =>
    obtain ⟨bytes, hspelled, rfl⟩ := encode_string_iff.1 he
    exact ⟨trivial, hspelled.1, Nat.zero_le levels⟩
  | _ => exact ⟨trivial, trivial, Nat.zero_le levels⟩

theorem fitting_array {levels : Nat} {items : List Value} (hcount : items.length < 2 ^ (32 : Nat))
    (h : ∀ v ∈ items, Fitting levels v) : Fitting (levels + 1) (.array items) where
  wellFormed := Value.wellFormed_array_iff.2 fun v hv => (h v hv).wellFormed
  measured := ⟨hcount, Value.measuredItems_of_forall fun v hv => (h v hv).measured⟩
  nesting_le :=
    Nat.succ_le_succ ((Value.nestingItems_le_iff_forall items levels).2 fun v hv => (h v hv).nesting_le)

theorem fitting_object {levels : Nat} {ms : Members} (hms : Members.Ordered ms) (hcount : ms.length < 2 ^ (32 : Nat))
    (h : ∀ p ∈ ms, Measured p.1 ∧ Fitting levels p.2) : Fitting (levels + 1) (.object ms) where
  wellFormed := Value.wellFormed_object_iff.2 ⟨hms, fun p hp => (h p hp).2.wellFormed⟩
  measured := ⟨hcount, Value.measuredMembers_of_forall fun p hp => ⟨(h p hp).1, (h p hp).2.measured⟩⟩
  nesting_le := by
    rw [Value.nesting, Value.nestingMembers_eq]
    refine Nat.succ_le_succ ((Value.nestingItems_le_iff_forall _ levels).2 ?_)
    exact List.forall_mem_map.2 fun p hp => (h p hp).2.nesting_le

/-- What is laid out can be written, and read again with as many levels. -/
theorem fitting_of_layout {levels : Nat} {e : List UInt8} {v : Value} (h : Layout levels e v) : Fitting levels v := by
  refine layout_induction (motive := fun levels _ v => Fitting levels v) ?_ ?_ ?_ h
  · intro levels e v hv he
    exact fitting_scalar hv he
  · intro levels parts items hcount hparts
    exact fitting_array hcount (forall_of_forall₂ hparts fun _ _ h => h.2)
  · intro levels parts pairs hcount hparts
    have hpairs : ∀ p ∈ pairs, Measured p.1 ∧ Fitting levels p.2 := by
      refine forall_of_forall₂ hparts fun e p hp => ?_
      obtain ⟨label, first, -, hlabel, -, hfirst⟩ := hp
      exact ⟨hlabel.1, hfirst⟩
    exact fitting_object (Members.ordered_ofList pairs)
      (Nat.lt_of_le_of_lt (Members.length_ofList_le pairs) hcount) fun p hp => hpairs p (Members.mem_ofList hp)

end TableJson.Wire
