import TableJson.Proofs.Machine.Text
import TableJson.Proofs.Value.Reparse
import TableJson.Proofs.Wire.RoundTrip

/-!
# Extent — values from text are no larger than the text

What a string denotes takes no more bytes than the string, and a container has no more entries than its text has bytes.
So the value of a text of less than 4 GiB has an encoding (`Tree.measured`).
-/

namespace TableJson

open Utf8

/-! ## Strings -/

namespace Text.Utf16

/-- One unit more spells four bytes more at most. -/
theorem size_decode_cons_le (u : Nat) (us : List Nat) : size (decode (u :: us)) ≤ size (decode us) + 4 := by
  have hsingle (h : decode (u :: us) = single u :: decode us) : size (decode (u :: us)) ≤ size (decode us) + 4 := by
    have := (single u).utf8Size_le_four
    rw [h, size_cons]
    omega
  cases us with
  | nil => exact hsingle rfl
  | cons v us =>
    by_cases hpair : (isHighSurrogate u && isLowSurrogate v) = true
    · -- the second half alone spells something too
      obtain ⟨hu, hv⟩ := Bool.and_eq_true_iff.1 hpair
      have hlow : ¬ isHighSurrogate v = true := by
        simp only [isHighSurrogate, isLowSurrogate, decide_eq_true_eq] at hv ⊢
        omega
      have := (pairChar u v).utf8Size_le_four
      rw [decode_pair hu hv, decode_cons fun h => absurd h hlow, size_cons, size_cons]
      omega
    · refine hsingle ?_
      rw [decode, if_neg hpair]

end Text.Utf16

namespace Grammar

open Text

theorem Piece.size_decode_le (p : Piece) (us : List Nat) :
    size (Utf16.decode (p.units ++ us)) ≤ size p.text + size (Utf16.decode us) := by
  cases p with
  | plain c isPlain =>
    rw [units, text, Utf16.decode_units_append, size_cons, size_cons, size_nil, Nat.add_zero]
  | short marker c known =>
    have hc : ∀ p ∈ shortEscapes, p.2.utf8Size = 1 ∧ p.1.utf8Size = 1 := by decide
    obtain ⟨hc, hmarker⟩ := hc _ known
    rw [units, text, Utf16.decode_units_append, size_cons, size_cons, size_cons, hc, hmarker]
    omega
  | unit marker x y z w isMarker hex =>
    have hsize : 6 ≤ size ['\\', marker, x, y, z, w] := length_le_size ['\\', marker, x, y, z, w]
    have := Utf16.size_decode_cons_le (hexUnit x y z w) us
    rw [units, text, List.singleton_append]
    omega

/-- A string denotes no more bytes than it takes. -/
theorem Quoted.size_value_le (q : Quoted) : size q.value.toList ≤ size q.text := by
  have hbody : size (Utf16.decode (units q)) ≤ size (body q) := by
    induction q with
    | nil => exact Nat.le_refl _
    | cons p q ih =>
      have := p.size_decode_le (units q)
      rw [units_cons, body_cons, size_append]
      omega
  rw [value, String.toList_ofList, text, size_cons, size_append]
  omega

end Grammar

/-! ## Trees -/

namespace Grammar

/-- Entries with names and values that have an encoding, no more of them than `cs` has bytes. -/
structure Holds (cs : List Char) (values : List (String × Value)) : Prop where
  length_le : values.length ≤ size cs
  measured : size cs < 2 ^ (32 : Nat) → ∀ p ∈ values, Measured p.1 ∧ p.2.Measured

theorem Holds.append {cs : List Char} {values : List (String × Value)} (h : Holds cs values) (ds : List Char) :
    Holds (ds ++ cs) values := by
  have hsize : size cs ≤ size (ds ++ cs) := by
    rw [size_append]
    omega
  exact ⟨Nat.le_trans h.length_le hsize, fun hds => h.measured (Nat.lt_of_le_of_lt hsize hds)⟩

theorem holds_nil : Holds [] [] := ⟨Nat.le_refl _, fun _ _ hp => absurd hp List.not_mem_nil⟩

theorem Tree.size_pos (t : Tree) : 0 < size t.text := by
  refine Utf8.size_pos ?_
  cases t with
  | null => simp [Tree.text, nullText]
  | boolean b => cases b <;> simp [Tree.text, booleanText]
  | number l =>
    have hintegral : l.integral ≠ [] := by
      intro h
      have := h ▸ l.isIntegral
      cases this
    simp [Tree.text, Literal.text, hintegral]
  | string q => simp [Tree.text, Quoted.text]
  | container kind opening body closing => simp [Tree.text, Around.text]

theorem Literal.measured (l : Literal) : l.scalar.toValue.Measured := by
  unfold scalar
  split
  · split <;> trivial
  · trivial

section Entries

variable {kind : ContainerKind}

theorem Label.measured (label : Label kind) (h : size label.text < 2 ^ (32 : Nat)) : Measured label.name := by
  cases label with
  | item => exact Nat.pow_pos (by decide)
  | member name colon =>
    refine Nat.lt_of_le_of_lt name.size_value_le (Nat.lt_of_le_of_lt ?_ h)
    rw [Label.text, size_append]
    omega

theorem holds_entries {t : Tree} {rest : Rest kind} (label : Label kind)
    (ht : size t.text < 2 ^ (32 : Nat) → t.value.Measured) (hrest : Holds rest.text rest.values) :
    Holds (label.text ++ (t.text ++ rest.text)) ((label.name, t.value) :: rest.values) := by
  have hpos := t.size_pos
  have hlength := hrest.length_le
  rw [← List.append_assoc] at *
  refine ⟨?_, fun h => List.forall_mem_cons.2 ⟨⟨label.measured ?_, ht ?_⟩, hrest.measured ?_⟩⟩
  · rw [List.length_cons, size_append, size_append]
    omega
  all_goals
    rw [size_append, size_append] at h
    omega

end Entries

theorem measured_container {kind : ContainerKind} {body : Body kind} (hbody : Holds body.text body.values)
    {opening closing : Around} (h : size (Tree.container kind opening body closing).text < 2 ^ (32 : Nat)) :
    (Tree.container kind opening body closing).value.Measured := by
  have hsize : size body.text < 2 ^ (32 : Nat) := by
    rw [Tree.text, size_append, size_append] at h
    omega
  have hlength := hbody.length_le
  have hvalues := hbody.measured hsize
  cases kind with
  | array =>
    refine ⟨?_, Value.measuredItems_of_forall (List.forall_mem_map.2 fun p hp => (hvalues p hp).2)⟩
    rw [List.length_map]
    omega
  | object =>
    have := Members.length_ofList_le body.values
    exact ⟨by omega, Value.measuredMembers_of_forall fun p hp => hvalues p (Members.mem_ofList hp)⟩

mutual

/-- The value of a text of less than 4 GiB has lengths that can be written. -/
theorem Tree.measured : ∀ t : Tree, size t.text < 2 ^ (32 : Nat) → t.value.Measured
  | .null, _ => trivial
  | .boolean _, _ => trivial
  | .number l, _ => l.measured
  | .string q, h => Nat.lt_of_le_of_lt q.size_value_le h
  | .container _ _ body _, h => measured_container (Body.holds body) h

theorem Body.holds : ∀ {kind : ContainerKind} (body : Body kind), Holds body.text body.values
  | _, .empty _ => holds_nil
  | _, .entries label first rest => holds_entries label (Tree.measured first) (Rest.holds rest)

theorem Rest.holds : ∀ {kind : ContainerKind} (rest : Rest kind), Holds rest.text rest.values
  | _, .nil _ => holds_nil
  | _, .cons _ label entry rest => (holds_entries label (Tree.measured entry) (Rest.holds rest)).append _

end

end Grammar

end TableJson
