import TableJson.Proofs.Text.ByteOrder
import TableJson.Proofs.Wire.Parts

/-!
# Canonical bytes — what is read and written again

Many bytes stand for one value: names may come in any order, and of several pairs with one name the last counts.
Writing the value again sorts the names and leaves out what does not count.

* `Wire.size v`: the number of bytes that `v` is written in; no layout of `v` is shorter (`size_le_of_layout`).
* `LaysOut levels bytes pairs`: somewhere in the bytes an object is laid out, with these pairs in this order, be it
  in a value that does not count.
* `encode_decodeAll`: the bytes written again are read as the same value and are no longer, and they are the bytes
  that were read exactly if every object in those has increasing names.
-/

namespace TableJson.Wire

open scoped Members

/-! ## Size -/

mutual

/-- The number of bytes that a value is written in. -/
def size : Value → Nat
  | .null => 1
  | .boolean _ => 2
  | .integer _ => 9
  | .uinteger _ => 9
  | .real _ => 9
  | .string text => 5 + (Utf8.encode text.toList).length
  | .array items => 5 + sizeItems items
  | .object members => 5 + sizeMembers members

@[inherit_doc size]
def sizeItems : List Value → Nat
  | [] => 0
  | v :: vs => size v + sizeItems vs

@[inherit_doc size]
def sizeMembers : List (String × Value) → Nat
  | [] => 0
  | (name, v) :: ms => 4 + (Utf8.encode name.toList).length + size v + sizeMembers ms

end

/-- The number of bytes that a member is written in. -/
def sizeMember (p : String × Value) : Nat := 4 + (Utf8.encode p.1.toList).length + size p.2

theorem sizeItems_eq (vs : List Value) : sizeItems vs = (vs.map size).sum := by
  induction vs with
  | nil => rfl
  | cons v vs ih => rw [sizeItems, ih, List.map_cons, List.sum_cons]

theorem sizeMembers_eq (ms : List (String × Value)) : sizeMembers ms = (ms.map sizeMember).sum := by
  induction ms with
  | nil => rfl
  | cons p ms ih => rw [sizeMembers, ih, List.map_cons, List.sum_cons, sizeMember]

theorem length_spelled {bytes : List UInt8} {text : String} (h : Spelled bytes text) :
    bytes.length = 4 + (Utf8.encode text.toList).length := by
  rw [h.2, List.length_append, length_bigEndian]

theorem length_counted (tag : UInt8) (n : Nat) (bytes : List UInt8) :
    (tag :: (bigEndian 4 n ++ bytes)).length = 5 + bytes.length := by
  rw [List.length_cons, List.length_append, length_bigEndian]
  omega

theorem size_scalar {v : Value} {e : List UInt8} (hv : v.isScalar = true) (he : encode v = .ok e) :
    size v = e.length := by
  cases v with
  | array => cases hv
  | object => cases hv
  | string text =>
    obtain ⟨bytes, hspelled, rfl⟩ := encode_string_iff.1 he
    rw [size, List.length_cons, length_spelled hspelled]
    omega
  | _ =>
    obtain rfl := Except.ok.inj he
    simp [size]

mutual

theorem size_encode : ∀ (v : Value) {e : List UInt8}, encode v = .ok e → size v = e.length
  | .null, _, he => size_scalar rfl he
  | .boolean _, _, he => size_scalar rfl he
  | .integer _, _, he => size_scalar rfl he
  | .uinteger _, _, he => size_scalar rfl he
  | .real _, _, he => size_scalar rfl he
  | .string _, _, he => size_scalar rfl he
  | .array items, _, he => by
    obtain ⟨-, bytes, hbytes, rfl⟩ := encode_array_iff.1 he
    rw [size, length_counted, size_encodeItems items hbytes]
  | .object members, _, he => by
    obtain ⟨-, bytes, hbytes, rfl⟩ := encode_object_iff.1 he
    rw [size, length_counted, size_encodeMembers members hbytes]

theorem size_encodeItems : ∀ (vs : List Value) {e : List UInt8}, encodeItems vs = .ok e → sizeItems vs = e.length
  | [], _, he => Except.ok.inj he ▸ rfl
  | v :: vs, _, he => by
    obtain ⟨first, others, hfirst, hothers, rfl⟩ := encodeItems_cons_iff.1 he
    rw [sizeItems, size_encode v hfirst, size_encodeItems vs hothers, List.length_append]

theorem size_encodeMembers : ∀ (ms : List (String × Value)) {e : List UInt8}, encodeMembers ms = .ok e →
    sizeMembers ms = e.length
  | [], _, he => Except.ok.inj he ▸ rfl
  | (_, v) :: ms, _, he => by
    obtain ⟨label, first, others, hlabel, hfirst, hothers, rfl⟩ := encodeMembers_cons_iff.1 he
    rw [sizeMembers, size_encode v hfirst, size_encodeMembers ms hothers, ← length_spelled hlabel,
      List.length_append, List.length_append]

end

theorem sum_le_of_forall₂ {β : Type} {weight : β → Nat} {parts : List (List UInt8)} {bs : List β}
    (h : List.Forall₂ (fun e b => weight b ≤ e.length) parts bs) : (bs.map weight).sum ≤ parts.flatten.length := by
  induction h with
  | nil => exact Nat.le_refl _
  | cons hfirst _ ih =>
    rw [List.map_cons, List.sum_cons, List.flatten_cons, List.length_append]
    omega

/-- No layout of a value is shorter than what the value is written in. -/
theorem size_le_of_layout {levels : Nat} {e : List UInt8} {v : Value} (h : Layout levels e v) : size v ≤ e.length := by
  refine layout_induction (motive := fun _ e v => size v ≤ e.length) ?_ ?_ ?_ h
  · intro levels e v hv he
    exact Nat.le_of_eq (size_scalar hv he)
  · intro levels parts items _ hparts
    have hsum : (items.map size).sum ≤ parts.flatten.length := sum_le_of_forall₂ (hparts.imp fun _ _ h => h.2)
    rw [size, sizeItems_eq, length_counted]
    omega
  · intro levels parts pairs _ hparts
    have hsum : (pairs.map sizeMember).sum ≤ parts.flatten.length := by
      refine sum_le_of_forall₂ (hparts.imp fun e p hp => ?_)
      obtain ⟨label, first, rfl, hlabel, -, hfirst⟩ := hp
      rw [sizeMember, List.length_append, length_spelled hlabel]
      omega
    have hgathered := Members.sum_ofList_le sizeMember pairs
    rw [size, sizeMembers_eq, length_counted]
    omega

/-! ## Objects that are laid out -/

/-- Somewhere in the bytes an object is laid out, with `pairs` in the order in which they stand there. -/
inductive LaysOut : Nat → List UInt8 → List (String × Value) → Prop
  | here {levels : Nat} {bytes : List UInt8} {pairs : List (String × Value)} (count : pairs.length < 2 ^ (32 : Nat))
      (each : Pairs levels bytes pairs) :
      LaysOut (levels + 1) (tagByte .object :: (bigEndian 4 pairs.length ++ bytes)) pairs
  | item {levels : Nat} {parts : List (List UInt8)} {part : List UInt8} {items : List Value}
      {pairs : List (String × Value)} (count : items.length < 2 ^ (32 : Nat))
      (each : List.Forall₂ (Layout levels) parts items) (mem : part ∈ parts) (inner : LaysOut levels part pairs) :
      LaysOut (levels + 1) (tagByte .array :: (bigEndian 4 items.length ++ parts.flatten)) pairs
  | member {levels : Nat} {parts : List (List UInt8)} {label part : List UInt8} {name : String}
      {outer pairs : List (String × Value)} (count : outer.length < 2 ^ (32 : Nat))
      (each : List.Forall₂ (Entry (Layout levels)) parts outer) (spelled : Spelled label name)
      (mem : label ++ part ∈ parts) (inner : LaysOut levels part pairs) :
      LaysOut (levels + 1) (tagByte .object :: (bigEndian 4 outer.length ++ parts.flatten)) pairs

/-- Where every object has its names in order, nothing is left to sort or to leave out. -/
theorem encode_of_ordered {levels : Nat} {e : List UInt8} {v : Value} (h : Layout levels e v) :
    (∀ pairs, LaysOut levels e pairs → Members.Ordered pairs) → encode v = .ok e := by
  refine layout_induction
    (motive := fun levels e v => (∀ pairs, LaysOut levels e pairs → Members.Ordered pairs) → encode v = .ok e)
    ?_ ?_ ?_ h
  · intro levels e v _ he _
    exact he
  · intro levels parts items hcount hparts hordered
    have heach : List.Forall₂ (Layout levels) parts items := hparts.imp fun _ _ h => h.1
    have hinner : ∀ part ∈ parts, ∀ pairs, LaysOut levels part pairs → Members.Ordered pairs :=
      fun part hpart pairs h => hordered pairs (.item hcount heach hpart h)
    have hencoded := ((List.forall₂_and_left parts items).2 ⟨hinner, hparts⟩).imp fun _ _ h => h.2.2 h.1
    exact encode_array_iff.2 ⟨hcount, _, encodeItems_iff_parts.2 ⟨parts, rfl, hencoded⟩, rfl⟩
  · intro levels parts pairs hcount hparts hordered
    have heach : List.Forall₂ (Entry (Layout levels)) parts pairs := hparts.imp fun _ _ h => by
      obtain ⟨label, first, he, hlabel, hfirst, -⟩ := h
      exact ⟨label, first, he, hlabel, hfirst⟩
    have hpairs : Members.Ordered pairs := hordered pairs (.here hcount (pairs_iff_parts.2 ⟨parts, rfl, heach⟩))
    have hinner : ∀ e ∈ parts, ∀ label part name, e = label ++ part → Spelled label name →
        ∀ inner, LaysOut levels part inner → Members.Ordered inner := by
      rintro _ hpart label part name rfl hlabel inner h
      exact hordered inner (.member hcount heach hlabel hpart h)
    have hencoded : List.Forall₂ (Entry fun e v => encode v = .ok e) parts pairs := by
      refine ((List.forall₂_and_left parts pairs).2 ⟨hinner, hparts⟩).imp fun e p h => ?_
      obtain ⟨hinner, label, first, he, hlabel, -, hfirst⟩ := h
      exact ⟨label, first, he, hlabel, hfirst (hinner label first p.1 he hlabel)⟩
    rw [Members.ofList_of_ordered hpairs]
    exact encode_object_iff.2 ⟨hcount, _, encodeMembers_iff_parts.2 ⟨parts, rfl, hencoded⟩, rfl⟩

section Exact

variable {levels : Nat} {bytes : List UInt8} {v : Value}

theorem layout_of_fitting (hv : Fitting levels v) (he : encode v = .ok bytes) : Layout levels bytes v :=
  layout_encode v levels he hv.wellFormed hv.nesting_le

/-- What is laid out like an array and would be written so is that array. -/
theorem array_exact {items : List Value} (hcount : items.length < 2 ^ (32 : Nat)) (heach : Items levels bytes items)
    (hv : Fitting (levels + 1) v) (he : encode v = .ok (tagByte .array :: (bigEndian 4 items.length ++ bytes))) :
    encodeItems items = .ok bytes := by
  have hlayout : Layout (levels + 1) _ (.array items) := .tagged (.array hcount heach)
  obtain rfl := (takes_readValue _).functional (layout_of_fitting hv he) hlayout
  obtain ⟨-, bytes', hbytes', heq⟩ := encode_array_iff.1 he
  rwa [List.append_cancel_left (List.cons.inj heq).2]

/-- What is laid out like an object and would be written so is that object, with its names in order. -/
theorem object_exact {pairs : List (String × Value)} (hcount : pairs.length < 2 ^ (32 : Nat))
    (heach : Pairs levels bytes pairs) (hv : Fitting (levels + 1) v)
    (he : encode v = .ok (tagByte .object :: (bigEndian 4 pairs.length ++ bytes))) :
    Members.Ordered pairs ∧ encodeMembers pairs = .ok bytes := by
  have hlayout : Layout (levels + 1) _ (.object (Members.ofList pairs)) :=
    .tagged (.object hcount heach (Members.gathers_iff.2 rfl))
  obtain rfl := (takes_readValue _).functional (layout_of_fitting hv he) hlayout
  obtain ⟨hcount', bytes', hbytes', heq⟩ := encode_object_iff.1 he
  obtain ⟨-, hlength, rfl⟩ := (takes_readNat 4).unique ⟨hcount, rfl⟩ ⟨hcount', rfl⟩ (List.cons.inj heq).2
  -- as many members as pairs, from the same bytes
  have heach' : Pairs levels bytes (Members.ofList pairs) := by
    refine pairs_encode _ levels hbytes' hv.wellFormed.2 ?_
    exact Nat.le_of_succ_le_succ hv.nesting_le
  have hpairs : pairs = Members.ofList pairs :=
    (takes_pairs (takes_readValue levels) _).functional ⟨rfl, heach⟩ ⟨hlength.symm, heach'⟩
  rw [← hpairs] at hbytes'
  exact ⟨hpairs ▸ Members.ordered_ofList pairs, hbytes'⟩

end Exact

/-- In what is written every object has its names in order. -/
theorem ordered_of_laysOut {levels : Nat} {e : List UInt8} {pairs : List (String × Value)}
    (h : LaysOut levels e pairs) : ∀ v : Value, encode v = .ok e → Fitting levels v → Members.Ordered pairs := by
  induction h with
  | here count each =>
    intro v he hv
    exact (object_exact count each hv he).1
  | @item levels parts part items pairs count each mem _ ih =>
    intro v he hv
    have hitems := array_exact count (items_iff_parts.2 ⟨parts, rfl, each⟩) hv he
    obtain ⟨parts', heq, hwritten⟩ := encodeItems_iff_parts.1 hitems
    have hfitting := forall₂_and_right hwritten (forall_of_forall₂ each fun _ _ h => fitting_of_layout h)
    obtain ⟨rfl, -⟩ := (takes_readValue levels).parts_unique each
      (hfitting.imp fun _ _ h => layout_of_fitting h.2 h.1) rfl heq
    obtain ⟨w, hw, hfw⟩ := exists_of_mem_parts hfitting mem
    exact ih w hw hfw
  | @member levels parts label part name outer pairs count each spelled mem _ ih =>
    intro v he hv
    have hmembers := (object_exact count (pairs_iff_parts.2 ⟨parts, rfl, each⟩) hv he).2
    obtain ⟨parts', heq, hwritten⟩ := encodeMembers_iff_parts.1 hmembers
    have hfits : ∀ p ∈ outer, Fitting levels p.2 := forall_of_forall₂ each fun _ _ h => by
      obtain ⟨_, _, -, -, h⟩ := h
      exact fitting_of_layout h
    have hfitting := forall₂_and_right hwritten hfits
    have heach' : List.Forall₂ (Entry (Layout levels)) parts' outer := hfitting.imp fun _ _ h => by
      obtain ⟨⟨label, first, he, hlabel, hfirst⟩, hfits⟩ := h
      exact ⟨label, first, he, hlabel, layout_of_fitting hfits hfirst⟩
    obtain ⟨rfl, -⟩ := (takes_member (takes_readValue levels)).parts_unique each heach' rfl heq
    obtain ⟨p, ⟨label', first, heq, hlabel, hfirst⟩, hfits⟩ := exists_of_mem_parts hfitting mem
    obtain ⟨-, -, rfl⟩ := takes_readText.unique spelled hlabel heq
    exact ih p.2 hfirst hfits

/-! ## Reading, and writing again -/

theorem decodeAll_eq_ok {bytes : List UInt8} {v : Value} :
    decodeAll bytes = .ok v ↔ Layout defaultMaxDepth bytes v := by
  have hdecode : decodeAll bytes = .ok v ↔ decode bytes = (.ok v, []) := by
    unfold decodeAll
    rcases decode bytes with ⟨error | w, _ | ⟨byte, rest⟩⟩ <;> simp
  rw [hdecode, decode, takes_readValue]
  simp only [List.append_nil]
  constructor
  · rintro ⟨e, rfl, h⟩
    exact h
  · intro h
    exact ⟨bytes, rfl, h⟩

/-- What is read can be written, and is read again as the same value, with no more bytes; the bytes are the same ones
exactly if every object in them has names that increase byte by byte. -/
theorem encode_decodeAll {bytes : List UInt8} {v : Value} (h : decodeAll bytes = .ok v) :
    ∃ again, encode v = .ok again ∧ decodeAll again = .ok v ∧ again.length ≤ bytes.length ∧
      (again = bytes ↔ ∀ pairs, LaysOut defaultMaxDepth bytes pairs →
        pairs.Pairwise fun p q => Utf8.encode p.1.toList < Utf8.encode q.1.toList) := by
  have hlayout := decodeAll_eq_ok.1 h
  have hv := fitting_of_layout hlayout
  obtain ⟨again, hagain⟩ := exists_encode v hv.measured
  refine ⟨again, hagain, decodeAll_eq_ok.2 (layout_of_fitting hv hagain), ?_, ?_⟩
  · rw [← size_encode v hagain]
    exact size_le_of_layout hlayout
  · simp only [← Members.ordered_iff_pairwise]
    constructor
    · rintro rfl pairs hpairs
      exact ordered_of_laysOut hpairs v hagain hv
    · intro hordered
      have hsame := encode_of_ordered hlayout hordered
      rw [hagain] at hsame
      exact Except.ok.inj hsame

/-- Two members out of order. -/
theorem encode_decodeAll_unordered :
    let swapped := Value.object [("a", .boolean true), ("b", .null)]
    decodeAll [7, 0, 0, 0, 2, 0, 0, 0, 1, 98, 0, 0, 0, 0, 1, 97, 1, 1] = .ok swapped ∧
      encode swapped = .ok [7, 0, 0, 0, 2, 0, 0, 0, 1, 97, 1, 1, 0, 0, 0, 1, 98, 0] ∧
      ¬ ∀ pairs, LaysOut defaultMaxDepth [7, 0, 0, 0, 2, 0, 0, 0, 1, 98, 0, 0, 0, 0, 1, 97, 1, 1] pairs →
        pairs.Pairwise fun p q => Utf8.encode p.1.toList < Utf8.encode q.1.toList := by
  intro swapped
  have hread : decodeAll [7, 0, 0, 0, 2, 0, 0, 0, 1, 98, 0, 0, 0, 0, 1, 97, 1, 1] = .ok swapped := by rfl
  have hwritten : encode swapped = .ok [7, 0, 0, 0, 2, 0, 0, 0, 1, 97, 1, 1, 0, 0, 0, 1, 98, 0] := by rfl
  obtain ⟨again, hagain, -, -, hsame⟩ := encode_decodeAll hread
  refine ⟨hread, hwritten, fun hall => ?_⟩
  rw [hwritten] at hagain
  have hbytes := hsame.2 hall
  rw [← Except.ok.inj hagain] at hbytes
  exact absurd hbytes (by decide)

end TableJson.Wire
