import TableJson.Proofs.Value.Gathering
import TableJson.Proofs.Value.RoundTrip
import TableJson.Value.Path

/-!
# Reparsing — the text of what was read

What a text reads as is well formed, nested no deeper than the options allow, and all its reals are finite
(`Denoted`).  So its compact text is read again, and as the same value unless a signed zero is in it: a sign makes an
integer signed, and zero is printed without one (`reparse_eq_iff`).
-/

namespace TableJson

open Grammar Text Number

/-! ## Signed zeros -/

namespace Value

/-- Some path leads to a zero of the signed kind. -/
def HasSignedZero (v : Value) : Prop := ∃ path, v.pointer? path = some (.integer 0)

section SignedZero

variable {v : Value} {items : List Value} {ms : Members}

theorem hasSignedZero_iff : v.HasSignedZero ↔
    v = .integer 0 ∨ ∃ step child, v.child? step = some child ∧ child.HasSignedZero := by
  constructor
  · rintro ⟨_ | ⟨step, path⟩, hpath⟩
    · exact Or.inl (Option.some.inj hpath)
    · obtain ⟨child, hchild, hpath⟩ := Option.bind_eq_some_iff.1 hpath
      exact Or.inr ⟨step, child, hchild, path, hpath⟩
  · rintro (rfl | ⟨step, child, hchild, path, hpath⟩)
    · exact ⟨[], rfl⟩
    · exact ⟨step :: path, by rw [pointer?, hchild]; exact hpath⟩

theorem hasSignedZero_scalar (hchild : ∀ step, v.child? step = none) : v.HasSignedZero ↔ v = .integer 0 := by
  rw [hasSignedZero_iff]
  simp [hchild]

theorem hasSignedZero_array : (array items).HasSignedZero ↔ ∃ v ∈ items, v.HasSignedZero := by
  rw [hasSignedZero_iff]
  constructor
  · rintro (h | ⟨_ | i, child, hchild, h⟩)
    · simp at h
    · simp [child?] at hchild
    · exact ⟨child, List.mem_of_getElem? hchild, h⟩
  · rintro ⟨v, hv, h⟩
    obtain ⟨i, hi⟩ := List.mem_iff_getElem?.1 hv
    exact Or.inr ⟨.index i, v, hi, h⟩

theorem hasSignedZero_object (hms : Members.Ordered ms) : (object ms).HasSignedZero ↔ ∃ p ∈ ms, p.2.HasSignedZero := by
  rw [hasSignedZero_iff]
  constructor
  · rintro (h | ⟨name | i, child, hchild, h⟩)
    · simp at h
    · exact ⟨(name, child), (Members.find?_eq_some_iff_mem hms name child).1 hchild, h⟩
    · simp [child?] at hchild
  · rintro ⟨⟨name, v⟩, hv, h⟩
    exact Or.inr ⟨.key name, v, (Members.find?_eq_some_iff_mem hms name v).2 hv, h⟩

end SignedZero

end Value

/-! ## What is read -/

/-- What there is in a value that was read inside `depth` containers. -/
structure Value.Denoted (limit depth : Nat) (v : Value) : Prop where
  wellFormed : v.WellFormed
  nesting_le : depth + v.nesting ≤ limit
  normal_iff : v.Normal ↔ ¬ v.HasSignedZero

namespace Value.Denoted

variable {limit depth : Nat}

theorem scalar {v : Value} (hchild : ∀ step, v.child? step = none) (hwf : v.WellFormed)
    (hnesting : depth + v.nesting ≤ limit) (hnormal : v.Normal ↔ v ≠ .integer 0) : v.Denoted limit depth :=
  ⟨hwf, hnesting, by rw [Value.hasSignedZero_scalar hchild, hnormal]⟩

theorem items {items : List Value} (hdepth : depth ≤ limit) (h : ∀ v ∈ items, v.Denoted limit depth) :
    Value.WellFormedItems items ∧ depth + Value.nestingItems items ≤ limit ∧
      (Value.NormalItems items ↔ ¬ ∃ v ∈ items, v.HasSignedZero) := by
  induction items with
  | nil => simp [Value.WellFormedItems, Value.nestingItems, Value.NormalItems, hdepth]
  | cons v vs ih =>
    obtain ⟨hv, hvs⟩ := List.forall_mem_cons.1 h
    obtain ⟨hwf, hnesting, hnormal⟩ := ih hvs
    have := hv.nesting_le
    refine ⟨⟨hv.wellFormed, hwf⟩, ?_, ?_⟩
    · rw [Value.nestingItems]
      omega
    · rw [Value.NormalItems, hv.normal_iff, hnormal]
      simp only [List.mem_cons, exists_eq_or_imp, not_or]

theorem array {items : List Value} (hdepth : depth + 1 ≤ limit) (h : ∀ v ∈ items, v.Denoted limit (depth + 1)) :
    (Value.array items).Denoted limit depth := by
  obtain ⟨hwf, hnesting, hnormal⟩ := Denoted.items hdepth h
  refine ⟨hwf, ?_, ?_⟩
  · rw [Value.nesting]
    omega
  · rw [Value.Normal, hnormal, Value.hasSignedZero_array]

theorem object {ms : Members} (hdepth : depth + 1 ≤ limit) (hms : Members.Ordered ms)
    (h : ∀ p ∈ ms, p.2.Denoted limit (depth + 1)) : (Value.object ms).Denoted limit depth := by
  obtain ⟨hwf, hnesting, hnormal⟩ := Denoted.items hdepth (List.forall_mem_map.2 h)
  refine ⟨⟨hms, (Value.wellFormedMembers_iff ms).2 hwf⟩, ?_, ?_⟩
  · rw [Value.nesting, Value.nestingMembers_eq]
    omega
  · rw [Value.Normal, Value.normalMembers_iff, hnormal, Value.hasSignedZero_object hms]
    simp only [List.mem_map, exists_exists_and_eq_and]

end Value.Denoted

namespace Grammar

theorem Literal.denoted {l : Literal} (h : l.Representable) {limit depth : Nat} (hdepth : depth ≤ limit) :
    l.scalar.toValue.Denoted limit depth := by
  by_cases hfits : l.FitsWord
  · by_cases hsign : l.sign = []
    · rw [scalar, if_pos hfits, if_pos hsign, Scalar.toValue]
      exact .scalar (fun _ => rfl) trivial hdepth (by simp [Value.Normal])
    · have htoInt := toInt_signed hfits hsign
      rw [scalar, if_pos hfits, if_neg hsign, Scalar.toValue]
      refine .scalar (fun _ => rfl) trivial hdepth ?_
      rw [Value.Normal, ne_eq, Value.integer.injEq, ← Int64.toInt_inj, htoInt, Int64.toInt_zero]
      omega
  · rw [scalar, if_neg hfits, Scalar.toValue]
    exact .scalar (fun _ => rfl) trivial hdepth (by simp [Value.Normal, h hfits])

theorem Admits.of_append {options : Options} {depth : Nat} {ls : List Literal} {ss ts : List Quoted}
    (h : Admits options depth ls (ss ++ ts)) : Admits options depth ls ts :=
  ⟨h.depth_le, h.representable, h.paired.imp_right fun h s hs => h s (List.mem_append_right _ hs)⟩

variable {options : Options}

mutual

/-- What a tree denotes that may be read inside `depth` containers. -/
theorem Tree.denotes : ∀ (t : Tree) (depth : Nat), t.Fits options depth → t.value.Denoted options.maxDepth depth
  | .null, _, h => .scalar (fun _ => rfl) trivial h.depth_le (by simp [Tree.value, Value.Normal])
  | .boolean b, _, h => .scalar (fun _ => rfl) trivial h.depth_le (by simp [Tree.value, Value.Normal])
  | .number l, _, h => Literal.denoted (h.representable l (List.mem_singleton_self l)) h.depth_le
  | .string q, _, h => .scalar (fun _ => rfl) trivial h.depth_le (by simp [Tree.value, Value.Normal])
  | .container .array _ body _, depth, h => by
    have h := fits_container.1 h
    have hdepth : depth + 1 ≤ options.maxDepth := Nat.le_trans (Nat.le_add_right ..) h.depth_le
    exact .array hdepth (List.forall_mem_map.2 (Body.denotes body (depth + 1) h))
  | .container .object _ body _, depth, h => by
    have h := fits_container.1 h
    have hdepth : depth + 1 ≤ options.maxDepth := Nat.le_trans (Nat.le_add_right ..) h.depth_le
    exact .object hdepth (Members.ordered_ofList _) fun p hp =>
      Body.denotes body (depth + 1) h p (Members.mem_ofList hp)

theorem Body.denotes : ∀ {kind : ContainerKind} (body : Body kind) (depth : Nat), body.Fits options depth →
    ∀ p ∈ body.values, p.2.Denoted options.maxDepth depth
  | _, .empty _, _, _ => fun p hp => absurd hp List.not_mem_nil
  | _, .entries label first rest, depth, h => by
    obtain ⟨hfirst, hrest⟩ := fits_entries.1 h
    exact List.forall_mem_cons.2 ⟨Tree.denotes first depth hfirst.of_append, Rest.denotes rest depth hrest⟩

theorem Rest.denotes : ∀ {kind : ContainerKind} (rest : Rest kind) (depth : Nat), rest.Fits options depth →
    ∀ p ∈ rest.values, p.2.Denoted options.maxDepth depth
  | _, .nil _, _, _ => fun p hp => absurd hp List.not_mem_nil
  | _, .cons _ label entry rest, depth, h => by
    obtain ⟨hentry, hrest⟩ := fits_entries.1 h
    exact List.forall_mem_cons.2 ⟨Tree.denotes entry depth hentry.of_append, Rest.denotes rest depth hrest⟩

end

theorem Integral.eq_zero {ds : List Char} (h : Integral ds) (hzero : digitsValue ds = 0) : ds = ['0'] := by
  cases h with
  | zero => rfl
  | @digits d ds first nonzero rest =>
    have hleading : Leading (d :: ds) := ⟨List.forall_mem_cons.2 ⟨first, rest⟩, d, ds, rfl, nonzero⟩
    have hpos : 0 < 10 ^ ((d :: ds).length - 1) := Nat.pow_pos (by decide)
    have := hleading.bounds.1
    omega

/-- Only the literal `-0` denotes a signed zero. -/
theorem Literal.text_of_hasSignedZero {l : Literal} (h : l.scalar.toValue.HasSignedZero) : l.text = ['-', '0'] := by
  by_cases hfits : l.FitsWord
  · by_cases hsign : l.sign = []
    · rw [scalar, if_pos hfits, if_pos hsign, Scalar.toValue, Value.hasSignedZero_scalar fun _ => rfl] at h
      simp at h
    · have htoInt := toInt_signed hfits hsign
      rw [scalar, if_pos hfits, if_neg hsign, Scalar.toValue, Value.hasSignedZero_scalar fun _ => rfl,
        Value.integer.injEq, ← Int64.toInt_inj, htoInt, Int64.toInt_zero] at h
      have hintegral := l.isIntegral.eq_zero (show l.whole = 0 by omega)
      rw [text, l.isSign.resolve_left hsign, hintegral, hfits.1, hfits.2.1]
      rfl
  · rw [scalar, if_neg hfits, Scalar.toValue, Value.hasSignedZero_scalar fun _ => rfl] at h
    simp at h

mutual

/-- Where a tree denotes a signed zero, the literal `-0` is in it. -/
theorem Tree.exists_minus_zero : ∀ t : Tree, t.value.HasSignedZero → ∃ l ∈ t.literals, l.text = ['-', '0']
  | .null, h => by
    rw [Tree.value, Value.hasSignedZero_scalar fun _ => rfl] at h
    simp at h
  | .boolean b, h => by
    rw [Tree.value, Value.hasSignedZero_scalar fun _ => rfl] at h
    simp at h
  | .number l, h => ⟨l, List.mem_singleton_self l, Literal.text_of_hasSignedZero h⟩
  | .string q, h => by
    rw [Tree.value, Value.hasSignedZero_scalar fun _ => rfl] at h
    simp at h
  | .container .array _ body _, h => by
    obtain ⟨v, hv, h⟩ := Value.hasSignedZero_array.1 h
    obtain ⟨p, hp, rfl⟩ := List.mem_map.1 hv
    exact Body.exists_minus_zero body p hp h
  | .container .object _ body _, h => by
    obtain ⟨p, hp, h⟩ := (Value.hasSignedZero_object (Members.ordered_ofList _)).1 h
    exact Body.exists_minus_zero body p (Members.mem_ofList hp) h

theorem Body.exists_minus_zero : ∀ {kind : ContainerKind} (body : Body kind), ∀ p ∈ body.values, p.2.HasSignedZero →
    ∃ l ∈ body.literals, l.text = ['-', '0']
  | _, .empty _, p, hp, _ => absurd hp List.not_mem_nil
  | _, .entries label first rest, p, hp, h => by
    rcases List.mem_cons.1 hp with rfl | hp
    · obtain ⟨l, hl, htext⟩ := Tree.exists_minus_zero first h
      exact ⟨l, List.mem_append_left _ hl, htext⟩
    · obtain ⟨l, hl, htext⟩ := Rest.exists_minus_zero rest p hp h
      exact ⟨l, List.mem_append_right _ hl, htext⟩

theorem Rest.exists_minus_zero : ∀ {kind : ContainerKind} (rest : Rest kind), ∀ p ∈ rest.values, p.2.HasSignedZero →
    ∃ l ∈ rest.literals, l.text = ['-', '0']
  | _, .nil _, p, hp, _ => absurd hp List.not_mem_nil
  | _, .cons _ label entry rest, p, hp, h => by
    rcases List.mem_cons.1 hp with rfl | hp
    · obtain ⟨l, hl, htext⟩ := Tree.exists_minus_zero entry h
      exact ⟨l, List.mem_append_left _ hl, htext⟩
    · obtain ⟨l, hl, htext⟩ := Rest.exists_minus_zero rest p hp h
      exact ⟨l, List.mem_append_right _ hl, htext⟩

end

/-- A literal of a sign and one digit. -/
def Literal.minusDigit (d : Char) (h : Integral [d]) : Literal where
  sign := ['-']
  integral := [d]
  frac := []
  exp := []
  isSign := Or.inr rfl
  isIntegral := h
  isFraction := Or.inl rfl
  isExponent := Or.inl rfl

/-- A document of one signed integer. -/
theorem read_signed (options : Options) {l : Literal} (hfits : l.FitsWord) (hsign : l.sign ≠ []) {n : Int64}
    (hn : .ofInt (-l.whole) = n) : Value.read options (.ofList l.text) = .ok (.integer n) := by
  refine (Value.read_eq_ok_iff_fits _ _ _).2 ⟨⟨.none, .number l, .none⟩, ?_, fits_of_fitsWord hfits (Nat.zero_le _), ?_⟩
  · simp [Document.text, Tree.text]
  · rw [Tree.value, Literal.scalar, if_pos hfits, if_neg hsign, Scalar.toValue, hn]

end Grammar

namespace Value

/-- Where a signed zero is read, the literal `-0` is in the text. -/
theorem exists_minus_zero {options : Options} {text : String} {v : Value} (h : Value.read options text = .ok v)
    (hzero : v.HasSignedZero) :
    ∃ d : Document, d.text = text.toList ∧ d.tree.value = v ∧ ∃ l ∈ d.tree.literals, l.text = ['-', '0'] := by
  obtain ⟨d, htext, -, rfl⟩ := (read_eq_ok_iff_fits options text v).1 h
  exact ⟨d, htext, rfl, Tree.exists_minus_zero d.tree hzero⟩

/-- The compact text of what was read is read again, and as the same value exactly if no signed zero is in it. -/
theorem reparse_eq_iff (options : Options) (text : String) (v : Value) (h : Value.read options text = .ok v) :
    Value.read options v.compact = .ok v.norm ∧ (v.norm = v ↔ ¬ v.HasSignedZero) ∧
      ((v.norm == v) = true ↔ ¬ v.HasSignedZero) := by
  obtain ⟨d, -, hfits, rfl⟩ := (read_eq_ok_iff_fits options text v).1 h
  obtain ⟨hwf, hnesting, hnormal⟩ := Tree.denotes d.tree 0 hfits
  rw [Nat.zero_add] at hnesting
  refine ⟨?_, ?_, ?_⟩
  · rw [compact_eq]
    exact read_spell options _ hwf hnesting
  · rw [norm_eq_self_iff, hnormal]
  · rw [← hnormal]
    exact norm_eqv_iff _

theorem reparse_minus_one : Value.read {} "-1" = .ok (.integer (-1)) ∧
    Value.read {} (integer (-1)).compact = .ok (.integer (-1)) := by
  have hread : Value.read {} "-1" = .ok (.integer (-1)) :=
    read_signed {} (l := .minusDigit '1' (.digits (by decide) (by decide) (by simp)))
      (by decide) (by decide) (by decide)
  exact ⟨hread, (reparse_eq_iff {} "-1" (.integer (-1)) hread).1⟩

/-- A zero with a sign is printed without the sign, and then read as unsigned. -/
theorem reparse_minus_zero : Value.read {} "-0" = .ok (.integer 0) ∧
    Value.read {} (integer 0).compact = .ok (.uinteger 0) ∧ (uinteger 0 == integer 0) = false := by
  refine ⟨read_signed {} (l := .minusDigit '0' .zero) (by decide) (by decide) (by decide), ?_, rfl⟩
  rw [compact_eq]
  exact read_spell {} _ trivial (Nat.zero_le _)

end Value

end TableJson
