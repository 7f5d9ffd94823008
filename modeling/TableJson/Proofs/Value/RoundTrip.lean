import TableJson.Proofs.Grammar.NumberTexts
import TableJson.Proofs.Grammar.StringTexts
import TableJson.Proofs.Text.Spelling
import TableJson.Proofs.Value.Norm
import TableJson.Proofs.Value.Read

/-!
# Round trip — values to text and back

The text of a value, whatever blanks a printer puts, is that of a tree that fits where the value may be nested and
denotes what text keeps of the value (`exists_tree`).  So compact and pretty text read back as that (`read_print`).
-/

namespace TableJson

open Grammar Text Number

/-! ## Scalars -/

theorem exists_integer (n : Int64) : ∃ l : Literal, l.text = intText n.toInt ∧ l.FitsWord ∧
    l.scalar.toValue = (Value.integer n).norm := by
  obtain ⟨l, htext, hfrac, hexp, hsign, hwhole⟩ := exists_literal_int n.toInt
  have hlow : -2 ^ 63 ≤ n.toInt := n.le_toInt
  have hhigh : n.toInt < 2 ^ 63 := n.toInt_lt
  by_cases h : 0 ≤ n.toInt
  · have hsign : l.sign = [] := by rw [hsign, if_neg (by omega)]
    have hfits : l.FitsWord := ⟨hfrac, hexp, Or.inl ⟨hsign, by omega⟩⟩
    refine ⟨l, htext, hfits, ?_⟩
    rw [Literal.scalar, if_pos hfits, if_pos hsign, Scalar.toValue, Value.norm, if_pos h, hwhole,
      show n.toInt.natAbs = n.toInt.toNat by omega]
  · have hsign : l.sign ≠ [] := by rw [hsign, if_pos (by omega)]; simp
    have hfits : l.FitsWord := ⟨hfrac, hexp, Or.inr ⟨hsign, by omega⟩⟩
    refine ⟨l, htext, hfits, ?_⟩
    rw [Literal.scalar, if_pos hfits, if_neg hsign, Scalar.toValue, Value.norm, if_neg h, hwhole,
      show -(n.toInt.natAbs : Int) = n.toInt by omega, Int64.ofInt_toInt]

theorem exists_uinteger (n : UInt64) : ∃ l : Literal, l.text = intText n.toNat ∧ l.FitsWord ∧
    l.scalar.toValue = .uinteger n := by
  obtain ⟨l, htext, hfrac, hexp, hsign, hwhole⟩ := exists_literal_int n.toNat
  have hlt : n.toNat < 2 ^ 64 := n.toNat_lt
  have hsign : l.sign = [] := by rw [hsign, if_neg (by omega)]
  have hfits : l.FitsWord := ⟨hfrac, hexp, Or.inl ⟨hsign, by omega⟩⟩
  refine ⟨l, htext, hfits, ?_⟩
  rw [Literal.scalar, if_pos hfits, if_pos hsign, Scalar.toValue, hwhole, Int.natAbs_natCast, UInt64.ofNat_toNat]

section Trees

variable {options : Options} (spacing : Spacing)

theorem fits_of_fitsWord {l : Literal} (h : l.FitsWord) {depth : Nat} (hdepth : depth ≤ options.maxDepth) :
    (Tree.number l).Fits options depth :=
  (fits_number hdepth).2 fun hn => absurd h hn

theorem exists_real (x : Binary64) {depth : Nat} (hdepth : depth ≤ options.maxDepth) :
    ∃ t : Tree, t.text = realText x ∧ t.value = (Value.real x).norm ∧ t.Fits options depth := by
  by_cases h : x.isFinite = true
  · obtain ⟨l, htext, hreal, hpoint⟩ := exists_literal_real h
    have hfits : ¬ l.FitsWord := fun hfits => hpoint ⟨hfits.1, hfits.2.1⟩
    refine ⟨.number l, ?_, ?_, (fits_number hdepth).2 fun _ => hreal ▸ h⟩
    · rw [realText, if_pos h]
      exact htext
    · rw [Tree.value, Literal.scalar, if_neg hfits, hreal, Scalar.toValue, Value.norm, if_pos h]
  · refine ⟨.null, ?_, ?_, admits_nothing hdepth⟩
    · rw [realText, if_neg h]
      rfl
    · rw [Tree.value, Value.norm, if_neg h]

/-! ## Containers -/

/-- The blanks at the start of a container and at a comma. -/
def Text.Spacing.after (spacing : Spacing) (depth : Nat) : Around := { after := spacing.margin depth }

/-- The blanks at the end of a container. -/
def Text.Spacing.before (spacing : Spacing) (depth : Nat) : Around := { before := spacing.margin depth }

/-- What stands before a member. -/
theorem exists_label (name : String) : ∃ q : Quoted, q.value = name ∧ q.Paired ∧
    (Label.member q { after := spacing.colon }).text =
      '"' :: (escape name.toList ++ ['"']) ++ (':' :: spacing.colon.chars) := by
  obtain ⟨q, hquoted, hname, hpaired⟩ := exists_quoted name
  exact ⟨q, hname, hpaired, by rw [Label.text, hquoted]; rfl⟩

mutual

/-- The text of a value is that of a tree that reads as what text keeps of it. -/
theorem exists_tree : ∀ (v : Value) (depth : Nat), v.WellFormed → depth + v.nesting ≤ options.maxDepth →
    ∃ t : Tree, t.text = spell spacing v depth ∧ t.value = v.norm ∧ t.Fits options depth
  | .null, _, _, hdepth => ⟨.null, rfl, rfl, admits_nothing hdepth⟩
  | .boolean b, _, _, hdepth => ⟨.boolean b, rfl, rfl, admits_nothing hdepth⟩
  | .integer n, _, _, hdepth =>
    let ⟨l, htext, hfits, hvalue⟩ := exists_integer n
    ⟨.number l, htext, hvalue, fits_of_fitsWord hfits hdepth⟩
  | .uinteger n, _, _, hdepth =>
    let ⟨l, htext, hfits, hvalue⟩ := exists_uinteger n
    ⟨.number l, htext, hvalue, fits_of_fitsWord hfits hdepth⟩
  | .real x, _, _, hdepth => exists_real x hdepth
  | .string text, _, _, hdepth =>
    let ⟨q, htext, hvalue, hpaired⟩ := exists_quoted text
    ⟨.string q, htext, congrArg Value.string hvalue, (fits_string hdepth).2 (Or.inr hpaired)⟩
  | .array [], _, _, hdepth =>
    ⟨.container .array {} (.empty .array) {}, rfl, rfl, fits_container.2 (admits_nothing hdepth)⟩
  | .array (v :: vs), depth, hwf, hdepth => by
    simp only [Value.nesting, Value.nestingItems] at hdepth
    obtain ⟨t, htext, hvalue, ht⟩ := exists_tree v (depth + 1) hwf.1 (by omega)
    obtain ⟨rest, hrest, hvalues, hr⟩ := exists_items vs (depth + 1) hwf.2 (by omega) (by omega)
    refine ⟨.container .array (spacing.after (depth + 1)) (.entries .item t rest) (spacing.before depth), ?_, ?_,
      fits_container.2 (fits_entries.2 ⟨ht, hr⟩)⟩
    · simp [Tree.text, Body.text, Label.text, spell, htext, hrest, Around.text,
        Spacing.after, Spacing.before, openChar, closeChar]
    · simp [Tree.value, Body.values, Value.norm, Value.normItems, hvalue, hvalues]
  | .object [], _, _, hdepth =>
    ⟨.container .object {} (.empty .object) {}, rfl, rfl, fits_container.2 (admits_nothing hdepth)⟩
  | .object ((name, v) :: ms), depth, hwf, hdepth => by
    simp only [Value.nesting, Value.nestingMembers] at hdepth
    obtain ⟨q, hname, hpaired, hlabel⟩ := exists_label spacing name
    obtain ⟨t, htext, hvalue, ht⟩ := exists_tree v (depth + 1) hwf.2.1 (by omega)
    obtain ⟨rest, hrest, hvalues, hr⟩ := exists_members ms (depth + 1) hwf.2.2 (by omega) (by omega)
    refine ⟨.container .object (spacing.after (depth + 1)) (.entries (.member q { after := spacing.colon }) t rest)
      (spacing.before depth), ?_, ?_, fits_container.2 (fits_entries.2 ⟨admits_name.2 ⟨Or.inr hpaired, ht⟩, hr⟩)⟩
    · simp [Tree.text, Body.text, spell, hlabel, htext, hrest, Around.text,
        Spacing.after, Spacing.before, openChar, closeChar]
    · rw [Tree.value, Body.values, Label.name, hname, hvalue, hvalues, Value.norm]
      exact congrArg Value.object (Members.ofList_of_ordered (Value.ordered_normMembers hwf.1))

theorem exists_items : ∀ (vs : List Value) (depth : Nat), Value.WellFormedItems vs → depth ≤ options.maxDepth →
    depth + Value.nestingItems vs ≤ options.maxDepth →
    ∃ rest : Rest .array, rest.text = spellItems spacing vs depth ∧ rest.values.map Prod.snd = Value.normItems vs ∧
      rest.Fits options depth
  | [], _, _, hd, _ => ⟨.nil .array, rfl, rfl, admits_nothing hd⟩
  | v :: vs, depth, hwf, hd, hdepth => by
    simp only [Value.nestingItems] at hdepth
    obtain ⟨t, htext, hvalue, ht⟩ := exists_tree v depth hwf.1 (by omega)
    obtain ⟨rest, hrest, hvalues, hr⟩ := exists_items vs depth hwf.2 hd (by omega)
    refine ⟨.cons (spacing.after depth) .item t rest, ?_, ?_, fits_entries.2 ⟨ht, hr⟩⟩
    · simp [Rest.text, Label.text, spellItems, htext, hrest, Around.text, Spacing.after]
    · simp [Rest.values, Value.normItems, hvalue, hvalues]

theorem exists_members : ∀ (ms : List (String × Value)) (depth : Nat), Value.WellFormedMembers ms →
    depth ≤ options.maxDepth → depth + Value.nestingMembers ms ≤ options.maxDepth →
    ∃ rest : Rest .object, rest.text = spellMembers spacing ms depth ∧ rest.values = Value.normMembers ms ∧
      rest.Fits options depth
  | [], _, _, hd, _ => ⟨.nil .object, rfl, rfl, admits_nothing hd⟩
  | (name, v) :: ms, depth, hwf, hd, hdepth => by
    simp only [Value.nestingMembers] at hdepth
    obtain ⟨q, hname, hpaired, hlabel⟩ := exists_label spacing name
    obtain ⟨t, htext, hvalue, ht⟩ := exists_tree v depth hwf.1 (by omega)
    obtain ⟨rest, hrest, hvalues, hr⟩ := exists_members ms depth hwf.2 hd (by omega)
    refine ⟨.cons (spacing.after depth) (.member q { after := spacing.colon }) t rest, ?_, ?_,
      fits_entries.2 ⟨admits_name.2 ⟨Or.inr hpaired, ht⟩, hr⟩⟩
    · simp [Rest.text, spellMembers, hlabel, htext, hrest, Around.text, Spacing.after]
    · simp [Rest.values, Value.normMembers, Label.name, hname, hvalue, hvalues]

end

end Trees

/-! ## Documents -/

namespace Value

/-- What is spelled for a value reads back. -/
theorem read_spell (options : Options) (spacing : Spacing) {v : Value} (hwf : v.WellFormed)
    (hnesting : v.nesting ≤ options.maxDepth) : Value.read options (.ofList (spell spacing v 0)) = .ok v.norm := by
  obtain ⟨t, htext, hvalue, ht⟩ := exists_tree spacing v 0 hwf (by rwa [Nat.zero_add])
  refine (read_eq_ok_iff_fits _ _ _).2 ⟨⟨.none, t, .none⟩, ?_, ht, hvalue.symm⟩
  simp [Document.text, htext]

/-- Compact and pretty text of a value read back as what text keeps of the value. -/
theorem read_print (options : Options) (layout : Layout) (v : OrderedValue)
    (hnesting : v.val.nesting ≤ options.maxDepth) :
    Value.read options v.val.compact = .ok v.val.norm ∧
      Value.read options (v.val.pretty layout) = .ok v.val.norm := by
  rw [compact_eq, pretty_eq]
  exact ⟨read_spell options _ v.wellFormed hnesting, read_spell options _ v.wellFormed hnesting⟩

theorem read_print_pair : Value.read {} (array [integer 7, real (.signed true 0)]).compact =
      .ok (array [uinteger 7, real (.signed true 0)]) ∧
    Value.read {} ((array [integer 7, real (.signed true 0)]).pretty {}) =
      .ok (array [uinteger 7, real (.signed true 0)]) :=
  read_print {} {} ⟨array [integer 7, real (.signed true 0)], trivial, trivial, trivial⟩ (by decide)

end Value

end TableJson
