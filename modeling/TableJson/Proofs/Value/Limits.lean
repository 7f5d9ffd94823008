import TableJson.Proofs.Grammar.Overflow
import TableJson.Proofs.Value.Filling
import TableJson.Proofs.Wire.Extent

/-!
# Limits — what the options change

The options decide only whether a text is refused.  A text that is accepted is accepted as the same value wherever the
containers may nest as deep as its derivation says, and fails at the first container that nests too deep elsewhere; a
text that fails for another reason fails in the same way (`Value.read_limits`).  The value nests no deeper than the
options allow, so that with the default depth its binary form is read back.
-/

namespace TableJson

open Utf8

/-! ## The first container too many -/

namespace Brackets

/-- Only one container of a text is the first that is opened inside of so many. -/
theorem OpensBeyond.unique {b : Brackets} {limit : Nat} {pre pre' post post' : List Char} {c c' : Char}
    (h : b.OpensBeyond limit pre c) (h' : b.OpensBeyond limit pre' c') (heq : pre ++ c :: post = pre' ++ c' :: post') :
    pre = pre' := by
  -- the shorter one is deep already in the longer one
  have hshort {pre pre' post post' : List Char} {c c' : Char} (h : b.OpensBeyond limit pre c)
      (h' : b.OpensBeyond limit pre' c') (heq : pre ++ c :: post = pre' ++ c' :: post') : pre'.length ≤ pre.length := by
    refine Decidable.byContradiction fun hlt => ?_
    have hprefix : pre ++ [c] <+: pre' := by
      have hpre : pre ++ [c] <+: pre ++ c :: post := ⟨post, by simp⟩
      rw [heq] at hpre
      refine List.prefix_of_prefix_length_le hpre (List.prefix_append ..) ?_
      rw [List.length_append, List.length_singleton]
      omega
    have := h'.1 _ hprefix
    rw [h.2] at this
    omega
  exact List.append_inj_left heq (Nat.le_antisymm (hshort h' h heq.symm) (hshort h h' heq))

end Brackets

/-! ## Derivations of an accepted text -/

namespace Grammar

/-- Of a text that is accepted all derivations have literals and strings that are. -/
theorem Document.admits_of_text_eq {options : Options} {d d' : Document} (h : d'.text = d.text)
    (hfits : d.tree.Fits options 0) : Admits options 0 d'.tree.literals d'.tree.strings := by
  -- one walk that is deep enough for both
  obtain ⟨e, htext, halike, -, hreads⟩ :=
    reads_document d (n := 5 * (d.tree.depth + d'.tree.depth) + 7) (by omega)
  obtain ⟨e', htext', halike', -, hreads'⟩ :=
    reads_document d' (n := 5 * (d.tree.depth + d'.tree.depth) + 7) (by omega)
  rw [h, hreads] at hreads'
  have htrace : e.trace = e'.trace := congrArg Prod.snd hreads'
  have hsize : size e'.text = size e.text := by rw [htext', htext, h]
  have hfits' : e.tree.Fits options 0 := by
    rw [Tree.Fits, halike.depth, halike.literals, halike.strings]
    exact hfits
  obtain ⟨c, number, htaken⟩ := (e.reports Consumer.indifferent options ()).taken (fun _ _ => rfl) hfits'
  rw [htrace, ← hsize] at htaken
  rw [← halike'.literals, ← halike'.strings]
  rcases e'.reports Consumer.indifferent options () with ⟨-, -, hfits, -, -⟩ | ⟨hrefused, -⟩
  · exact hfits.deepen (Nat.zero_le _)
  · rw [htaken] at hrefused
    simp at hrefused

end Grammar

namespace Value

open Grammar (Document Tree size_toList)

variable {options options' : Options} {text : String} {v : Value}

/-- What does not fail for the strictness of the options comes to the same under less strict ones. -/
theorem read_relaxed (h : options.Relaxed options') (text : String) :
    Value.read options' text = Value.read options text ∨
      ∃ e, Value.read options text = .error e ∧ options.Strict options' e.code := by
  rcases Grammar.read_relaxed Builder.consumer options text (.ok {}) h with heq | ⟨e, he, hstrict⟩
  · refine Or.inl ?_
    rw [Value.read, Value.read, heq]
  · refine Or.inr ⟨e, ?_, hstrict⟩
    rw [Value.read]
    simp only [he]

theorem read_ok_relaxed (h : options.Relaxed options') (hread : Value.read options text = .ok v) :
    Value.read options' text = .ok v := by
  rcases read_relaxed h text with heq | ⟨e, he, -⟩
  · rw [heq, hread]
  · rw [hread] at he
    simp at he

theorem read_error_relaxed (h : options.Relaxed options') {e : ParseError} (hread : Value.read options text = .error e)
    (hcode : ¬ options.Strict options' e.code) : Value.read options' text = .error e := by
  rcases read_relaxed h text with heq | ⟨e', he', hstrict⟩
  · rw [heq, hread]
  · rw [hread] at he'
    rw [Except.error.inj he'] at hcode
    exact absurd hstrict hcode

/-- A value cannot be read exactly where the text is refused, for the same reason. -/
theorem read_eq_error_iff {e : ParseError} :
    Value.read options text = .error e ↔ Grammar.validate options text = .error e := by
  rw [← read_map_eq_validate]
  cases Value.read options text <;> simp [Except.map]

theorem relaxed_maxDepth {limit : Nat} (h : options.maxDepth ≤ limit) :
    options.Relaxed { options with maxDepth := limit } := ⟨h, id⟩

/-- A text that is accepted is accepted as the same value wherever containers may nest as deep as in a derivation. -/
theorem read_of_depth_le (hread : Value.read options text = .ok v) {d : Document} (htext : d.text = text.toList)
    {limit : Nat} (hdepth : d.tree.depth ≤ limit) : Value.read { options with maxDepth := limit } text = .ok v := by
  obtain ⟨d₀, htext₀, hfits₀, -⟩ := (read_eq_ok_iff_fits options text v).1 hread
  have hadmits := Document.admits_of_text_eq (htext.trans htext₀.symm) hfits₀
  have hfits {limit : Nat} (hdepth : d.tree.depth ≤ limit) : d.tree.Fits { options with maxDepth := limit } 0 :=
    ⟨by rwa [Nat.zero_add], hadmits.representable, hadmits.paired⟩
  have hd : Value.read { options with maxDepth := limit } text = .ok d.tree.value :=
    (read_eq_ok_iff_fits _ _ _).2 ⟨d, htext, hfits hdepth, rfl⟩
  -- both are values under options that are less strict than either
  have hboth : Value.read { options with maxDepth := max options.maxDepth limit } text = .ok d.tree.value :=
    (read_eq_ok_iff_fits _ _ _).2 ⟨d, htext, hfits (Nat.le_trans hdepth (Nat.le_max_right ..)), rfl⟩
  rw [read_ok_relaxed (relaxed_maxDepth (Nat.le_max_left ..)) hread] at hboth
  rw [hd, Except.ok.inj hboth]

/-- A text that is accepted somewhere fails where a derivation is too deep, at the first container that is. -/
theorem read_of_lt_depth (hread : Value.read options text = .ok v) {d : Document} (htext : d.text = text.toList)
    {limit : Nat} (hdepth : limit < d.tree.depth) :
    ∃ pre c post, text.toList = pre ++ c :: post ∧ (Brackets.inside 0).OpensBeyond limit pre c ∧
      Value.read { options with maxDepth := limit } text = .error (.locate .tooDeep text (Utf8.size pre)) := by
  obtain ⟨d₀, htext₀, hfits₀, -⟩ := (read_eq_ok_iff_fits options text v).1 hread
  have hadmits := Document.admits_of_text_eq (htext.trans htext₀.symm) hfits₀
  have hadmits' : Grammar.Admits { options with maxDepth := limit } 0 d.tree.literals d.tree.strings :=
    ⟨Nat.zero_le _, hadmits.representable, hadmits.paired⟩
  have hconsume : ∀ e c, (Consumer.indifferent e c).2 = true := fun _ _ => rfl
  obtain ⟨pre, c, post, hpre, hopens, hresult⟩ := Grammar.read_overflows hconsume htext hadmits' hdepth ()
  exact ⟨pre, c, post, hpre, hopens, read_eq_error_iff.2 hresult⟩

/-- What is read may nest no deeper than the options say, and then its binary form is read back. -/
theorem read_denotes (hread : Value.read options text = .ok v) :
    v.nesting ≤ options.maxDepth ∧ v.WellFormed ∧ (text.utf8ByteSize < 2 ^ (32 : Nat) → v.Measured) := by
  obtain ⟨d, htext, hfits, rfl⟩ := (read_eq_ok_iff_fits options text v).1 hread
  have hdenoted := d.tree.denotes 0 hfits
  have hnesting := hdenoted.nesting_le
  rw [Nat.zero_add] at hnesting
  refine ⟨hnesting, hdenoted.wellFormed, fun hsize => d.tree.measured (Nat.lt_of_le_of_lt ?_ hsize)⟩
  rw [← size_toList, ← htext, Document.text, size_append, size_append]
  omega

/-- The options decide whether a text is refused, and nothing else.  If the text is accepted, it is so exactly where
containers may nest as deep as in its derivation, and as the same value; with a lower limit it fails where the first
container nests too deep.  An error that is not about the depth is the same under every higher limit.  Replacing
unpaired surrogates changes neither a value nor an error of another kind.  A value that is read nests no deeper than the
limit, and is read back from its binary form where that form may nest as deep. -/
theorem read_limits (options : Options) (text : String) :
    (∀ v, Value.read options text = .ok v →
      (∃ d : Document, d.text = text.toList) ∧
        (∀ d : Document, d.text = text.toList → ∀ limit,
          (d.tree.depth ≤ limit → Value.read { options with maxDepth := limit } text = .ok v) ∧
            (limit < d.tree.depth → ∃ pre c post, text.toList = pre ++ c :: post ∧
              (Brackets.inside 0).OpensBeyond limit pre c ∧
              Value.read { options with maxDepth := limit } text =
                .error (.locate .tooDeep text (Utf8.size pre)))) ∧
        Value.read { options with replaceInvalidSurrogates := true } text = .ok v ∧
        v.nesting ≤ options.maxDepth ∧
        (options.maxDepth ≤ defaultMaxDepth →
          (∀ bytes, Wire.encode v = .ok bytes → Wire.decodeAll bytes = .ok v) ∧
            (text.utf8ByteSize < 2 ^ (32 : Nat) → ∃ bytes, Wire.encode v = .ok bytes))) ∧
      ∀ e, Value.read options text = .error e →
        (e.code ≠ .tooDeep → ∀ limit, options.maxDepth ≤ limit →
          Value.read { options with maxDepth := limit } text = .error e) ∧
          (e.code ≠ .badNumber → Value.read { options with replaceInvalidSurrogates := true } text = .error e) := by
  have hreplace : options.Relaxed { options with replaceInvalidSurrogates := true } := ⟨Nat.le_refl _, fun _ => rfl⟩
  constructor
  · intro v hread
    obtain ⟨hnesting, hwf, hmeasured⟩ := read_denotes hread
    obtain ⟨d, htext, -⟩ := (read_eq_ok_iff_fits options text v).1 hread
    refine ⟨⟨d, htext⟩, fun d htext limit => ?_, read_ok_relaxed hreplace hread, hnesting, fun hdefault => ?_⟩
    · exact ⟨read_of_depth_le hread htext, read_of_lt_depth hread htext⟩
    · refine ⟨fun bytes hbytes => ?_, fun hsize => Wire.exists_encode v (hmeasured hsize)⟩
      exact (Wire.decodeAll_eq_ok_iff_nesting_le hbytes hwf).2 (Nat.le_trans hnesting hdefault)
  · intro e hread
    constructor
    · intro hcode limit hlimit
      refine read_error_relaxed (relaxed_maxDepth hlimit) hread ?_
      rintro (⟨hdeep, -⟩ | ⟨-, hsurrogates⟩)
      · exact hcode hdeep
      · exact hsurrogates rfl
    · intro hcode
      refine read_error_relaxed hreplace hread ?_
      rintro (⟨-, hdepth⟩ | ⟨hnumber, -⟩)
      · exact Nat.lt_irrefl _ hdepth
      · exact hcode hnumber

theorem read_limits_arrays :
    Value.read { maxDepth := 2 } "[[null]]" = .ok (.array [.array [.null]]) ∧
      Value.read { maxDepth := 1 } "[[null]]" = .error ⟨.tooDeep, 1, 1, 2⟩ ∧
      Wire.decodeAll [6, 0, 0, 0, 1, 6, 0, 0, 0, 1, 0] = .ok (.array [.array [.null]]) ∧
      Value.read { maxDepth := 1000 } "nul" = .error ⟨.badJson, 3, 1, 4⟩ := by
  let inner : Tree := .container .array {} (.entries .item .null (.nil _)) {}
  let d : Document := ⟨.none, .container .array {} (.entries .item inner (.nil _)) {}, .none⟩
  have htext : d.text = String.toList "[[null]]" := rfl
  have hread : Value.read {} "[[null]]" = .ok (.array [.array [.null]]) :=
    (read_eq_ok_iff_fits _ _ _).2 ⟨d, htext, Grammar.admits_nothing (by decide), rfl⟩
  have herror : Value.read {} "nul" = .error ⟨.badJson, 3, 1, 4⟩ := read_eq_error_iff.2 (by decide +kernel)
  obtain ⟨-, hlimits, -, -, hbinary⟩ := (read_limits {} "[[null]]").1 _ hread
  refine ⟨(hlimits d htext 2).1 (Nat.le_refl 2), ?_, (hbinary (Nat.le_refl _)).1 _ rfl, ?_⟩
  · obtain ⟨pre, c, post, hpre, hopens, hfails⟩ := (hlimits d htext 1).2 (Nat.lt_succ_self 1)
    have hfirst : (Brackets.inside 0).OpensBeyond 1 ['['] '[' :=
      ⟨Brackets.shallow_cons.2 ⟨Nat.zero_le _, Brackets.shallow_nil.2 (Nat.le_refl _)⟩, rfl⟩
    have heq : ['['] = pre := hfirst.unique hopens hpre
    rw [← heq] at hfails
    exact hfails
  · exact ((read_limits {} "nul").2 _ herror).1 (by simp) 1000 (by decide)

end Value

end TableJson
