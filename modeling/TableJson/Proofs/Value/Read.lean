import TableJson.Proofs.Grammar.Building
import TableJson.Proofs.Grammar.Documents
import TableJson.Value.Read

/-!
# Values from text — what a text reads as

A text reads as a value exactly if it is a document that denotes the value, with containers no deeper than the options
allow, literals that integers or finite reals can hold, and surrogates that are paired or may be replaced
(`Value.read_iff_document`).
-/

namespace TableJson

open Grammar

/-- The builder takes the events of a document, and has built its value. -/
theorem Grammar.Document.builds (d : Document) :
    Builder.consumer.feed d.events (.ok {}) = (.ok { root := some d.tree.value }, true) := by
  have htree := Tree.builds d.tree {} "" (Or.inr rfl)
  have hbegin : Builder.consumer .beginJson (.ok {}) = (.ok {}, true) := rfl
  rw [Document.events, Consumer.feed, hbegin]
  simp only [Consumer.feed_append, htree]
  rfl

namespace Value

theorem read_eq_ok_iff_result (options : Options) (text : String) (v : Value) :
    Value.read options text = .ok v ↔
      ∃ c, ((Grammar.read Builder.consumer options text (.ok {})).result = .ok () ∧
        (Grammar.read Builder.consumer options text (.ok {})).consumer = c) ∧
        (match c with
        | .ok b => b.finish
        | .error _ => null) = v := by
  unfold Value.read
  dsimp only
  rcases (Grammar.read Builder.consumer options text (.ok {})).result with e | ⟨⟩
  · simp
  · cases (Grammar.read Builder.consumer options text (.ok {})).consumer <;> simp

theorem read_eq_ok_iff_fits (options : Options) (text : String) (v : Value) :
    Value.read options text = .ok v ↔
      ∃ d : Document, d.text = text.toList ∧ d.tree.Fits options 0 ∧ v = d.tree.value := by
  rw [read_eq_ok_iff_result]
  constructor
  · rintro ⟨c, hread, rfl⟩
    obtain ⟨d, htext, hfits, hfeed⟩ := (read_eq_ok_iff Builder.consumer options text (.ok {}) c).1 hread
    rw [d.builds] at hfeed
    obtain ⟨rfl, -⟩ := Prod.mk.inj hfeed
    exact ⟨d, htext, hfits, rfl⟩
  · rintro ⟨d, htext, hfits, rfl⟩
    exact ⟨_, (read_eq_ok_iff Builder.consumer options text (.ok {}) _).2 ⟨d, htext, hfits, d.builds⟩, rfl⟩

/-- A text reads as a value exactly if it is a document of that value that the options admit. -/
theorem read_iff_document (options : Options) (text : String) (v : Value) :
    Value.read options text = .ok v ↔
      ∃ d : Document, d.text = text.toList ∧ d.tree.depth ≤ options.maxDepth ∧
        (∀ n ∈ d.tree.literals, n.Representable) ∧
        (options.replaceInvalidSurrogates = true ∨ ∀ s ∈ d.tree.strings, s.Paired) ∧ v = d.tree.value := by
  rw [read_eq_ok_iff_fits]
  constructor
  · rintro ⟨d, htext, hfits, rfl⟩
    have hdepth := hfits.depth_le
    rw [Nat.zero_add] at hdepth
    exact ⟨d, htext, hdepth, hfits.representable, hfits.paired, rfl⟩
  · rintro ⟨d, htext, hdepth, hrepresentable, hpaired, rfl⟩
    exact ⟨d, htext, ⟨by rwa [Nat.zero_add], hrepresentable, hpaired⟩, rfl⟩

end Value

end TableJson
