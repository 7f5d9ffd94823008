import TableJson.Grammar.Read
import TableJson.Proofs.Grammar.Completeness
import TableJson.Proofs.Grammar.Reporting

/-!
# Documents — what a reading accepts

A reading is successful exactly if the text is that of a document that fits the options and the consumer takes all
events of the document (`read_eq_ok_iff`).
-/

namespace TableJson.Grammar

open Machine Utf8

/-- The events that report a document. -/
def Document.events (d : Document) : List Event := .beginJson :: (d.tree.events "" ++ [.endJson true])

theorem size_toList (text : String) : size text.toList = text.utf8ByteSize := by
  rw [String.utf8ByteSize, ← String.utf8Encode_toList, ← toByteArray_encode, List.size_toByteArray]
  rfl

section Read

variable {σ : Type} (consume : Consumer σ) (options : Options)

theorem Document.reports (d : Document) (c : σ) :
    Reports consume options (size d.text) d.trace d.events (d.tree.Fits options 0) { consumer := c }
      (fun c number => { consumer := c, number, ended := true }) := by
  have hbegin : Reports consume options (size d.text) [(.beginJson, ⟨0, []⟩)] [.beginJson] True { consumer := c }
      (fun c number => { consumer := c, number }) :=
    .deliver rfl rfl fun _ => rfl
  have hend (c : σ) (number : NumberParts) :
      Reports consume options (size d.text) [(.successEndJson, ⟨size d.text, []⟩)] [.endJson true] True
        { consumer := c, number } (fun c number => { consumer := c, number, ended := true }) := by
    refine .deliver (t := { consumer := c, number, ended := true }) ?_ rfl fun _ => rfl
    have hstop : ¬ (Match.stop ⟨size d.text, []⟩ < size d.text) := by simp [Match.stop]
    simp only [Session.act, if_neg hstop]
  have htree (c : σ) (number : NumberParts) :
      Reports consume options (size d.text)
        (d.tree.trace (size d.before.chars) ++ [(.successEndJson, ⟨size d.text, []⟩)])
        (d.tree.events "" ++ [.endJson true]) (d.tree.Fits options 0) { consumer := c, number }
        (fun c number => { consumer := c, number, ended := true }) :=
    ((d.tree.reports { consumer := c, number } (size d.before.chars) (Nat.zero_le _)).append (fun _ _ => rfl) hend).imp
      (by rw [and_true])
  have := hbegin.append (fun _ _ => rfl) htree
  exact this.imp (by rw [true_and])

variable {consume options}

theorem ofOutcome_eq_none {size : Nat} {recorded : Option Failure} {outcome : Outcome} :
    Failure.ofOutcome size recorded outcome = none ↔ ∃ next, outcome = .matched next ∧ next.offset = size := by
  unfold Failure.ofOutcome
  rcases outcome with next | _ | ⟨_ | _⟩ | _
  · by_cases h : next.offset = size
    · simp [h]
    · simp [h]
  · simp
  · simp
  · simp
  · simp

/-- A reading succeeds exactly if its walk ends in a match at the end of the text. -/
theorem result_eq_ok_iff (text : String) (c c' : σ) :
    ((read consume options text c).result = .ok () ∧ (read consume options text c).consumer = c') ↔
      (∃ next, (walkText consume options text c).1 = .matched next ∧ next.offset = text.utf8ByteSize) ∧
        (walkText consume options text c).2.context.consumer = c' := by
  rw [← @ofOutcome_eq_none _ (walkText consume options text c).2.context.failure]
  unfold read
  rcases walkText consume options text c with ⟨outcome, state⟩
  dsimp only
  cases h : Failure.ofOutcome text.utf8ByteSize state.context.failure outcome with
  | none => simp
  | some failure => simp

/-- The actions that a reading hands over, and how its walk would end. -/
def reading (options : Options) (text : String) : Machine.Scan (Action × Match) :=
  reads (nesting options) .jsonText (.text 0 text.toList)

theorem walkText_of_feed {text : String} {c : σ} {session : Session σ}
    (h : feed (Session.act consume options text.utf8ByteSize) (reading options text).2 { consumer := c } =
      (session, true)) :
    (walkText consume options text c).1 = (reading options text).1 ∧
      (walkText consume options text c).2.context = session := by
  unfold walkText
  simp only [reading, reads, Scan.plain, ← Cursor.start_eq_text] at h ⊢
  exact run_of_feed (s := { context := { consumer := c } }) (Session.act consume options text.utf8ByteSize) h

theorem walkText_of_refusal {text : String} {c : σ} {session : Session σ}
    (h : feed (Session.act consume options text.utf8ByteSize) (reading options text).2 { consumer := c } =
      (session, false)) :
    (∃ stop, (walkText consume options text c).1 = .halted (.aborted stop)) ∧
      (walkText consume options text c).2.context = session := by
  unfold walkText
  simp only [reading, reads, Scan.plain, ← Cursor.start_eq_text] at h
  exact run_of_refusal (s := { context := { consumer := c } }) (Session.act consume options text.utf8ByteSize) h

/-- A successful reading has taken a document that fits, and handed over its events. -/
theorem document_of_read {text : String} {c c' : σ} {next : Cursor}
    (hmatched : (walkText consume options text c).1 = .matched next) (hoffset : next.offset = text.utf8ByteSize)
    (hconsumer : (walkText consume options text c).2.context.consumer = c') :
    ∃ d : Document, d.text = text.toList ∧ d.tree.Fits options 0 ∧ consume.feed d.events c = (c', true) := by
  rcases hact : feed (Session.act consume options text.utf8ByteSize) (reading options text).2 { consumer := c }
    with ⟨session, _ | _⟩
  · obtain ⟨⟨stop, hrefused⟩, -⟩ := walkText_of_refusal hact
    rw [hrefused] at hmatched
    simp at hmatched
  · obtain ⟨hend, hcontext⟩ := walkText_of_feed hact
    have hreads : reading options text = (.matched next, (reading options text).2) :=
      Prod.ext (hend.symm.trans hmatched) rfl
    obtain ⟨d, ⟨r, htext, rfl⟩, htrace⟩ := document_of_reads hreads
    -- the match ends where the text does, so that nothing is left
    have hr : r = [] := by
      rw [Cursor.offset_text, ← size_toList, htext, size_append] at hoffset
      exact size_eq_zero.1 (by omega)
    rw [hr, List.append_nil] at htext
    rw [htrace, ← size_toList, htext] at hact
    refine ⟨d, htext.symm, ?_⟩
    rcases d.reports consume options c with ⟨c', number, hfits, hfeed, htr⟩ | ⟨hrefused, -⟩
    · rw [hact] at htr
      obtain ⟨rfl, -⟩ := Prod.mk.inj htr
      exact ⟨hfits, by rw [hfeed, ← hconsumer, hcontext]⟩
    · rw [hact] at hrefused
      simp at hrefused

/-- A document that fits is read to its end, if the consumer takes its events. -/
theorem walkText_of_document {text : String} {c c' : σ} (d : Document) (htext : d.text = text.toList)
    (hfits : d.tree.Fits options 0) (hfeed : consume.feed d.events c = (c', true)) :
    (∃ next, (walkText consume options text c).1 = .matched next ∧ next.offset = text.utf8ByteSize) ∧
      (walkText consume options text c).2.context.consumer = c' := by
  have hnesting : 5 * d.tree.depth + 7 ≤ nesting options := by
    have := hfits.depth_le
    simp only [nesting, tablesPerLevel, tablesPerDocument]
    omega
  obtain ⟨e, he, halike, -, hreads⟩ := reads_document d hnesting
  have hreads : reading options text = (.matched (.text (size d.text) []), e.trace) := by rw [reading, ← htext, hreads]
  have hsize : size e.text = text.utf8ByteSize := by rw [he, htext, size_toList]
  have hfits' : e.tree.Fits options 0 := by
    rw [Tree.Fits, halike.depth, halike.literals, halike.strings]
    exact hfits
  have hevents : e.events = d.events := by rw [Document.events, halike.events, Document.events]
  rcases e.reports consume options c with ⟨c'', number, -, hfeed', htr⟩ | ⟨-, hrefused⟩
  · rw [hevents, hfeed] at hfeed'
    obtain ⟨rfl, -⟩ := Prod.mk.inj hfeed'
    have hact : feed (Session.act consume options text.utf8ByteSize) (reading options text).2 { consumer := c } =
        ({ consumer := c', number, ended := true }, true) := by
      rw [hreads, ← hsize, htr]
    obtain ⟨hend, hcontext⟩ := walkText_of_feed hact
    refine ⟨⟨_, hend.trans (congrArg Prod.fst hreads), ?_⟩, by rw [hcontext]⟩
    rw [Cursor.offset_text, ← hsize, he]
  · have := hrefused hfits'
    rw [hevents, hfeed] at this
    simp at this

/-- A reading succeeds exactly on the texts of documents that fit, if the consumer takes their events. -/
theorem read_eq_ok_iff (consume : Consumer σ) (options : Options) (text : String) (c c' : σ) :
    ((read consume options text c).result = .ok () ∧ (read consume options text c).consumer = c') ↔
      ∃ d : Document, d.text = text.toList ∧ d.tree.Fits options 0 ∧ consume.feed d.events c = (c', true) := by
  rw [result_eq_ok_iff]
  constructor
  · rintro ⟨⟨next, hmatched, hoffset⟩, hconsumer⟩
    exact document_of_read hmatched hoffset hconsumer
  · rintro ⟨d, htext, hfits, hfeed⟩
    exact walkText_of_document d htext hfits hfeed

end Read

end TableJson.Grammar
