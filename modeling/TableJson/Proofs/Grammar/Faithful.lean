import TableJson.Proofs.Grammar.Independence

/-!
# Faithfulness — the events of an accepted text

Whoever takes everything hears the events of the derivation of the text, in document order and no others
(`heard_eq_events`).  It does not matter which derivation: all derivations of a text that fits the options have the same
events (`Document.events_eq`), since the walk of the text is the same.
-/

namespace TableJson.Grammar

open Machine Utf8

/-- A consumer that always goes on is handed all events. -/
theorem feed_of_true {σ : Type} {consume : Consumer σ} (h : ∀ e c, (consume e c).2 = true) (events : List Event)
    (c : σ) : consume.feed events c = (events.foldl (fun c e => (consume e c).1) c, true) := by
  induction events generalizing c with
  | nil => rfl
  | cons e events ih =>
    have hfirst : consume e c = ((consume e c).1, true) := Prod.ext rfl (h e c)
    rw [Consumer.feed, hfirst]
    exact ih _

/-- What an unlimited recorder keeps of some events. -/
theorem feed_recorder (events kept : List Event) :
    (Consumer.recorder none).feed events kept = (events.reverse ++ kept, true) := by
  rw [feed_of_true fun _ _ => rfl]
  simp [Consumer.recorder]

/-- A text is accepted exactly if it is that of a document that fits the options. -/
theorem validate_eq_ok_iff (options : Options) (text : String) :
    validate options text = .ok () ↔ ∃ d : Document, d.text = text.toList ∧ d.tree.Fits options 0 := by
  have hread := read_eq_ok_iff Consumer.indifferent options text () ()
  simp only [feed_of_true (show ∀ e c, (Consumer.indifferent e c).2 = true from fun _ _ => rfl), and_true] at hread
  exact hread

/-- Two derivations of one text have the same events. -/
theorem Document.events_eq {options : Options} {d d' : Document} (h : d'.text = d.text)
    (hfits : d.tree.Fits options 0) : d'.events = d.events := by
  -- one walk that is deep enough for both
  obtain ⟨e, htext, halike, -, hreads⟩ :=
    reads_document d (n := 5 * (d.tree.depth + d'.tree.depth) + 7) (by omega)
  obtain ⟨e', htext', halike', -, hreads'⟩ :=
    reads_document d' (n := 5 * (d.tree.depth + d'.tree.depth) + 7) (by omega)
  rw [h, hreads] at hreads'
  have htrace : e.trace = e'.trace := congrArg Prod.snd hreads'
  have hsize : size e'.text = size e.text := by rw [htext', htext, h]
  have hfits' : e.tree.Fits options 0 := by
    rw [Tree.Fits, halike.depth, halike.literals, halike.strings]
    exact hfits
  rw [Document.events, Document.events, ← halike.events, ← halike'.events]
  change e'.events = e.events
  rcases e.reports (.recorder none) options [] with ⟨kept, number, -, hfeed, htr⟩ | ⟨-, hrefused⟩
  · rcases e'.reports (.recorder none) options [] with ⟨kept', number', -, hfeed', htr'⟩ | ⟨hrefused', -⟩
    · rw [hsize, ← htrace, htr] at htr'
      obtain ⟨hsession, -⟩ := Prod.mk.inj htr'
      have hkept : kept = kept' := congrArg Session.consumer hsession
      rw [feed_recorder, List.append_nil] at hfeed hfeed'
      rw [← List.reverse_inj, (Prod.mk.inj hfeed).1, (Prod.mk.inj hfeed').1, hkept]
    · rw [hsize, ← htrace, htr] at hrefused'
      simp at hrefused'
  · have := hrefused hfits'
    rw [feed_recorder] at this
    simp at this

/-- A consumer that always goes on has, after an accepted text, dealt with the events of its derivation. -/
theorem consumer_eq_foldl {σ : Type} {consume : Consumer σ} (htrue : ∀ e c, (consume e c).2 = true) {options : Options}
    {text : String} (h : validate options text = .ok ()) (c : σ) {d : Document} (hd : d.text = text.toList) :
    (read consume options text c).consumer = d.events.foldl (fun c e => (consume e c).1) c := by
  obtain ⟨d', hd', hfits⟩ := (validate_eq_ok_iff options text).1 h
  rw [Document.events_eq (hd.trans hd'.symm) hfits]
  exact ((read_eq_ok_iff consume options text c _).2 ⟨d', hd', hfits, feed_of_true htrue d'.events c⟩).2

/-- What is reported of an accepted text are the events of its derivation. -/
theorem reported_eq_events {options : Options} {text : String} (h : validate options text = .ok ()) {d : Document}
    (hd : d.text = text.toList) : reported options text = d.events := by
  have hfeed := feed_recorder d.events []
  rw [feed_of_true fun _ _ => rfl] at hfeed
  rw [reported, consumer_eq_foldl (fun _ _ => rfl) h [] hd, (Prod.mk.inj hfeed).1, List.append_nil,
    List.reverse_reverse]

/-- Whoever takes everything hears the events of the text, for any of its derivations, and no others. -/
theorem heard_eq_events {σ : Type} (consume : Consumer σ) (htrue : ∀ e c, (consume e c).2 = true) (options : Options)
    (text : String) (haccepted : validate options text = .ok ()) (c : σ) :
    (read consume options text c).result = .ok () ∧ (∃ d : Document, d.text = text.toList) ∧
      ∀ d : Document, d.text = text.toList →
        heard consume options text c = d.events.map (·, true) ∧
          (read consume options text c).consumer = d.events.foldl (fun c e => (consume e c).1) c := by
  have htaken := taken_of_true consume options text c htrue
  obtain ⟨hevents, hresult⟩ := heard_of_taken consume options text c htaken
  obtain ⟨d, hd, -⟩ := (validate_eq_ok_iff options text).1 haccepted
  refine ⟨hresult.trans haccepted, ⟨d, hd⟩, fun d hd => ⟨?_, consumer_eq_foldl htrue haccepted c hd⟩⟩
  rw [← reported_eq_events haccepted hd, ← hevents, List.map_map]
  exact (List.map_id _).symm.trans (List.map_congr_left fun p hp => Prod.ext rfl (htaken p hp))

/-- An array in an object. -/
def nestedDocument : Document where
  before := .none
  tree := .container .object {} (.entries (.member [.plain 'a' (by decide)] {})
    (.container .array {} (.entries .item .null (.nil _)) {}) (.nil _)) {}
  after := .none

/-- A name comes with the value of its member, and with both ends of it if it is a container. -/
theorem heard_eq_events_nested : heard Consumer.indifferent {} "\x7b\"a\":[null]\x7d" () =
    [(.beginJson, true), (.opened .object "", true), (.opened .array "a", true), (.scalar "" .null, true),
      (.closed .array "a", true), (.closed .object "", true), (.endJson true, true)] := by
  have hd : nestedDocument.text = String.toList "\x7b\"a\":[null]\x7d" := rfl
  have hfits : nestedDocument.tree.Fits {} 0 := by
    refine ⟨by decide, fun n hn => absurd hn List.not_mem_nil, Or.inr fun s hs => ?_⟩
    rw [List.mem_singleton.1 hs]
    rfl
  have haccepted : validate {} "\x7b\"a\":[null]\x7d" = .ok () :=
    (validate_eq_ok_iff _ _).2 ⟨nestedDocument, hd, hfits⟩
  obtain ⟨-, -, hheard⟩ := heard_eq_events Consumer.indifferent (fun _ _ => rfl) {} _ haccepted ()
  exact (hheard nestedDocument hd).1

end TableJson.Grammar
