import TableJson.Proofs.Grammar.Relaxing

/-!
# Faults — how a reading fails by itself

A reading whose consumer takes everything fails in one of three ways (`read_faults`): something in the text cannot be
decoded or nests too deep; or the walk finds no document; or the document that it finds ends before the text does.
-/

namespace TableJson.Grammar

open Machine

/-! ## Sessions -/

section Sessions

variable {σ : Type} {consume : Consumer σ} {options : Options} {size : Nat} {s : Session σ}

/-- Something could not be decoded, or there was no room for it. -/
def Balks (s : Session σ) : Prop :=
  ∃ failure, s.failure = some failure ∧ (failure.code = .badNumber ∨ failure.code = .tooDeep)

theorem balks_fail (hs : s.failure = none) {code : ErrorCode} (hcode : code = .badNumber ∨ code = .tooDeep)
    (offset : Option Nat) : Balks (s.fail code offset).1 := by
  rw [Session.fail, hs]
  exact ⟨_, rfl, hcode⟩

/-- If the consumer takes everything, an inner action is refused by the session only. -/
theorem balks_of_refused (hconsume : ∀ e c, (consume e c).2 = true) {a : Action} (ha : a.Inner) (m : Match)
    (hs : s.failure = none) (hrefused : (Session.act consume options size a m s).2 = false) :
    Balks (Session.act consume options size a m s).1 := by
  have hdelivers {t t' : Session σ} {e : Event} (h : (t.deliver consume e).2 = false) : Balks t' := by
    have htaken : (t.deliver consume e).2 = true := hconsume e t.consumer
    rw [h] at htaken
    simp at htaken
  have henter (kind : ContainerKind) (offset : Nat) (hrefused : (s.enter consume options kind offset).2 = false) :
      Balks (s.enter consume options kind offset).1 := by
    unfold Session.enter at hrefused ⊢
    split
    · exact balks_fail hs (Or.inr rfl) _
    · rw [if_neg ‹_›] at hrefused
      exact hdelivers hrefused
  cases a with
  | beginJson => exact absurd rfl ha.1
  | successEndJson => exact absurd rfl ha.2.1
  | failedEndJson => exact absurd rfl ha.2.2.1
  | malformedNumber => exact absurd rfl ha.2.2.2
  | falseValue => exact hdelivers hrefused
  | nullValue => exact hdelivers hrefused
  | trueValue => exact hdelivers hrefused
  | numberValue =>
    simp only [Session.act, Session.deliverNumber] at hrefused ⊢
    cases hvalue : s.number.scalar? with
    | none => exact balks_fail (show ({ s with memberName := "" } : Session σ).failure = none from hs) (Or.inl rfl) _
    | some v =>
      rw [hvalue] at hrefused
      exact hdelivers hrefused
  | stringValue =>
    simp only [Session.act] at hrefused ⊢
    cases htext : decode? options m with
    | none => exact balks_fail hs (Or.inl rfl) _
    | some text =>
      rw [htext] at hrefused
      exact hdelivers hrefused
  | beginMember =>
    simp only [Session.act] at hrefused ⊢
    cases htext : decode? options m with
    | none => exact balks_fail hs (Or.inl rfl) _
    | some name => simp [htext] at hrefused
  | beginObject => exact henter .object m.start hrefused
  | beginArray => exact henter .array m.start hrefused
  | endObject => exact hdelivers hrefused
  | endArray => exact hdelivers hrefused
  | _ => simp [Session.act] at hrefused

/-- A session that ends in failure keeps it, and goes on if the consumer does. -/
theorem endInFailure_eq (hconsume : ∀ e c, (consume e c).2 = true) (hs : s.failure = none) (code : ErrorCode)
    (offset : Option Nat) : ∃ t, s.endInFailure consume code offset = (t, true) ∧ t.failure = some ⟨code, offset⟩ := by
  refine ⟨_, Prod.ext rfl (hconsume _ _), ?_⟩
  simp only [Session.endInFailure, Session.fail, hs, Session.deliver]

theorem Action.Inner.steady {a : Action} (ha : a.Inner) : a.Steady := ⟨ha.2.1, ha.2.2.1, ha.2.2.2⟩

/-- Inner actions are all taken, and there is no failure, or one is refused by the session. -/
theorem feed_inner (hconsume : ∀ e c, (consume e c).2 = true) {tr : List (Action × Match)} (htr : AllInner tr)
    (hs : s.failure = none) :
    (∃ t, feed (Session.act consume options size) tr s = (t, true) ∧ t.failure = none) ∨
      ∃ t, feed (Session.act consume options size) tr s = (t, false) ∧ Balks t := by
  induction tr generalizing s with
  | nil => exact Or.inl ⟨s, rfl, hs⟩
  | cons p tr ih =>
    obtain ⟨a, m⟩ := p
    have ha : a.Inner := htr _ (List.mem_cons_self ..)
    rw [feed]
    rcases hact : Session.act consume options size a m s with ⟨t, _ | _⟩
    · have hbalks := balks_of_refused hconsume ha m hs (congrArg Prod.snd hact)
      rw [hact] at hbalks
      exact Or.inr ⟨t, rfl, hbalks⟩
    · have hnone := failure_of_taken ha.steady m hs (congrArg Prod.snd hact)
      rw [hact] at hnone
      exact ih (fun q hq => htr q (List.mem_cons_of_mem _ hq)) hnone

end Sessions

/-! ## Readings -/

section Readings

variable {σ : Type} (consume : Consumer σ) (options : Options) (text : String) (c : σ)

/-- How a reading may fail if the consumer takes everything. -/
inductive Fault : ParseError → Prop
  | balked {e : ParseError} (hcode : e.code = .badNumber ∨ e.code = .tooDeep) : Fault e
  | noDocument (hend : ∀ next, (reading options text).1 ≠ .matched next)
    (htaken : (feed (Session.act consume options text.utf8ByteSize) (reading options text).2 { consumer := c }).2 =
      true) :
    Fault (.locate .badJson text (walkText consume options text c).2.furthest)
  | excess (next : Cursor) (hend : (reading options text).1 = .matched next) (hlt : next.offset < text.utf8ByteSize)
    (htaken : (feed (Session.act consume options text.utf8ByteSize) (reading options text).2.dropLast
      { consumer := c }).2 = true) :
    Fault (.locate .excessSource text next.offset)

variable {consume options text c} {s : Session σ} {failure : Failure} {e : ParseError}

theorem error_of_refusal (herror : (read consume options text c).result = .error e)
    (hfeed : feed (Session.act consume options text.utf8ByteSize) (reading options text).2 { consumer := c } =
      (s, false)) (hfailure : s.failure = some failure) :
    e = .locate failure.code text (failure.offset.getD (walkText consume options text c).2.furthest) := by
  obtain ⟨⟨stop, hstop⟩, hcontext⟩ := walkText_of_refusal hfeed
  rw [result_of_failure consume options text c (by rw [hstop, hcontext, hfailure]; rfl)] at herror
  exact (Except.error.inj herror).symm

theorem error_of_feed (herror : (read consume options text c).result = .error e)
    (hfeed : feed (Session.act consume options text.utf8ByteSize) (reading options text).2 { consumer := c } =
      (s, true)) (hfailure : Failure.ofOutcome text.utf8ByteSize s.failure (reading options text).1 = some failure) :
    e = .locate failure.code text (failure.offset.getD (walkText consume options text c).2.furthest) := by
  obtain ⟨hend, hcontext⟩ := walkText_of_feed hfeed
  rw [result_of_failure consume options text c (by rw [hend, hcontext]; exact hfailure)] at herror
  exact (Except.error.inj herror).symm

/-- A session that takes all inner actions of a reading, and one more. -/
theorem feed_concat {t : Session σ} {m : Match} {tr : List (Action × Match)} {a : Action × Match}
    (htrace : (reading options text).2 = (.beginJson, m) :: (tr ++ [a]))
    (hfeed : feed (Session.act consume options text.utf8ByteSize) ((.beginJson, m) :: tr) { consumer := c } =
      (t, true)) :
    feed (Session.act consume options text.utf8ByteSize) (reading options text).2 { consumer := c } =
      Session.act consume options text.utf8ByteSize a.1 a.2 t := by
  rw [htrace, ← List.cons_append, feed_append, hfeed]
  simp only [feed]
  rcases Session.act consume options text.utf8ByteSize a.1 a.2 t with ⟨t', _ | _⟩ <;> rfl

/-- A reading fails in one of these ways, if the consumer takes everything. -/
theorem read_faults (hconsume : ∀ e c, (consume e c).2 = true)
    (herror : (read consume options text c).result = .error e) : Fault consume options text c e := by
  obtain ⟨m, x, hreading, hcourse⟩ := reading_course options text
  have hout : (reading options text).1 = x.1 := by rw [hreading]; rfl
  have htrace : (reading options text).2 = (.beginJson, m) :: x.2 := by rw [hreading]; rfl
  have hinner {tr : List (Action × Match)} (htr : AllInner tr) :
      (∃ t : Session σ, feed (Session.act consume options text.utf8ByteSize) ((.beginJson, m) :: tr) { consumer := c } =
          (t, true) ∧ t.failure = none) ∨
        ∃ t : Session σ, feed (Session.act consume options text.utf8ByteSize) ((.beginJson, m) :: tr)
          { consumer := c } = (t, false) ∧ Balks t := by
    rw [feed_begin hconsume]
    exact feed_inner hconsume htr rfl
  have hbalked {t : Session σ} {tr last : List (Action × Match)} (hx : x.2 = tr ++ last) (ht : Balks t)
      (hfeed : feed (Session.act consume options text.utf8ByteSize) ((.beginJson, m) :: tr) { consumer := c } =
        (t, false)) : Fault consume options text c e := by
    obtain ⟨failure, hfailure, hcode⟩ := ht
    rw [error_of_refusal herror (by rw [htrace, hx, ← List.cons_append, feed_append, hfeed]) hfailure]
    exact .balked hcode
  cases hcourse with
  | success next htr =>
    rcases hinner htr with ⟨t, hfeed, hnone⟩ | ⟨t, hfeed, ht⟩
    · have hlast := feed_concat htrace hfeed
      have hstop : (Match.between next next).stop = next.offset := by simp [Match.stop, Match.between]
      rw [Session.act, hstop] at hlast
      by_cases hlt : next.offset < text.utf8ByteSize
      · obtain ⟨t', hend, hfailure⟩ := endInFailure_eq hconsume hnone .excessSource (some next.offset)
        rw [if_pos hlt, hend] at hlast
        rw [error_of_refusal herror hlast hfailure]
        exact .excess next hout hlt (by rw [htrace, ← List.cons_append, List.dropLast_concat, hfeed])
      · -- the document ends where the text does, so that nothing fails
        have htaken : (Session.deliver consume (.endJson true) { t with ended := true }).2 = true := hconsume _ _
        rw [if_neg hlt, ← Prod.eta (Session.deliver consume _ _), htaken] at hlast
        have hend := (walkText_of_feed hlast).1.trans hout
        have hle := offset_le_of_reading hout
        have hok := ((result_eq_ok_iff text c _).2 ⟨⟨next, hend, by omega⟩, rfl⟩).1
        rw [herror] at hok
        simp at hok
    · exact hbalked rfl ht hfeed
  | failure row offset m' htr =>
    rcases hinner htr with ⟨t, hfeed, hnone⟩ | ⟨t, hfeed, ht⟩
    · have hlast := feed_concat htrace hfeed
      obtain ⟨t', hend, hfailure⟩ := endInFailure_eq hconsume hnone .badJson none
      rw [Session.act, hend] at hlast
      rw [error_of_feed herror hlast (by rw [hout, hfailure]; rfl)]
      exact .noDocument (by simp [hout]) (by rw [hlast])
    · exact hbalked rfl ht hfeed
  | malformed row offset m' htr =>
    rcases hinner htr with ⟨t, hfeed, hnone⟩ | ⟨t, hfeed, ht⟩
    · have hlast := feed_concat htrace hfeed
      rw [Session.act, Session.fail, hnone] at hlast
      rw [error_of_feed herror hlast (by rw [hout]; rfl)]
      exact .balked (Or.inl rfl)
    · exact hbalked rfl ht hfeed
  | unfinished ho htr =>
    rcases hinner htr with ⟨t, hfeed, hnone⟩ | ⟨t, hfeed, ht⟩
    · rw [← htrace] at hfeed
      have hend : ∀ next, (reading options text).1 ≠ .matched next := by
        rw [hout]
        rcases ho with rfl | rfl <;> simp
      rw [error_of_feed herror hfeed (by rw [hout, hnone]; rcases ho with rfl | rfl <;> rfl)]
      exact .noDocument hend (by rw [hfeed])
    · exact hbalked (List.append_nil _).symm ht hfeed

end Readings

end TableJson.Grammar
