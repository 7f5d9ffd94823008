import TableJson.Proofs.Grammar.Protocol

/-!
# Independence — what a consumer has no influence on

A consumer decides when a reading stops, and nothing else.  What is reported to one that takes everything depends on
the text and the options only (`reported`); what another one hears is an initial part of that, up to the event that it
refuses (`heard_prefix`, `heard_take`).

The proof compares a consumer with the same one made `willing`: both keep the same, until the first one refuses.
-/

namespace TableJson

/-- The same consumer, but it goes on whatever comes. -/
def Consumer.willing {σ : Type} (consume : Consumer σ) : Consumer σ := fun e c => ((consume e c).1, true)

/-! ## Walks -/

namespace Machine

variable {τ α σ β : Type} {act act' : Context α σ} {R : σ → Prop} {f : σ → List β}

/-- A context whose journal only grows. -/
theorem replay_grows (hgrows : ∀ a m c, f c <+: f (act a m c).1) (ms : List (Move α)) (s : State σ) :
    f s.context <+: f (replay act ms s).1.context := by
  induction ms generalizing s with
  | nil => exact List.prefix_refl _
  | cons m ms ih =>
    cases m with
    | look offset => exact ih (s.reach offset)
    | hand a m stop =>
      have hfirst := hgrows a m s.context
      rw [replay]
      revert hfirst
      rcases act a m s.context with ⟨c, _ | _⟩
      · exact fun hfirst => hfirst
      · exact fun hfirst => hfirst.trans (ih { s with context := c })

/-- Two contexts that keep the same, where the second takes all that the first takes, go the same way up to a refusal by
the first. -/
theorem replay_agree (hstate : ∀ a m c, (act' a m c).1 = (act a m c).1)
    (hanswer : ∀ a m c, (act' a m c).2 = (act a m c).2 ∨ (act a m c).2 = false ∧ R (act a m c).1)
    (hgrows : ∀ a m c, f c <+: f (act a m c).1) (ms : List (Move α)) (s : State σ) :
    replay act' ms s = replay act ms s ∨
      (∃ stop, (replay act ms s).2 = some stop) ∧ R (replay act ms s).1.context ∧
        f (replay act ms s).1.context <+: f (replay act' ms s).1.context := by
  induction ms generalizing s with
  | nil => exact Or.inl rfl
  | cons m ms ih =>
    cases m with
    | look offset => exact ih (s.reach offset)
    | hand a m stop =>
      have hs := hstate a m s.context
      have ha := hanswer a m s.context
      simp only [replay]
      revert hs ha
      rcases act a m s.context with ⟨c, answer⟩
      rcases act' a m s.context with ⟨c', answer'⟩
      intro hs ha
      obtain rfl : c' = c := hs
      rcases ha with heq | ⟨hrefused, hR⟩
      · obtain rfl : answer' = answer := heq
        cases answer' with
        | false => exact Or.inl rfl
        | true => exact ih { s with context := c' }
      · obtain rfl : answer = false := hrefused
        cases answer' with
        | false => exact Or.inl rfl
        | true =>
          have hgrows' (a : α) (m : Match) (c : σ) : f c <+: f (act' a m c).1 := by
            rw [hstate]
            exact hgrows a m c
          exact Or.inr ⟨⟨stop, rfl⟩, hR, replay_grows hgrows' ms { s with context := c' }⟩

theorem run_agree (hstate : ∀ a m c, (act' a m c).1 = (act a m c).1)
    (hanswer : ∀ a m c, (act' a m c).2 = (act a m c).2 ∨ (act a m c).2 = false ∧ R (act a m c).1)
    (hgrows : ∀ a m c, f c <+: f (act a m c).1) (program : Program τ α) (steps nest : Nat) (t : τ) (here : Cursor)
    (s : State σ) :
    run program act' steps nest t here s = run program act steps nest t here s ∨
      (∃ stop, (run program act steps nest t here s).1 = .halted (.aborted stop)) ∧
        R (run program act steps nest t here s).2.context ∧
        f (run program act steps nest t here s).2.context <+: f (run program act' steps nest t here s).2.context := by
  rw [run_eq_resume, run_eq_resume, Scan.resume, Scan.resume]
  rcases replay_agree hstate hanswer hgrows (scan program steps nest t here).2 s with heq | ⟨⟨stop, hstop⟩, hR, hgrown⟩
  · exact Or.inl (by rw [heq])
  · revert hstop hR hgrown
    rcases replay act (scan program steps nest t here).2 s with ⟨s₁, _ | stop₁⟩
    · intro hstop
      simp at hstop
    · intro _ hR hgrown
      refine Or.inr ⟨⟨stop₁, rfl⟩, hR, ?_⟩
      revert hgrown
      rcases replay act' (scan program steps nest t here).2 s with ⟨s₂, _ | stop₂⟩ <;> exact fun hgrown => hgrown

end Machine

namespace Grammar

open Machine

/-! ## Sessions -/

section Sessions

variable {σ : Type} {consume : Consumer σ} {options : Options}

/-- The last event was refused. -/
def Refused (s : Session (σ × Log)) : Prop := ∃ log e, s.consumer.2 = log ++ [(e, false)]

/-- What an action makes of a session with a consumer, and with the same consumer made willing, where `before` is the
log until then: both keep the same, and the log grows.  The answers differ only if the consumer has refused an event. -/
structure Agree (r r' : Session (σ × Log) × Bool) (before : Log) : Prop where
  state : r'.1 = r.1
  answer : r'.2 = r.2 ∨ r.2 = false ∧ Refused r.1
  grows : before <+: r.1.consumer.2

/-- Nothing is reported. -/
theorem agree_silent (r : Session (σ × Log) × Bool) : Agree r r r.1.consumer.2 :=
  ⟨rfl, Or.inl rfl, List.prefix_refl _⟩

theorem deliver_agree (e : Event) (s : Session (σ × Log)) :
    Agree (s.deliver consume.logged e) (s.deliver consume.logged.willing e) s.consumer.2 := by
  refine ⟨rfl, ?_, List.prefix_append _ _⟩
  rcases hanswer : (consume e s.consumer.1).2
  · exact Or.inr ⟨hanswer, s.consumer.2, e, by rw [← hanswer]; rfl⟩
  · exact Or.inl hanswer.symm

theorem fail_consumer (code : ErrorCode) (offset : Option Nat) (s : Session (σ × Log)) :
    (s.fail code offset).1.consumer = s.consumer := by
  unfold Session.fail
  cases s.failure <;> rfl

theorem fail_agree (code : ErrorCode) (offset : Option Nat) (s : Session (σ × Log)) :
    Agree (s.fail code offset) (s.fail code offset) s.consumer.2 := by
  have h := agree_silent (s.fail code offset)
  rwa [fail_consumer] at h

theorem endInFailure_agree (consume : Consumer σ) (code : ErrorCode) (offset : Option Nat) (s : Session (σ × Log)) :
    Agree (s.endInFailure consume.logged code offset) (s.endInFailure consume.logged.willing code offset)
      s.consumer.2 := by
  have h : Agree (s.endInFailure consume.logged code offset) (s.endInFailure consume.logged.willing code offset)
      (Session.fail code offset { s with ended := true }).1.consumer.2 := deliver_agree _ _
  rwa [fail_consumer] at h

theorem enter_agree (kind : ContainerKind) (offset : Nat) (s : Session (σ × Log)) :
    Agree (s.enter consume.logged options kind offset) (s.enter consume.logged.willing options kind offset)
      s.consumer.2 := by
  unfold Session.enter
  split
  · exact fail_agree _ _ s
  · cases kind <;> exact deliver_agree _ _

theorem leave_agree (kind : ContainerKind) (s : Session (σ × Log)) :
    Agree (s.leave consume.logged kind) (s.leave consume.logged.willing kind) s.consumer.2 := by
  cases kind <;> exact deliver_agree _ _

theorem act_agree (consume : Consumer σ) (options : Options) (size : Nat) (a : Action) (m : Match)
    (s : Session (σ × Log)) :
    Agree (Session.act consume.logged options size a m s) (Session.act consume.logged.willing options size a m s)
      s.consumer.2 := by
  cases a with
  | beginJson => exact deliver_agree _ _
  | successEndJson =>
    simp only [Session.act]
    split
    · have h := endInFailure_agree consume .excessSource (some m.stop) s
      exact ⟨h.state, Or.inl rfl, h.grows⟩
    · exact deliver_agree _ _
  | failedEndJson => exact endInFailure_agree consume _ _ s
  | falseValue => exact deliver_agree _ _
  | nullValue => exact deliver_agree _ _
  | trueValue => exact deliver_agree _ _
  | numberValue =>
    simp only [Session.act, Session.deliverNumber]
    cases s.number.scalar? with
    | none => exact fail_agree _ _ { s with memberName := "" }
    | some v => exact deliver_agree _ _
  | malformedNumber =>
    have h := fail_agree .badNumber (some m.start) s
    exact ⟨rfl, Or.inl rfl, h.grows⟩
  | stringValue =>
    simp only [Session.act]
    cases decode? options m with
    | none => exact fail_agree _ _ s
    | some text => exact deliver_agree _ _
  | beginMember =>
    simp only [Session.act]
    cases decode? options m with
    | none => exact fail_agree _ _ s
    | some name => exact agree_silent _
  | beginObject => exact enter_agree _ _ s
  | beginArray => exact enter_agree _ _ s
  | endObject => exact leave_agree .object s
  | endArray => exact leave_agree .array s
  | _ => exact agree_silent _

end Sessions

/-! ## Readings -/

/-- What a consumer hears of a text, each event with its answer. -/
def heard {σ : Type} (consume : Consumer σ) (options : Options) (text : String) (c : σ) : Log :=
  (read consume.logged options text (c, [])).consumer.2

/-- What is reported to whoever takes everything. -/
def reported (options : Options) (text : String) : List Event :=
  (read (.recorder none) options text []).consumer.reverse

/-- Only the last answer may be that the reading is to stop. -/
theorem Conduct.taken {log : Log} {result : Except ParseError Unit} (h : Conduct log result) :
    ∀ p ∈ log.dropLast, p.2 = true := by
  cases h with
  | unheard h => simp
  | @heard log e answer _ htaken he h =>
    rw [List.dropLast_concat]
    intro p hp
    rcases List.mem_cons.1 hp with rfl | hp
    · rfl
    · exact (htaken p hp).2

/-- Nothing comes after a refusal. -/
theorem eq_of_refusal {log full : Log} {e : Event} (h : log ++ [(e, false)] <+: full)
    (htaken : ∀ p ∈ full.dropLast, p.2 = true) : full = log ++ [(e, false)] := by
  obtain ⟨more, rfl⟩ := h
  by_cases hmore : more = []
  · rw [hmore, List.append_nil]
  · rw [List.dropLast_append_of_ne_nil hmore] at htaken
    have hrefused := htaken (e, false) (by simp)
    simp at hrefused

section Readings

variable {σ : Type}

/-- The end of a reading adds to the log, if anything. -/
theorem log_prefix_read {consume : Consumer (σ × Log)} (hgrows : ∀ e c, c.2 <+: (consume e c).1.2) (options : Options)
    (text : String) (c : σ × Log) :
    (walkText consume options text c).2.context.consumer.2 <+: (read consume options text c).consumer.2 := by
  unfold read
  rcases walkText consume options text c with ⟨outcome, state⟩
  dsimp only
  cases Failure.ofOutcome text.utf8ByteSize state.context.failure outcome with
  | none => exact List.prefix_refl _
  | some failure =>
    dsimp only
    split
    · exact List.prefix_refl _
    · exact hgrows _ _

variable (consume : Consumer σ) (options : Options) (text : String) (c : σ)

/-- The walk goes the same way with the consumer made willing, up to a refusal. -/
theorem walkText_willing :
    walkText consume.logged.willing options text (c, []) = walkText consume.logged options text (c, []) ∨
      Refused (walkText consume.logged options text (c, [])).2.context ∧
        (walkText consume.logged options text (c, [])).2.context.consumer.2 <+:
          (walkText consume.logged.willing options text (c, [])).2.context.consumer.2 := by
  have hagree := act_agree consume options text.utf8ByteSize
  have hrun := run_agree (f := fun s : Session (σ × Log) => s.consumer.2) (fun a m s => (hagree a m s).state)
    (fun a m s => (hagree a m s).answer) (fun a m s => (hagree a m s).grows) rows rowsPerTable (nesting options)
    .jsonText (.start (Utf8.encode text.toList)) { context := { consumer := (c, []) } }
  unfold walkText
  exact hrun.imp_right And.right

/-- A consumer that is made willing has no influence on a reading, unless it refused an event before.  Then it goes on
to hear more. -/
theorem heard_willing :
    read consume.logged.willing options text (c, []) = read consume.logged options text (c, []) ∨
      (∃ log e, heard consume options text c = log ++ [(e, false)]) ∧
        heard consume options text c <+: (read consume.logged.willing options text (c, [])).consumer.2 := by
  have hlogged (e : Event) (c : σ × Log) : c.2 <+: (consume.logged e c).1.2 := List.prefix_append _ _
  have hwilling : ∀ e c, c.2 <+: (consume.logged.willing e c).1.2 := hlogged
  rcases walkText_willing consume options text c with hwalk | ⟨⟨log, e, hlog⟩, hgrown⟩
  · refine Or.inl ?_
    unfold read
    rw [hwalk]
    rfl
  · have hread := log_prefix_read hlogged options text (c, [])
    rw [hlog] at hread hgrown
    have hheard : heard consume options text c = log ++ [(e, false)] :=
      eq_of_refusal hread (conduct_read consume options text c).taken
    refine Or.inr ⟨⟨log, e, hheard⟩, ?_⟩
    rw [hheard]
    exact hgrown.trans (log_prefix_read hwilling options text (c, []))

/-- All that a willing consumer hears of, and all that comes of it, is in the text. -/
theorem read_willing :
    (read consume.logged.willing options text (c, [])).consumer.2.map Prod.fst = reported options text ∧
      (read consume.logged.willing options text (c, [])).result = validate options text := by
  have hrecorded (e : Event) (c : σ × Log) : Consumer.recorder none e (c.2.map Prod.fst).reverse =
      (((consume.logged.willing e c).1.2.map Prod.fst).reverse, (consume.logged.willing e c).2) := by
    simp [Consumer.willing, Consumer.logged, Consumer.recorder]
  have hforgotten (e : Event) (events : List Event) : Consumer.indifferent e () =
      ((fun _ => ()) (Consumer.recorder none e events).1, (Consumer.recorder none e events).2) := rfl
  obtain ⟨hconsumer, hresult⟩ := read_map (f := fun c => (c.2.map Prod.fst).reverse) hrecorded options text (c, [])
  obtain ⟨-, hvalidate⟩ := read_map (f := fun _ => ()) hforgotten options text []
  constructor
  · rw [reported, show (read (.recorder none) options text []).consumer = _ from hconsumer, List.reverse_reverse]
  · exact hresult.symm.trans hvalidate.symm

/-- What a consumer hears is an initial part of what is reported. -/
theorem heard_prefix : (heard consume options text c).map Prod.fst <+: reported options text := by
  rw [← (read_willing consume options text c).1]
  rcases heard_willing consume options text c with heq | ⟨-, hprefix⟩
  · rw [heq]
    exact List.prefix_refl _
  · exact hprefix.map Prod.fst

/-- A consumer that takes everything hears all that is reported, and has no influence on the result. -/
theorem heard_of_taken (h : ∀ p ∈ heard consume options text c, p.2 = true) :
    (heard consume options text c).map Prod.fst = reported options text ∧
      (read consume options text c).result = validate options text := by
  have hwilling := read_willing consume options text c
  rcases heard_willing consume options text c with heq | ⟨⟨log, e, hrefused⟩, -⟩
  · rw [heq] at hwilling
    exact ⟨hwilling.1, (read_logged consume options text c []).2.trans hwilling.2⟩
  · have := h (e, false) (by rw [hrefused]; simp)
    simp at this

/-- Whoever always goes on takes all that is heard. -/
theorem taken_of_true (h : ∀ e c, (consume e c).2 = true) : ∀ p ∈ heard consume options text c, p.2 = true := by
  have hlogged (e : Event) (c : σ × Log) : consume.logged e (c.1, c.2.map fun p => (p.1, true)) =
      (((consume.logged e c).1.1, (consume.logged e c).1.2.map fun p => (p.1, true)), (consume.logged e c).2) := by
    simp [Consumer.logged, h]
  obtain ⟨hconsumer, -⟩ :=
    read_map (f := fun c : σ × Log => (c.1, c.2.map fun p => (p.1, true))) hlogged options text (c, [])
  have hheard : heard consume options text c = (heard consume options text c).map fun p => (p.1, true) :=
    congrArg Prod.snd hconsumer
  intro p hp
  rw [hheard] at hp
  obtain ⟨q, -, rfl⟩ := List.mem_map.1 hp
  rfl

/-- A consumer that refuses the event after the first `n` hears of no further one. -/
theorem heard_take {n : Nat} (h : ∀ i ≤ n, ∀ p, (heard consume options text c)[i]? = some p → (p.2 = true ↔ i < n)) :
    (heard consume options text c).map Prod.fst = (reported options text).take (n + 1) := by
  have htaken := (conduct_read consume options text c).taken
  have hprefix := heard_prefix consume options text c
  by_cases hlength : n < (heard consume options text c).length
  · -- the refused event is there, and so it is the last one
    have hrefused := h n (Nat.le_refl n) _ (List.getElem?_eq_getElem hlength)
    have hlast : (heard consume options text c).length = n + 1 := by
      refine Nat.le_antisymm (Nat.le_of_not_lt fun hmore => ?_) hlength
      have hmem : (heard consume options text c)[n] ∈ (heard consume options text c).dropLast := by
        rw [List.mem_iff_getElem]
        exact ⟨n, by rw [List.length_dropLast]; omega, List.getElem_dropLast ..⟩
      have := hrefused.1 (htaken _ hmem)
      omega
    rw [List.prefix_iff_eq_take.1 hprefix, List.length_map, hlast]
  · have hall : ∀ p ∈ heard consume options text c, p.2 = true := by
      intro p hp
      obtain ⟨i, hi, rfl⟩ := List.getElem_of_mem hp
      exact (h i (by omega) _ (List.getElem?_eq_getElem hi)).2 (by omega)
    rw [← (heard_of_taken consume options text c hall).1, List.take_of_length_le]
    rw [List.length_map]
    omega

end Readings

end Grammar

end TableJson
