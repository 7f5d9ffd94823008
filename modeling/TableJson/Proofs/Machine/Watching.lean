import TableJson.Proofs.Machine.Budget

/-!
# Watching — what a context is handed, and what it has influence on

A context can be watched: beside its own state it keeps what it has been handed (`Context.watched`).  Watching changes
nothing (`run_watched`), since walks with contexts that answer alike go the same way (`run_map`).

* `handings`: what a run hands to its context, with the state that the context was in.
* `handings_eq`: these are the actions of the scan, up to the first that is refused.
* `run_influence`: all that a context has influence on is where the run stops.  Contexts that take everything are handed
  the same and see the same end; one that refuses its `k`-th action has been handed the first `k` of those.
-/

namespace TableJson.Machine

variable {τ α σ ρ : Type}

/-! ## Contexts that answer alike -/

section Map

variable {act : Context α σ} {act' : Context α ρ} {f : σ → ρ}

/-- The state of a walk with another context. -/
def State.map (f : σ → ρ) (s : State σ) : State ρ := ⟨f s.context, s.furthest⟩

theorem replay_map (h : ∀ a m c, act' a m (f c) = (f (act a m c).1, (act a m c).2)) (ms : List (Move α)) (s : State σ) :
    replay act' ms (s.map f) = ((replay act ms s).1.map f, (replay act ms s).2) := by
  induction ms generalizing s with
  | nil => rfl
  | cons m ms ih =>
    cases m with
    | look offset => exact ih (s.reach offset)
    | hand a m stop =>
      simp only [replay, State.map, h]
      rcases act a m s.context with ⟨c, _ | _⟩
      · rfl
      · exact ih { s with context := c }

theorem feed_map (h : ∀ a m c, act' a m (f c) = (f (act a m c).1, (act a m c).2)) (as : List (α × Match)) (c : σ) :
    feed act' as (f c) = (f (feed act as c).1, (feed act as c).2) := by
  induction as generalizing c with
  | nil => rfl
  | cons p as ih =>
    obtain ⟨a, m⟩ := p
    simp only [feed, h]
    rcases act a m c with ⟨c', _ | _⟩
    · rfl
    · exact ih c'

/-- Walks with contexts that answer alike go the same way. -/
theorem run_map (h : ∀ a m c, act' a m (f c) = (f (act a m c).1, (act a m c).2)) (program : Program τ α)
    (steps nest : Nat) (t : τ) (here : Cursor) (s : State σ) :
    run program act' steps nest t here (s.map f) =
      ((run program act steps nest t here s).1, (run program act steps nest t here s).2.map f) := by
  rw [run_eq_resume, run_eq_resume, Scan.resume, Scan.resume, replay_map h]
  rcases replay act (scan program steps nest t here).2 s with ⟨s', _ | stop⟩ <;> rfl

end Map

/-! ## Watching -/

/-- An action as it is handed to a context, with the state that the context is in. -/
structure Handing (α σ : Type) where
  action : α
  found : Match
  state : σ

/-- What a context answers. -/
def Handing.answer (act : Context α σ) (h : Handing α σ) : Bool := (act h.action h.found h.state).2

/-- What was handed over, without the state. -/
def Handing.event (h : Handing α σ) : α × Match := (h.action, h.found)

/-- The same context, which also keeps what it is handed. -/
def Context.watched (act : Context α σ) : Context α (σ × List (Handing α σ)) := fun a m (c, seen) =>
  let answer := act a m c
  ((answer.1, seen ++ [⟨a, m, c⟩]), answer.2)

/-- What a run hands to its context, in order. -/
def handings (program : Program τ α) (act : Context α σ) (steps nest : Nat) (t : τ) (here : Cursor) (s : State σ) :
    List (Handing α σ) :=
  (run program act.watched steps nest t here ⟨(s.context, []), s.furthest⟩).2.context.2

/-- Watching changes nothing. -/
theorem run_watched (program : Program τ α) (act : Context α σ) (steps nest : Nat) (t : τ) (here : Cursor)
    (s : State σ) :
    run program act steps nest t here s =
      ((run program act.watched steps nest t here ⟨(s.context, []), s.furthest⟩).1,
        (run program act.watched steps nest t here ⟨(s.context, []), s.furthest⟩).2.map Prod.fst) :=
  run_map (f := Prod.fst) (fun _ _ _ => rfl) program steps nest t here ⟨(s.context, []), s.furthest⟩

/-- What a context is handed of some actions. -/
def handed (act : Context α σ) : List (α × Match) → σ → List (Handing α σ)
  | [], _ => []
  | (a, m) :: rest, c =>
    ⟨a, m, c⟩ ::
      match act a m c with
      | (c, true) => handed act rest c
      | (_, false) => []

section Handed

variable {act : Context α σ} {as : List (α × Match)} {c : σ}

theorem feed_watched (act : Context α σ) (as : List (α × Match)) (c : σ) (seen : List (Handing α σ)) :
    feed act.watched as (c, seen) = (((feed act as c).1, seen ++ handed act as c), (feed act as c).2) := by
  induction as generalizing c seen with
  | nil => simp [feed, handed]
  | cons p as ih =>
    obtain ⟨a, m⟩ := p
    simp only [feed, handed, Context.watched]
    rcases act a m c with ⟨c', _ | _⟩
    · rfl
    · dsimp only
      rw [ih, List.append_assoc]
      rfl

/-- The state that a run leaves is the one that its actions lead to. -/
theorem run_context (program : Program τ α) (act : Context α σ) (steps nest : Nat) (t : τ) (here : Cursor)
    (s : State σ) :
    (run program act steps nest t here s).2.context =
      (feed act (actions (scan program steps nest t here).2) s.context).1 := by
  rcases h : feed act (actions (scan program steps nest t here).2) s.context with ⟨c, _ | _⟩
  · exact (run_of_refusal act h).2
  · exact (run_of_feed act h).2

/-- A context is handed the actions of the scan, until it refuses one. -/
theorem handings_eq (program : Program τ α) (act : Context α σ) (steps nest : Nat) (t : τ) (here : Cursor)
    (s : State σ) :
    handings program act steps nest t here s = handed act (actions (scan program steps nest t here).2) s.context := by
  rw [handings, run_context, feed_watched]
  rfl

/-- Whatever is handed over comes after actions that were taken. -/
theorem mem_handed {h : Handing α σ} (hmem : h ∈ handed act as c) :
    ∃ before after, as = before ++ h.event :: after ∧ feed act before c = (h.state, true) := by
  induction as generalizing c with
  | nil => exact absurd hmem List.not_mem_nil
  | cons p as ih =>
    obtain ⟨a, m⟩ := p
    rcases List.mem_cons.1 hmem with rfl | hlater
    · exact ⟨[], as, rfl, rfl⟩
    · rcases hanswer : act a m c with ⟨c', _ | _⟩
      · simp [hanswer] at hlater
      · rw [hanswer] at hlater
        obtain ⟨before, after, rfl, hfeed⟩ := ih hlater
        refine ⟨(a, m) :: before, after, rfl, ?_⟩
        rw [feed, hanswer]
        exact hfeed

/-- A context that takes all that it is handed is handed everything. -/
theorem handed_of_taken (h : ∀ e ∈ handed act as c, e.answer act = true) :
    (handed act as c).map Handing.event = as ∧ (feed act as c).2 = true := by
  induction as generalizing c with
  | nil => exact ⟨rfl, rfl⟩
  | cons p as ih =>
    obtain ⟨a, m⟩ := p
    have hfirst : (act a m c).2 = true := h _ (List.mem_cons_self ..)
    rw [handed] at h
    rw [handed, feed]
    revert hfirst h
    rcases act a m c with ⟨c', _ | _⟩
    · simp
    · intro h _
      obtain ⟨hevents, hfeed⟩ := ih fun e he => h e (List.mem_cons_of_mem _ he)
      exact ⟨congrArg ((a, m) :: ·) hevents, hfeed⟩

/-- A context that refuses the action after `k` others is handed these and that one. -/
theorem handed_of_refusal {k : Nat} (hk : k < as.length)
    (h : ∀ i, i ≤ k → ∀ e, (handed act as c)[i]? = some e → (e.answer act = true ↔ i < k)) :
    (handed act as c).map Handing.event = as.take (k + 1) ∧ (feed act as c).2 = false := by
  induction as generalizing c k with
  | nil => exact absurd hk (Nat.not_lt_zero k)
  | cons p as ih =>
    obtain ⟨a, m⟩ := p
    have hfirst : (act a m c).2 = true ↔ 0 < k := h 0 (Nat.zero_le k) _ rfl
    rw [handed] at h
    rw [handed, feed, List.take_succ_cons]
    revert hfirst h
    rcases act a m c with ⟨c', _ | _⟩
    · intro h hfirst
      obtain rfl : k = 0 := by simpa using hfirst
      exact ⟨rfl, rfl⟩
    · intro h hfirst
      obtain ⟨k, rfl⟩ := Nat.exists_eq_succ_of_ne_zero (Nat.ne_of_gt (hfirst.1 rfl))
      have hlater (i : Nat) (hi : i ≤ k) (e : Handing α σ) (he : (handed act as c')[i]? = some e) :
          e.answer act = true ↔ i < k := by
        rw [h (i + 1) (Nat.succ_le_succ hi) e he, Nat.add_lt_add_iff_right]
      obtain ⟨hevents, hfeed⟩ := ih (Nat.lt_of_succ_lt_succ hk) hlater
      exact ⟨congrArg ((a, m) :: ·) hevents, hfeed⟩

end Handed

/-! ## What a context has influence on -/

section Influence

variable {program : Program τ α} {act : Context α σ} {act' : Context α ρ} {steps nest : Nat} {t : τ} {here : Cursor}

/-- How far two walks have looked that make the same moves, all of them. -/
theorem replay_furthest_same {ms : List (Move α)} {s : State σ} {s' : State ρ} (hsame : s'.furthest = s.furthest)
    (h : (replay act ms s).2 = none) (h' : (replay act' ms s').2 = none) :
    (replay act' ms s').1.furthest = (replay act ms s).1.furthest := by
  induction ms generalizing s s' with
  | nil => exact hsame
  | cons m ms ih =>
    cases m with
    | look offset => exact ih (congrArg (Nat.max · offset) hsame) h h'
    | hand a m stop =>
      simp only [replay] at h h' ⊢
      revert h h'
      rcases act a m s.context with ⟨c, _ | _⟩
      · simp
      · rcases act' a m s'.context with ⟨c', _ | _⟩
        · simp
        · exact fun h h' => ih hsame h h'

/-- Contexts that take everything see the same end, and the same part of the input looked at. -/
theorem run_same {c : σ} {c' : ρ} (furthest : Nat)
    (h : (feed act (actions (scan program steps nest t here).2) c).2 = true)
    (h' : (feed act' (actions (scan program steps nest t here).2) c').2 = true) :
    (run program act' steps nest t here ⟨c', furthest⟩).1 = (run program act steps nest t here ⟨c, furthest⟩).1 ∧
      (run program act' steps nest t here ⟨c', furthest⟩).2.furthest =
        (run program act steps nest t here ⟨c, furthest⟩).2.furthest := by
  have hnone := (replay_context act _ ⟨c, furthest⟩).2.2 h
  have hnone' := (replay_context act' _ ⟨c', furthest⟩).2.2 h'
  have hfurthest := replay_furthest_same (by rfl) hnone hnone'
  rw [run_eq_resume, run_eq_resume, Scan.resume, Scan.resume]
  revert hnone hnone' hfurthest
  rcases replay act (scan program steps nest t here).2 ⟨c, furthest⟩ with ⟨s₁, _ | stop⟩
  · rcases replay act' (scan program steps nest t here).2 ⟨c', furthest⟩ with ⟨s₁', _ | stop'⟩
    · exact fun _ _ hfurthest => ⟨rfl, hfurthest⟩
    · simp
  · simp

/-- A run that ends with a context that takes everything ends with any other.  One that takes everything as well is
handed the same and sees the same end; one that refuses its `k`-th action first is handed the first `k` of those
actions, whatever row the last of them belongs to, and is aborted there. -/
theorem run_influence {c : σ} {furthest : Nat} {result : Outcome × State σ}
    (hends : EndsWithin program act steps nest t here ⟨c, furthest⟩ result)
    (htaken : ∀ h ∈ handings program act steps nest t here ⟨c, furthest⟩, h.answer act = true) (act' : Context α ρ)
    (c' : ρ) :
    ((∀ h ∈ handings program act' steps nest t here ⟨c', furthest⟩, h.answer act' = true) →
        (handings program act' steps nest t here ⟨c', furthest⟩).map Handing.event =
            (handings program act steps nest t here ⟨c, furthest⟩).map Handing.event ∧
          ∃ c₁, EndsWithin program act' steps nest t here ⟨c', furthest⟩ (result.1, ⟨c₁, result.2.furthest⟩)) ∧
      ∀ k, 1 ≤ k → k ≤ (handings program act steps nest t here ⟨c, furthest⟩).length →
        (∀ i, i < k → ∀ h, (handings program act' steps nest t here ⟨c', furthest⟩)[i]? = some h →
          (h.answer act' = true ↔ i + 1 < k)) →
        (handings program act' steps nest t here ⟨c', furthest⟩).map Handing.event =
            ((handings program act steps nest t here ⟨c, furthest⟩).map Handing.event).take k ∧
          ∃ stop s₁, EndsWithin program act' steps nest t here ⟨c', furthest⟩ (.halted (.aborted stop), s₁) := by
  obtain ⟨hroom, hmore⟩ := hends
  have hrun : run program act steps nest t here ⟨c, furthest⟩ = result := hmore 0 0
  rw [handings_eq] at htaken ⊢
  rw [handings_eq]
  obtain ⟨hevents, hfeed⟩ := handed_of_taken htaken
  rw [hevents]
  constructor
  · intro htaken'
    obtain ⟨hevents', hfeed'⟩ := handed_of_taken htaken'
    obtain ⟨hend, hfurthest⟩ := run_same furthest hfeed hfeed'
    rw [hrun] at hend hfurthest
    refine ⟨hevents', (run program act' steps nest t here ⟨c', furthest⟩).2.context, .of_ne_exhausted ?_ hroom⟩
    rw [← hend, ← hfurthest]
  · intro k hpos hk hrefuses
    obtain ⟨k, rfl⟩ := Nat.exists_eq_succ_of_ne_zero (Nat.ne_of_gt hpos)
    have hlength := congrArg List.length hevents
    rw [List.length_map] at hlength
    rw [hlength] at hk
    have hrefusal (i : Nat) (hi : i ≤ k) (e : Handing α ρ)
        (he : (handed act' (actions (scan program steps nest t here).2) c')[i]? = some e) :
        e.answer act' = true ↔ i < k := by
      rw [hrefuses i (Nat.lt_succ_of_le hi) e he, Nat.succ_eq_add_one, Nat.add_lt_add_iff_right]
    obtain ⟨hevents', hfeed'⟩ := handed_of_refusal hk hrefusal
    obtain ⟨⟨stop, hstop⟩, -⟩ := run_of_refusal act' (s := ⟨c', furthest⟩) (Prod.ext rfl hfeed')
    refine ⟨hevents', stop, (run program act' steps nest t here ⟨c', furthest⟩).2, .of_ne_exhausted ?_ (by simp)⟩
    rw [← hstop]

/-! ### A row that rejects inside an optional table -/

/-- A point, and nothing but a rejection after it; all of it optional. -/
def pointThenNothing : Program Bool Nat
  | true => [{ matcher := .optTable false, status := .accept }]
  | false =>
    [ { matcher := .seq ".", onMatch := .row 1, action := some 1 },
      { matcher := .nothing, status := .reject, action := some 2 } ]

/-- Refusing the action of the row that rejects stops the run before the rejection. -/
theorem run_influence_reject :
    (handings pointThenNothing (fun _ _ n => (n + 1, decide (n ≠ 1))) 2 2 true (.start [46]) ⟨0, 0⟩).map Handing.event =
        ((handings pointThenNothing (fun _ _ n => (n + 1, true)) 2 2 true (.start [46]) ⟨0, 0⟩).map
          Handing.event).take 2 ∧
      ∃ stop s₁, EndsWithin pointThenNothing (fun _ _ n => (n + 1, decide (n ≠ 1))) 2 2 true (.start [46]) ⟨0, 0⟩
        (.halted (.aborted stop), s₁) := by
  have hends : EndsWithin pointThenNothing (fun _ _ n => (n + 1, true)) 2 2 true (.start [46]) ⟨0, 0⟩
      (.halted (.rejected 1 1), ⟨2, 1⟩) := .of_ne_exhausted (by rfl) (by simp)
  have hall : handings pointThenNothing (fun _ _ n => (n + 1, true)) 2 2 true (.start [46]) ⟨0, 0⟩ =
      [⟨1, ⟨0, [46]⟩, 0⟩, ⟨2, ⟨1, []⟩, 1⟩] := by rfl
  have hsome : handings pointThenNothing (fun _ _ n => (n + 1, decide (n ≠ 1))) 2 2 true (.start [46]) ⟨0, 0⟩ =
      [⟨1, ⟨0, [46]⟩, 0⟩, ⟨2, ⟨1, []⟩, 1⟩] := by rfl
  have htaken : ∀ h ∈ handings pointThenNothing (fun _ _ n => (n + 1, true)) 2 2 true (.start [46]) ⟨0, 0⟩,
      h.answer (fun _ _ n => (n + 1, true)) = true := fun _ _ => rfl
  refine (run_influence hends htaken (fun _ _ n => (n + 1, decide (n ≠ 1))) 0).2 2 (by decide) ?_ ?_
  · rw [hall]
    decide
  · rw [hsome]
    intro i hi h hh
    obtain rfl | rfl : i = 0 ∨ i = 1 := by omega
    · obtain rfl := Option.some.inj hh
      decide
    · obtain rfl := Option.some.inj hh
      decide

end Influence

end TableJson.Machine
