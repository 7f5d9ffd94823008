import TableJson.Proofs.Machine.Kept
import TableJson.Proofs.Machine.Text
import TableJson.Proofs.Machine.Watching

/-!
# Visits — the rows that a run comes to

A run comes to one row after another, in the tables that are open inside one another as well.  `visits` lists them as
they come, each with the position and the state that the machine is in there.

* `Invariant`: a property of rows, positions and contexts that every step of a run keeps, to the row that comes next,
  into the table that a row opens, and from one round of a repetition to the next one.
* `Invariant.visits`: what every step keeps holds at all visits, if it holds where the run starts.
* `visit_of_handing`: whatever is handed over is handed over by a row that has been visited, from its position.
-/

namespace TableJson.Machine

variable {τ α σ : Type}

/-- A row that a run comes to, at a position and in a state. -/
structure Visit (τ σ : Type) where
  table : τ
  row : Nat
  here : Cursor
  state : State σ

/-- What a repetition comes to, where `visits` lists what one walk comes to. -/
def repeatVisits (max : Option Nat) (walk : Cursor → State σ → Outcome × State σ)
    (visits : Cursor → State σ → List (Visit τ σ)) : List UInt8 → Nat → Cursor → State σ → List (Visit τ σ)
  | ahead, count, here, s =>
    if belowMax max count then
      visits here s ++
        match walk here s with
        | (.matched next, s) =>
          if next.offset = here.offset then []
          else
            match ahead with
            | [] => []
            | _ :: ahead => repeatVisits max walk visits ahead (count + 1) next s
        | _ => []
    else []

/-- What a test comes to; `call` walks the nested tables, and `visits` lists what that comes to. -/
def Matcher.visits (call : τ → Cursor → State σ → Outcome × State σ)
    (visits : τ → Cursor → State σ → List (Visit τ σ)) : Matcher τ → Cursor → State σ → List (Visit τ σ)
  | .table t, here, s => visits t here s
  | .optTable t, here, s => visits t here s
  | .repeatTable t _ max, here, s => repeatVisits max (call t) (visits t) here.rest 0 here s
  | _, _, _ => []

/-- What the walk of the table `t` comes to from row `i` on. -/
def rowVisits (act : Context α σ) (test : Matcher τ → Cursor → State σ → Outcome × State σ)
    (visits : Matcher τ → Cursor → State σ → List (Visit τ σ)) (t : τ) (rows : List (Row τ α)) :
    Nat → Nat → Cursor → State σ → List (Visit τ σ)
  | 0, _, _, _ => []
  | steps + 1, i, here, s =>
    match rows[i]? with
    | none => []
    | some row =>
      ⟨t, i, here, s⟩ :: visits row.matcher here s ++
        match test row.matcher here s with
        | (.mismatch, s) =>
          match row.onFail with
          | .leave => []
          | .row j => rowVisits act test visits t rows steps j here s
        | (.matched next, s) =>
          match row.perform act here next s with
          | (_, false) => []
          | (s, true) =>
            match row.status, row.onMatch with
            | .normal, .row j => rowVisits act test visits t rows steps j next s
            | _, _ => []
        | _ => []

/-- What the run of the table `t` comes to, in order. -/
def visits (program : Program τ α) (act : Context α σ) (steps : Nat) :
    Nat → τ → Cursor → State σ → List (Visit τ σ)
  | 0, _, _, _ => []
  | nest + 1, t, here, s =>
    rowVisits act (Matcher.test (run program act steps nest))
      (Matcher.visits (run program act steps nest) (visits program act steps nest)) t (program t) steps 0 here s

/-! ## Single steps -/

section Steps

variable {program : Program τ α} {act : Context α σ} {steps nest : Nat} {here next : Cursor} {s s' : State σ}

/-- A test that ends has made the moves of its scan, and the context has taken all actions among them. -/
theorem scan_of_test {m : Matcher τ} {o : Outcome} (h : m.test (run program act steps nest) here s = (o, s'))
    (ho : ∀ stop, o ≠ .halted (.aborted stop)) :
    ∃ ms, m.scan (scan program steps nest) here = (o, ms) ∧ feed act (actions ms) s.context = (s'.context, true) := by
  rw [test_eq_resume act (run_eq_resume act program steps nest), Scan.resume] at h
  obtain ⟨hcontext, hrefusal⟩ := replay_context act (m.scan (scan program steps nest) here).2 s
  rcases hreplay : replay act (m.scan (scan program steps nest) here).2 s with ⟨s₁, _ | stop⟩
  · rw [hreplay] at h hcontext hrefusal
    obtain ⟨rfl, rfl⟩ := Prod.mk.inj h
    exact ⟨_, rfl, Prod.ext hcontext.symm (hrefusal.1 rfl)⟩
  · rw [hreplay] at h
    exact absurd (Prod.mk.inj h).1.symm (ho stop)

/-- What a row hands over is fed to the context. -/
theorem perform_eq (act : Context α σ) (row : Row τ α) (here next : Cursor) (s : State σ) :
    row.perform act here next s =
      ({ s with context := (feed act (row.notes here next) s.context).1 },
        (feed act (row.notes here next) s.context).2) := by
  unfold Row.perform
  rw [Row.notes]
  cases row.action with
  | none => rfl
  | some a =>
    dsimp only [feed]
    rcases act a (.between here next) s.context with ⟨c, _ | _⟩ <;> rfl

end Steps

/-! ## What every step keeps -/

/-- A property of the row of a table, of the position and of the context there that every step of a run keeps. -/
structure Invariant (program : Program τ α) (act : Context α σ) (steps : Nat)
    (I : τ → Nat → Cursor → σ → Prop) : Prop where
  /-- A row opens a table. -/
  opens {t t' : τ} {i : Nat} {row : Row τ α} {here : Cursor} {c : σ} (hrow : (program t)[i]? = some row)
    (hopens : row.matcher.Opens t') (h : I t i here c) : I t' 0 here c
  /-- A table that a row repeats has matched. -/
  round {t t' : τ} {i nest : Nat} {row : Row τ α} {min : Nat} {max : Option Nat} {here next : Cursor} {c c' : σ}
    {ms : List (Move α)} (hrow : (program t)[i]? = some row) (hmatcher : row.matcher = .repeatTable t' min max)
    (hscan : scan program steps nest t' here = (.matched next, ms)) (hfeed : feed act (actions ms) c = (c', true))
    (h : I t' 0 here c) : I t' 0 next c'
  /-- A row has not matched and leads on to another one. -/
  fail {t : τ} {i j nest : Nat} {row : Row τ α} {here : Cursor} {c c' : σ} {ms : List (Move α)}
    (hrow : (program t)[i]? = some row) (hexit : row.onFail = .row j)
    (htest : row.matcher.scan (scan program steps nest) here = (.mismatch, ms))
    (hfeed : feed act (actions ms) c = (c', true)) (h : I t i here c) : I t j here c'
  /-- A row has matched and leads on to another one. -/
  go {t : τ} {i j nest : Nat} {row : Row τ α} {here next : Cursor} {c c' : σ} {ms : List (Move α)}
    (hrow : (program t)[i]? = some row) (hexit : row.onMatch = .row j)
    (htest : row.matcher.scan (scan program steps nest) here = (.matched next, ms))
    (hfeed : feed act (actions ms ++ row.notes here next) c = (c', true)) (h : I t i here c) : I t j next c'

namespace Invariant

/-- The property holds at all these visits. -/
def Along (I : τ → Nat → Cursor → σ → Prop) (vs : List (Visit τ σ)) : Prop :=
  ∀ v ∈ vs, I v.table v.row v.here v.state.context

section Along

variable {I : τ → Nat → Cursor → σ → Prop} {vs ws : List (Visit τ σ)}

theorem along_nil : Along I ([] : List (Visit τ σ)) := fun _ hv => absurd hv List.not_mem_nil

theorem Along.append (h : Along I vs) (h' : Along I ws) : Along I (vs ++ ws) :=
  fun v hv => (List.mem_append.1 hv).elim (h v) (h' v)

end Along

variable {program : Program τ α} {act : Context α σ} {steps : Nat} {I : τ → Nat → Cursor → σ → Prop}
  (h : Invariant program act steps I)

include h

/-- The rounds of a repetition, one after another. -/
theorem repeatVisits {nest : Nat} {t t' : τ} {i : Nat} {row : Row τ α} {min : Nat} {max : Option Nat}
    (hrow : (program t)[i]? = some row) (hmatcher : row.matcher = .repeatTable t' min max)
    (hcall : ∀ here s, I t' 0 here s.context → Along I (visits program act steps nest t' here s))
    (ahead : List UInt8) (count : Nat) {here : Cursor} {s : State σ} (hs : I t' 0 here s.context) :
    Along I (Machine.repeatVisits max (run program act steps nest t') (visits program act steps nest t') ahead count
      here s) := by
  have hround {next : Cursor} {here : Cursor} {s s' : State σ} (hs : I t' 0 here s.context)
      (hrun : run program act steps nest t' here s = (.matched next, s')) : I t' 0 next s'.context := by
    obtain ⟨ms, hscan, hfeed⟩ := scan_of_test (m := .table t') hrun (by simp)
    exact h.round hrow hmatcher hscan hfeed hs
  induction ahead generalizing count here s with
  | nil =>
    unfold Machine.repeatVisits
    split
    · refine (hcall here s hs).append ?_
      split
      · rw [ite_self]
        exact along_nil
      · exact along_nil
    · exact along_nil
  | cons b ahead ih =>
    unfold Machine.repeatVisits
    split
    · refine (hcall here s hs).append ?_
      split
      · rename_i next s' hrun
        split
        · exact along_nil
        · exact ih (count + 1) (hround hs hrun)
      · exact along_nil
    · exact along_nil

theorem test {nest : Nat} {t : τ} {i : Nat} {row : Row τ α} (hrow : (program t)[i]? = some row)
    (hcall : ∀ t here s, I t 0 here s.context → Along I (visits program act steps nest t here s)) {here : Cursor}
    {s : State σ} (hs : I t i here s.context) :
    Along I (row.matcher.visits (run program act steps nest) (visits program act steps nest) here s) := by
  have hopens {t' : τ} (ht' : row.matcher.Opens t') : I t' 0 here s.context := h.opens hrow ht' hs
  rcases hmatcher : row.matcher with _ | _ | _ | _ | _ | t' | t' | _ | ⟨t', min, max⟩
  case table => exact hcall t' here s (hopens (Or.inl hmatcher))
  case optTable => exact hcall t' here s (hopens (Or.inr (Or.inl hmatcher)))
  case repeatTable =>
    exact h.repeatVisits hrow hmatcher (hcall t') here.rest 0 (hopens (Or.inr (Or.inr ⟨min, max, hmatcher⟩)))
  all_goals exact along_nil

theorem rowVisits {nest : Nat} (hcall : ∀ t here s, I t 0 here s.context →
      Along I (visits program act steps nest t here s)) (t : τ) (left i : Nat) {here : Cursor} {s : State σ}
    (hs : I t i here s.context) :
    Along I (Machine.rowVisits act (Matcher.test (run program act steps nest))
      (Matcher.visits (run program act steps nest) (visits program act steps nest)) t (program t) left i here s) := by
  induction left generalizing i here s with
  | zero => exact along_nil
  | succ left ih =>
    rw [Machine.rowVisits]
    cases hrow : (program t)[i]? with
    | none => exact along_nil
    | some row =>
      have hrest {vs : List (Visit τ σ)} (hvs : Along I vs) :
          Along I (⟨t, i, here, s⟩ :: row.matcher.visits (run program act steps nest) (visits program act steps nest)
            here s ++ vs) := by
        refine Along.append ?_ hvs
        exact List.forall_mem_cons.2 ⟨hs, h.test hrow hcall hs⟩
      refine hrest ?_
      rcases htest : row.matcher.test (run program act steps nest) here s with ⟨next | _ | _ | _, s₁⟩
      · obtain ⟨ms, hscan, hfeed⟩ := scan_of_test htest (by simp)
        dsimp only
        rcases hperform : row.perform act here next s₁ with ⟨s₂, _ | _⟩
        · exact along_nil
        · dsimp only
          split
          · rename_i j hstatus hexit
            have hnotes : feed act (actions ms ++ row.notes here next) s.context = (s₂.context, true) := by
              rw [perform_eq] at hperform
              obtain ⟨rfl, hanswer⟩ := Prod.mk.inj hperform
              rw [feed_append, hfeed]
              exact Prod.ext rfl hanswer
            exact ih j (h.go hrow hexit hscan hnotes hs)
          · exact along_nil
      · obtain ⟨ms, hscan, hfeed⟩ := scan_of_test htest (by simp)
        dsimp only
        split
        · exact along_nil
        · rename_i j hexit
          exact ih j (h.fail hrow hexit hscan hfeed hs)
      · exact along_nil
      · exact along_nil

/-- What every step keeps holds at all visits of a run, if it holds where the run starts. -/
theorem visits (nest : Nat) (t : τ) (here : Cursor) (s : State σ) (hs : I t 0 here s.context) :
    ∀ v ∈ Machine.visits program act steps nest t here s, I v.table v.row v.here v.state.context := by
  suffices Along I (Machine.visits program act steps nest t here s) from this
  induction nest generalizing t here s with
  | zero => exact along_nil
  | succ nest ih => exact h.rowVisits ih t steps 0 hs

end Invariant

/-! ## Where actions are handed over -/

/-- The row that is visited hands over what it has matched from its position on. -/
def Visit.Hands (program : Program τ α) (v : Visit τ σ) (e : Handing α σ) : Prop :=
  ∃ row next, (program v.table)[v.row]? = some row ∧ row.action = some e.action ∧ e.found = .between v.here next

section Handings

variable {program : Program τ α} {act : Context α σ} {steps nest : Nat} {here : Cursor} {s : State σ}
  {e : Handing α σ} {as bs : List (α × Match)} {c : σ}

theorem mem_handed_append (h : e ∈ handed act (as ++ bs) c) :
    e ∈ handed act as c ∨ ∃ c', feed act as c = (c', true) ∧ e ∈ handed act bs c' := by
  induction as generalizing c with
  | nil => exact Or.inr ⟨c, rfl, h⟩
  | cons p as ih =>
    obtain ⟨a, m⟩ := p
    rw [List.cons_append, handed] at h
    rw [handed, feed]
    rcases List.mem_cons.1 h with rfl | h
    · exact Or.inl (List.mem_cons_self ..)
    · revert h
      rcases act a m c with ⟨c', _ | _⟩
      · exact fun h => absurd h List.not_mem_nil
      · exact fun h => (ih h).imp_left (List.mem_cons_of_mem _)

/-- What is handed over is one of the actions. -/
theorem event_mem_of_handed (h : e ∈ handed act as c) : e.event ∈ as := by
  obtain ⟨before, after, rfl, -⟩ := mem_handed h
  exact List.mem_append_right _ (List.mem_cons_self ..)

theorem mem_notes {row : Row τ α} {here next : Cursor} {p : α × Match} :
    p ∈ row.notes here next ↔ row.action = some p.1 ∧ p.2 = .between here next := by
  rw [Row.notes]
  cases row.action with
  | none => simp
  | some a => simp [Prod.ext_iff, eq_comm]

/-- Moves that have been made without a refusal end the walk as its scan says. -/
theorem resume_of_feed {x : Scan (Move α)} {c : σ} (h : feed act (actions x.2) s.context = (c, true)) :
    ∃ s', x.resume act s = (x.1, s') ∧ s'.context = c := by
  obtain ⟨hcontext, hrefusal⟩ := replay_context act x.2 s
  rw [Scan.resume]
  rw [h] at hcontext hrefusal
  revert hcontext hrefusal
  rcases replay act x.2 s with ⟨s', _ | stop⟩
  · exact fun hcontext _ => ⟨s', rfl, hcontext⟩
  · simp

/-- What is handed over in a fork: in its first part, or after that. -/
theorem mem_handed_fork {x g : Scan (Move α)} {f : Cursor → Scan (Move α)}
    (h : e ∈ handed act (actions (x.fork f g).2) s.context) :
    e ∈ handed act (actions x.2) s.context ∨
      (∃ next s', x.resume act s = (.matched next, s') ∧ e ∈ handed act (actions (f next).2) s'.context) ∨
      ∃ s', x.resume act s = (.mismatch, s') ∧ e ∈ handed act (actions g.2) s'.context := by
  rcases x with ⟨next | _ | _ | _, ms⟩
  · rw [Scan.fork_matched, Scan.after, actions_append] at h
    rcases mem_handed_append h with h | ⟨c, hfeed, hmem⟩
    · exact Or.inl h
    · obtain ⟨s', hresume, rfl⟩ := resume_of_feed (x := (.matched next, ms)) hfeed
      exact Or.inr (Or.inl ⟨next, s', hresume, hmem⟩)
  · rw [Scan.fork_mismatch, Scan.after, actions_append] at h
    rcases mem_handed_append h with h | ⟨c, hfeed, hmem⟩
    · exact Or.inl h
    · obtain ⟨s', hresume, rfl⟩ := resume_of_feed (x := (.mismatch, ms)) hfeed
      exact Or.inr (Or.inr ⟨s', hresume, hmem⟩)
  · exact Or.inl h
  · exact Or.inl h

/-- A test that opens no table hands nothing over. -/
theorem actions_of_no_table {m : Matcher τ} (hm : ∀ t, ¬ m.Opens t) (call : τ → Cursor → Scan (Move α))
    (here : Cursor) : actions (m.scan call here).2 = [] := by
  have hkept : Kept (fun _ => [] : Program τ α) 0 (fun _ => False) fun _ x => actions x.2 = [] :=
    { opens := fun ht => ht.elim
      done := fun _ _ _ _ => rfl
      char := fun _ _ => rfl
      word := fun _ _ _ => rfl
      fork := by
        rintro here ⟨next | _ | _ | _, ms⟩ f g hx hf hg
        · rw [Scan.fork_matched, Scan.after, actions_append, hf next ms rfl, List.append_nil]
          exact hx
        · rw [Scan.fork_mismatch, Scan.after, actions_append, hg, List.append_nil]
          exact hx
        · exact hx
        · exact hx
      row := fun ht => ht.elim }
  exact hkept.test (fun _ ht => ht.elim) hm here

/-- What a scan hands over comes from rows that have been visited. -/
def Covers (program : Program τ α) (act : Context α σ) (vs : List (Visit τ σ)) (x : Scan (Move α)) (s : State σ) :
    Prop :=
  ∀ e ∈ handed act (actions x.2) s.context, ∃ v ∈ vs, v.Hands program e

theorem covers_nothing (vs : List (Visit τ σ)) {x : Scan (Move α)} (hx : actions x.2 = []) (s : State σ) :
    Covers program act vs x s := by
  intro e he
  rw [hx] at he
  exact absurd he List.not_mem_nil

theorem Covers.mono {vs ws : List (Visit τ σ)} {x : Scan (Move α)} (h : Covers program act vs x s)
    (hsub : ∀ v ∈ vs, v ∈ ws) : Covers program act ws x s :=
  fun e he => (h e he).imp fun v hv => ⟨hsub v hv.1, hv.2⟩

/-- The first part of a fork, and what comes after it. -/
theorem Covers.fork {vs : List (Visit τ σ)} {x g : Scan (Move α)} {f : Cursor → Scan (Move α)}
    (hx : Covers program act vs x s)
    (hf : ∀ next s', x.resume act s = (.matched next, s') → Covers program act vs (f next) s')
    (hg : ∀ s', x.resume act s = (.mismatch, s') → Covers program act vs g s') :
    Covers program act vs (x.fork f g) s := by
  intro e he
  rcases mem_handed_fork he with he | ⟨next, s', hresume, he⟩ | ⟨s', hresume, he⟩
  · exact hx e he
  · exact hf next s' hresume e he
  · exact hg s' hresume e he

section Calls

variable (hcall : ∀ t here s, Covers program act (visits program act steps nest t here s)
  (scan program steps nest t here) s)

include hcall

theorem covers_repeat (t : τ) (min : Nat) (max : Option Nat) (ahead : List UInt8) (count : Nat) (here : Cursor)
    (s : State σ) :
    Covers program act
      (repeatVisits max (run program act steps nest t) (visits program act steps nest t) ahead count here s)
      (repeatScan min max (scan program steps nest t) ahead count here) s := by
  induction ahead generalizing count here s with
  | nil =>
    rw [repeatScan_eq, repeatVisits]
    split
    · refine ((hcall t here s).mono fun v => List.mem_append_left _).fork (fun next s' _ => ?_)
        fun s' _ => covers_nothing _ rfl s'
      exact covers_nothing _ (by split <;> rfl) s'
    · exact covers_nothing _ rfl s
  | cons b ahead ih =>
    rw [repeatScan_eq, repeatVisits]
    split
    · refine ((hcall t here s).mono fun v => List.mem_append_left _).fork (fun next s' hresume => ?_)
        fun s' _ => covers_nothing _ rfl s'
      rw [run_eq_resume, hresume]
      dsimp only
      split
      · exact covers_nothing _ rfl s'
      · exact (ih (count + 1) next s').mono fun v => List.mem_append_right _
    · exact covers_nothing _ rfl s

theorem covers_test (m : Matcher τ) (here : Cursor) (s : State σ) :
    Covers program act (m.visits (run program act steps nest) (visits program act steps nest) here s)
      (m.scan (scan program steps nest) here) s := by
  cases m with
  | table t => exact hcall t here s
  | optTable t =>
    exact (hcall t here s).fork (fun next s' _ => covers_nothing _ rfl s') fun s' _ => covers_nothing _ rfl s'
  | repeatTable t min max => exact covers_repeat hcall t min max here.rest 0 here s
  | _ => exact covers_nothing _ (actions_of_no_table (by simp [Matcher.Opens]) _ here) s

theorem covers_rows (t : τ) (left i : Nat) (here : Cursor) (s : State σ) :
    Covers program act
      (rowVisits act (Matcher.test (run program act steps nest))
        (Matcher.visits (run program act steps nest) (visits program act steps nest)) t (program t) left i here s)
      (scanRows (Matcher.scan (scan program steps nest)) (program t) left i here) s := by
  induction left generalizing i here s with
  | zero => exact covers_nothing _ rfl s
  | succ left ih =>
    rw [rowVisits, scanRows]
    cases hrow : (program t)[i]? with
    | none => exact covers_nothing _ rfl s
    | some row =>
      have htest := test_eq_resume act (run_eq_resume act program steps nest) row.matcher here s
      refine ((covers_test hcall row.matcher here s).mono fun v hv =>
        List.mem_append_left _ (List.mem_cons_of_mem _ hv)).fork (fun next s' hresume => ?_) fun s' hresume => ?_
      · rw [htest, hresume]
        intro e he
        rw [Scan.after, actions_append, actions_moves] at he
        rcases mem_handed_append he with he | ⟨c, hfeed, he⟩
        · -- the action of the row itself
          obtain ⟨ha, hfound⟩ := mem_notes.1 (event_mem_of_handed he)
          exact ⟨⟨t, i, here, s⟩, List.mem_append_left _ (List.mem_cons_self ..), row, next, hrow, ha, hfound⟩
        · have hperform : row.perform act here next s' = ({ s' with context := c }, true) := by
            rw [perform_eq, hfeed]
          dsimp only
          rw [hperform]
          revert he
          rcases row.status with _ | _ | _
          · rcases row.onMatch with _ | j
            · exact fun he => absurd he List.not_mem_nil
            · exact fun he => (ih j next { s' with context := c }).mono (fun v => List.mem_append_right _) e he
          · exact fun he => absurd he List.not_mem_nil
          · exact fun he => absurd he List.not_mem_nil
      · rw [htest, hresume]
        dsimp only
        cases row.onFail with
        | leave => exact covers_nothing _ rfl s'
        | row j => exact (ih j here s').mono fun v => List.mem_append_right _

end Calls

theorem covers_visits (program : Program τ α) (act : Context α σ) (steps nest : Nat) (t : τ) (here : Cursor)
    (s : State σ) :
    Covers program act (visits program act steps nest t here s) (scan program steps nest t here) s := by
  induction nest generalizing t here s with
  | zero => exact covers_nothing _ rfl s
  | succ nest ih => exact covers_rows ih t steps 0 here s

/-- Whatever is handed over is handed over by a row that has been visited, from its position. -/
theorem visit_of_handing {t : τ} (h : e ∈ handings program act steps nest t here s) :
    ∃ v ∈ visits program act steps nest t here s, v.Hands program e := by
  rw [handings_eq] at h
  exact covers_visits program act steps nest t here s e h

end Handings

end TableJson.Machine
