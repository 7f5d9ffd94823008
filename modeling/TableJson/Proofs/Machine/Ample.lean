import Mathlib.Algebra.Order.BigOperators.Group.Finset
import Mathlib.Data.Finset.Prod
import TableJson.Proofs.Machine.Alignment
import TableJson.Proofs.Machine.Budget

/-!
# Ample budgets — runs that end need no more

Tables may be cyclic, so that no budget is enough for every run.  But a run that ends at all ends with the budgets of
`Budget.ample`.

* `Scan.progress k x`: how far a scan gets, in actions handed over, of which the first `k` count; its end is one step
  further.  More room never takes progress back (`Extends.progress_le`).
* `agrees_of_spots`: there are only so many tables, rows and offsets, and each of them gets further only so often.  Once
  none of them does with one unit of room more, none ever will.
* `run_ample`: a context that refuses one of the first `k` actions, if any, sees the same end with ample budgets.
* `runAll_ample`: so do the runs of a recorder.
-/

namespace TableJson.Machine

variable {τ α σ : Type}

/-! ## Progress -/

namespace Scan

variable {k : Nat} {x y z : Scan (Move α)}

/-- How many actions a scan hands over. -/
def told (x : Scan (Move α)) : Nat := (actions x.2).length

/-- How far a scan gets: of the actions that it hands over the first `k` count, and the end is further than any. -/
def progress (k : Nat) (x : Scan (Move α)) : Nat := if x.1 = .exhausted then min k x.told else k + 1

/-- The scans are the same, or both run out of room and hand over equally many actions, of which the first `k` count. -/
def Agrees (k : Nat) (x y : Scan (Move α)) : Prop :=
  x = y ∨ (x.1 = .exhausted ∧ y.1 = .exhausted) ∧ x.2 <+: y.2 ∧ min k x.told = min k y.told

theorem progress_le (k : Nat) (x : Scan (Move α)) : progress k x ≤ k + 1 := by
  unfold progress
  split
  · exact Nat.le_succ_of_le (Nat.min_le_left ..)
  · exact Nat.le_refl _

theorem told_le_of_prefix (h : x.2 <+: y.2) : x.told ≤ y.told := by
  obtain ⟨ms, hms⟩ := h
  rw [told, told, ← hms, actions_append, List.length_append]
  exact Nat.le_add_right ..

theorem Extends.progress_le (h : x.Extends y) : progress k x ≤ progress k y := by
  rcases h with rfl | ⟨hx, hinit⟩
  · exact Nat.le_refl _
  · have htold := told_le_of_prefix hinit
    rw [progress, progress, if_pos hx]
    split <;> omega

/-- A scan that goes on and gets no further. -/
theorem Extends.agrees (h : x.Extends y) (hprogress : progress k y = progress k x) : Agrees k x y := by
  rcases h with rfl | ⟨hx, hinit⟩
  · exact Or.inl rfl
  · rw [progress, progress, if_pos hx] at hprogress
    by_cases hy : y.1 = .exhausted
    · rw [if_pos hy] at hprogress
      exact Or.inr ⟨⟨hx, hy⟩, hinit, hprogress.symm⟩
    · rw [if_neg hy] at hprogress
      omega

theorem Agrees.refl (k : Nat) (x : Scan (Move α)) : Agrees k x x := Or.inl rfl

theorem Agrees.trans (h : Agrees k x y) (h' : Agrees k y z) : Agrees k x z := by
  rcases h with rfl | ⟨⟨hx, hy⟩, hinit, htold⟩
  · exact h'
  · rcases h' with rfl | ⟨⟨-, hz⟩, hinit', htold'⟩
    · exact Or.inr ⟨⟨hx, hy⟩, hinit, htold⟩
    · exact Or.inr ⟨⟨hx, hz⟩, hinit.trans hinit', htold.trans htold'⟩

theorem Agrees.after (h : Agrees k x y) (ms : List (Move α)) : Agrees k (x.after ms) (y.after ms) := by
  rcases h with rfl | ⟨hends, hinit, htold⟩
  · exact .refl k _
  · refine Or.inr ⟨hends, List.prefix_append_right_inj ms |>.2 hinit, ?_⟩
    simp only [told, Scan.after, actions_append, List.length_append] at htold ⊢
    omega

theorem congruence_agrees (k : Nat) : Congruence (Agrees (α := α) k) where
  refl := .refl k
  fork {x x' g g' f f'} hx hf hg := by
    rcases hx with rfl | ⟨⟨hx, hx'⟩, hinit, htold⟩
    · rcases x with ⟨next | _ | _ | _, ms⟩
      · exact (hf next ms rfl).after ms
      · exact hg.after ms
      · exact .refl k _
      · exact .refl k _
    · obtain ⟨o, ms⟩ := x
      obtain ⟨o', ms'⟩ := x'
      obtain rfl : o = .exhausted := hx
      obtain rfl : o' = .exhausted := hx'
      exact Or.inr ⟨⟨rfl, rfl⟩, hinit, htold⟩

end Scan

/-! ## Counting -/

/-- What never decreases and stays below a bound does not increase everywhere for long. -/
theorem exists_stable {ι : Type} {f : Nat → ι → Nat} (s : Finset ι) {bound : Nat} (hmono : ∀ n i, f n i ≤ f (n + 1) i)
    (hbound : ∀ n i, f n i ≤ bound) : ∃ n ≤ s.card * bound, ∀ i ∈ s, f (n + 1) i = f n i := by
  by_contra hnone
  push Not at hnone
  have hsum (n : Nat) (hn : n ≤ s.card * bound + 1) : n ≤ s.sum (f n) := by
    induction n with
    | zero => exact Nat.zero_le _
    | succ n ih =>
      obtain ⟨i, hi, hne⟩ := hnone n (Nat.le_of_succ_le_succ hn)
      have hlt : s.sum (f n) < s.sum (f (n + 1)) :=
        Finset.sum_lt_sum (fun i _ => hmono n i) ⟨i, hi, Nat.lt_of_le_of_ne (hmono n i) hne.symm⟩
      have := ih (Nat.le_of_succ_le hn)
      omega
  have htotal : s.sum (f (s.card * bound + 1)) ≤ s.card * bound :=
    Finset.sum_le_card_nsmul s _ bound fun i _ => hbound _ i
  have := hsum _ (Nat.le_refl _)
  omega

/-! ## Enough room -/

/-- The positions ahead are those so many bytes on. -/
theorem Cursor.Onward.eq_advance {here next : Cursor} (h : here.Onward next) :
    ∃ n, n ≤ here.rest.length ∧ next = here.advance n := by
  obtain ⟨bs, hbs, ho⟩ := h
  refine ⟨bs.length, ?_, ?_⟩
  · rw [hbs, List.length_append]
    exact Nat.le_add_right ..
  · obtain ⟨o, rest⟩ := next
    rw [Cursor.advance, hbs, List.drop_left, ← ho]

section Room

open Scan

variable {program : Program τ α} {k : Nat} {start : Cursor}

/-- The test of a row leads on. -/
theorem onward_test {steps nest : Nat} (m : Matcher τ) (here next : Cursor) (ms : List (Move α))
    (hhere : start.Onward here) (hnext : m.scan (scan program steps nest) here = (.matched next, ms)) :
    start.Onward next :=
  hhere.trans ((kept_leads program steps).test (fun t _ here => scan_leads program steps nest t here)
    (fun _ _ => trivial) here next ms hnext)

/-- As many rows with tests that agree. -/
theorem scanRows_agrees_of_scan {steps steps' nest nest' : Nat}
    (hscan : ∀ t here, start.Onward here →
      Agrees k (scan program steps nest t here) (scan program steps' nest' t here))
    (rows : List (Row τ α)) (left i : Nat) {here : Cursor} (hhere : start.Onward here) :
    Agrees k (scanRows (Matcher.scan (scan program steps nest)) rows left i here)
      (scanRows (Matcher.scan (scan program steps' nest')) rows left i here) := by
  have htest (m : Matcher τ) (here : Cursor) (hhere : start.Onward here) :
      Agrees k (m.scan (scan program steps nest) here) (m.scan (scan program steps' nest') here) :=
    (congruence_agrees k).test (fun t here next ms hhere hnext => hhere.trans (scan_leads _ _ _ t here next ms hnext))
      hscan m hhere
  have hrows := (congruence_agrees k).scanRows onward_test htest rows 0 0 (fun i here _ => .refl k _) left i here hhere
  rwa [Nat.zero_add] at hrows

/-- Scans for each `i` at each offset, which stop getting further for good once none of them gets further with one unit
of room more: so much room is enough for those in `I`, if the others need none. -/
theorem agrees_of_spots {ι : Type} (x : Nat → ι → Cursor → Scan (Move α)) (I : Finset ι)
    (hextends : ∀ n i here, (x n i here).Extends (x (n + 1) i here))
    (hothers : ∀ i, i ∉ I → ∀ n here, x n i here = x (n + 1) i here)
    (hstable : ∀ n, (∀ i here, start.Onward here → Agrees k (x n i here) (x (n + 1) i here)) →
      ∀ more i here, start.Onward here → Agrees k (x (n + more) i here) (x (n + 1 + more) i here))
    {m : Nat} (hm : I.card * (start.rest.length + 1) * (k + 1) ≤ m) (more : Nat) (i : ι) {here : Cursor}
    (hhere : start.Onward here) : Agrees k (x m i here) (x (m + more) i here) := by
  let spots : Finset (ι × Nat) := I ×ˢ Finset.range (start.rest.length + 1)
  have hcard : spots.card * (k + 1) ≤ m := by
    rwa [Finset.card_product, Finset.card_range]
  obtain ⟨n, hn, hsame⟩ := exists_stable (f := fun n p => progress k (x n p.1 (start.advance p.2))) spots
    (fun n p => (hextends n _ _).progress_le) fun n p => progress_le k _
  have hlater := hstable n fun i here hhere => by
    by_cases hi : i ∈ I
    · obtain ⟨o, ho, rfl⟩ := hhere.eq_advance
      have hmem : (i, o) ∈ spots := Finset.mem_product.2 ⟨hi, Finset.mem_range.2 (Nat.lt_succ_of_le ho)⟩
      exact (hextends n _ _).agrees (hsame (i, o) hmem)
    · exact Or.inl (hothers i hi n here)
  obtain ⟨rest, rfl⟩ := Nat.exists_eq_add_of_le (hn.trans hcard)
  induction more with
  | zero => exact .refl k _
  | succ more ih =>
    have hnext := hlater (rest + more) i here hhere
    rw [show n + (rest + more) = n + rest + more by omega,
      show n + 1 + (rest + more) = n + rest + (more + 1) by omega] at hnext
    exact ih.trans hnext

/-- So many rows may be visited: each row at each offset, once for every action that counts and once more. -/
theorem scanRows_agrees {test : Matcher τ → Cursor → Scan (Move α)}
    (hstay : ∀ m here next ms, start.Onward here → test m here = (.matched next, ms) → start.Onward next)
    (rows : List (Row τ α)) {steps : Nat} (hsteps : rows.length * (start.rest.length + 1) * (k + 1) < steps)
    (more i : Nat) {here : Cursor} (hhere : start.Onward here) :
    Agrees k (scanRows test rows steps i here) (scanRows test rows (steps + more) i here) := by
  obtain ⟨steps, rfl⟩ := Nat.exists_eq_add_of_le' (Nat.one_le_of_lt hsteps)
  rw [Nat.add_right_comm]
  refine agrees_of_spots (fun n i here => scanRows test rows (n + 1) i here) (Finset.range rows.length) ?_ ?_ ?_
    (by rw [Finset.card_range]; exact Nat.le_of_lt_succ hsteps) more i hhere
  · exact fun n i here => scanRows_extends (fun _ _ => .refl _) rows (Nat.le_succ _) i here
  · -- beyond the last row there is nothing to visit
    intro i hi n here
    rw [scanRows, scanRows, List.getElem?_eq_none (Nat.le_of_not_lt (mt Finset.mem_range.2 hi))]
  · intro n hsame more i here hhere
    have hrows := (congruence_agrees k).scanRows hstay (fun m here _ => .refl k (test m here)) rows (n + 1) (n + 2)
      hsame more i here hhere
    rwa [Nat.add_right_comm n 1, Nat.add_right_comm (n + 1) 1] at hrows

/-- So many tables may be open inside one another: each table at each offset, once for every action that counts and
once more. -/
theorem scan_agrees_nest {T : Finset τ} (hT : ∀ t, t ∉ T → program t = []) (steps : Nat) {nest : Nat}
    (hnest : T.card * (start.rest.length + 1) * (k + 1) < nest) (more : Nat) (t : τ) {here : Cursor}
    (hhere : start.Onward here) :
    Agrees k (scan program steps nest t here) (scan program steps (nest + more) t here) := by
  obtain ⟨nest, rfl⟩ := Nat.exists_eq_add_of_le' (Nat.one_le_of_lt hnest)
  rw [Nat.add_right_comm]
  refine agrees_of_spots (fun n t here => scan program steps (n + 1) t here) T ?_ ?_ ?_ (Nat.le_of_lt_succ hnest) more
    t hhere
  · exact fun n t here => scan_extends program (Nat.le_refl _) (Nat.le_succ _) t here
  · -- a table without rows opens none
    intro t ht n here
    rw [scan, scan, hT t ht]
    cases steps <;> rfl
  · intro n hsame more
    induction more with
    | zero => exact hsame
    | succ more ih => exact fun t here hhere => scanRows_agrees_of_scan ih (program t) steps 0 hhere

/-- So many rows may be visited in the walk of any table. -/
theorem scan_agrees_steps {rows steps : Nat} (hrows : ∀ t, (program t).length ≤ rows)
    (hsteps : rows * (start.rest.length + 1) * (k + 1) < steps) (more nest : Nat) (t : τ) {here : Cursor}
    (hhere : start.Onward here) :
    Agrees k (scan program steps nest t here) (scan program (steps + more) nest t here) := by
  induction nest generalizing t here with
  | zero => exact .refl k _
  | succ nest ih =>
    have hroom : (program t).length * (start.rest.length + 1) * (k + 1) ≤ rows * (start.rest.length + 1) * (k + 1) :=
      Nat.mul_le_mul_right _ (Nat.mul_le_mul_right _ (hrows t))
    have hsame := scanRows_agrees_of_scan (fun t here hhere => ih t hhere) (program t) steps 0 hhere
    exact hsame.trans (scanRows_agrees onward_test (program t) (Nat.lt_of_le_of_lt hroom hsteps) more 0 hhere)

/-- With ample budgets a scan does all that it does with any larger ones, as far as the first `k` actions. -/
theorem scan_ample {T : Finset τ} {rows : Nat} (hT : ∀ t, t ∉ T → program t = [])
    (hrows : ∀ t, (program t).length ≤ rows) (t : τ) (here : Cursor) (moreSteps moreNest : Nat) :
    Agrees k
      (scan program (Budget.ample T.card rows here.rest.length k).steps
        (Budget.ample T.card rows here.rest.length k).nest t here)
      (scan program ((Budget.ample T.card rows here.rest.length k).steps + moreSteps)
        ((Budget.ample T.card rows here.rest.length k).nest + moreNest) t here) :=
  (scan_agrees_steps hrows (Nat.lt_succ_self _) moreSteps _ t (.refl here)).trans
    (scan_agrees_nest hT _ (Nat.lt_succ_self _) moreNest t (.refl here))

end Room

/-! ## Runs -/

/-- From `c` on, the context refuses one of the first `k` actions, or none. -/
def RefusesWithin (act : Context α σ) (k : Nat) (c : σ) : Prop :=
  ∀ as, (feed act as c).2 = false → (feed act (as.take k) c).2 = false

section Runs

open Scan

variable {program : Program τ α} {act : Context α σ} {k : Nat} {s : State σ} {T : Finset τ} {rows : Nat}

theorem feed_of_refusal {as : List (α × Match)} {c : σ} (h : (feed act as c).2 = false) (bs : List (α × Match)) :
    (feed act (as ++ bs) c).2 = false := by
  rw [feed_append]
  rcases hfeed : feed act as c with ⟨c', _ | _⟩
  · rfl
  · rw [hfeed] at h
    cases h

/-- What is refused among some moves is refused, whatever moves come after them. -/
theorem replay_of_refusal {ms : List (Move α)} (h : (feed act (actions ms) s.context).2 = false) (ns : List (Move α)) :
    replay act (ms ++ ns) s = replay act ms s := by
  obtain ⟨-, htaken⟩ := replay_context act ms s
  rw [replay_append]
  rcases hms : replay act ms s with ⟨s', _ | stop⟩
  · rw [htaken.1 (by rw [hms])] at h
    cases h
  · rfl

/-- Where one of two scans that agree is seen to end, the other is seen to end in the same way. -/
theorem Scan.Agrees.resume {x y : Scan (Move α)} (h : Agrees k x y) (hact : RefusesWithin act k s.context)
    (hend : (y.resume act s).1 ≠ .exhausted) : x.resume act s = y.resume act s := by
  rcases h with rfl | ⟨⟨-, hy⟩, ⟨ms, hms⟩, htold⟩
  · rfl
  -- the context refuses something, and does so among the first `k` actions, which are the same
  have hrefused : (feed act (actions y.2) s.context).2 = false := by
    obtain ⟨-, htaken⟩ := replay_context act y.2 s
    rw [Scan.resume] at hend
    rcases hreplay : replay act y.2 s with ⟨s', _ | stop⟩
    · rw [hreplay] at hend
      exact absurd hy hend
    · rw [hreplay] at htaken
      simpa using htaken
  have htake : (actions y.2).take k = (actions x.2).take k := by
    rw [told, told, ← hms, actions_append, List.length_append] at htold
    rw [← hms, actions_append, List.take_append, List.append_right_eq_self, List.take_eq_nil_iff,
      ← List.length_eq_zero_iff]
    omega
  have hsame := feed_of_refusal (htake ▸ hact _ hrefused) ((actions x.2).drop k)
  rw [List.take_append_drop] at hsame
  rw [Scan.resume, Scan.resume, ← hms, replay_of_refusal hsame]
  obtain ⟨-, htaken⟩ := replay_context act x.2 s
  rcases hreplay : replay act x.2 s with ⟨s', _ | stop⟩
  · rw [htaken.1 (by rw [hreplay])] at hsame
    cases hsame
  · rfl

/-- A run that ends with some budgets ends with ample ones, and in the same way. -/
theorem run_ample (hT : ∀ t, t ∉ T → program t = []) (hrows : ∀ t, (program t).length ≤ rows)
    (hact : RefusesWithin act k s.context) {steps nest : Nat} {t : τ} {here : Cursor} {result : Outcome × State σ}
    (hends : EndsWithin program act steps nest t here s result) :
    EndsWithin program act (Budget.ample T.card rows here.rest.length k).steps
      (Budget.ample T.card rows here.rest.length k).nest t here s result := by
  obtain ⟨hend, hmore⟩ := hends
  refine .of_ne_exhausted ?_ hend
  -- more room than either
  have hrun := hmore (Budget.ample T.card rows here.rest.length k).steps
    (Budget.ample T.card rows here.rest.length k).nest
  rw [Nat.add_comm steps, Nat.add_comm nest, run_eq_resume] at hrun
  rw [run_eq_resume, ← hrun]
  exact (scan_ample hT hrows t here steps nest).resume hact (by rw [hrun]; exact hend)

theorem runs_ample (hT : ∀ t, t ∉ T → program t = []) (hrows : ∀ t, (program t).length ≤ rows)
    (hact : ∀ c, RefusesWithin act k c) {steps nest : Nat} {input : List UInt8} {ts : List τ}
    (hends : ∀ r ∈ runs program act steps nest input ts s, r.1 ≠ .exhausted) :
    runs program act (Budget.ample T.card rows input.length k).steps (Budget.ample T.card rows input.length k).nest
      input ts s = runs program act steps nest input ts s := by
  induction ts generalizing s with
  | nil => rfl
  | cons t ts ih =>
    obtain ⟨hend, hlater⟩ := List.forall_mem_cons.1 hends
    obtain ⟨-, hmore⟩ := run_ample hT hrows (hact s.context) (.of_ne_exhausted rfl hend)
    have hrun : run program act (Budget.ample T.card rows input.length k).steps
        (Budget.ample T.card rows input.length k).nest t (.start input) s =
      run program act steps nest t (.start input) s := hmore 0 0
    rw [runs, runs, hrun, ih hlater]

end Runs

/-! ## Recorders -/

section Recorders

/-- A recorder refuses one action, by its number. -/
theorem Recorder.feed_eq_false_iff (refused : Option Nat) (as : List (α × Match)) (r : Recorder α) :
    (feed (Recorder.context refused) as r).2 = false ↔
      ∃ n, refused = some n ∧ r.count < n ∧ n ≤ r.count + as.length := by
  induction as generalizing r with
  | nil =>
    simp only [feed, List.length_nil, Nat.add_zero]
    constructor
    · simp
    · rintro ⟨n, -, hlt, hle⟩
      omega
  | cons p as ih =>
    obtain ⟨a, m⟩ := p
    have hcount : (⟨(a, m) :: r.recorded⟩ : Recorder α).count = r.count + 1 := rfl
    by_cases hrefused : refused = some (r.count + 1)
    · subst hrefused
      simp [feed, Recorder.context, hcount]
    · simp only [feed, Recorder.context, hcount, ne_eq, hrefused, not_false_eq_true, decide_true, ih, List.length_cons]
      constructor
      · rintro ⟨n, rfl, hlt, hle⟩
        exact ⟨n, rfl, by omega, by omega⟩
      · rintro ⟨n, rfl, hlt, hle⟩
        refine ⟨n, rfl, Nat.lt_of_le_of_ne hlt fun heq => hrefused (congrArg some heq.symm), by omega⟩

theorem Recorder.refusesWithin (refused : Option Nat) (r : Recorder α) :
    RefusesWithin (Recorder.context refused) (refused.getD 0) r := by
  intro as h
  obtain ⟨n, rfl, hlt, hle⟩ := (feed_eq_false_iff refused as r).1 h
  refine (feed_eq_false_iff (some n) _ r).2 ⟨n, rfl, hlt, ?_⟩
  rw [Option.getD_some, List.length_take]
  omega

/-- Runs of a recorder that all end with some budget end with an ample one, and in the same way. -/
theorem runAll_ample {program : Program τ α} {T : Finset τ} {rows : Nat} (hT : ∀ t, t ∉ T → program t = [])
    (hrows : ∀ t, (program t).length ≤ rows) {refused : Option Nat} {budget : Budget} {input : List UInt8}
    {ts : List τ} {s : State (Recorder α)} (hends : ∀ r ∈ runAll program refused budget input ts s, r.1 ≠ .exhausted) :
    runAll program refused (.ample T.card rows input.length (refused.getD 0)) input ts s =
      runAll program refused budget input ts s := by
  rw [runAll_eq] at hends
  rw [runAll_eq, runAll_eq]
  exact runs_ample hT hrows (Recorder.refusesWithin refused) hends

end Recorders

end TableJson.Machine
