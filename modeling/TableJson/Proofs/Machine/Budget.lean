import TableJson.Proofs.Machine.Scan

/-!
# Budgets — what more room changes

A walk that ends within its budgets ends in the same way within any larger ones.  One that exhausts them has got
somewhere, and with more room it goes on from there.

* `Extends x y`: the scan `y` is `x`, or `x` ran out of room and `y` goes on.
* `Scan.Congruence`: a relation between scans that is kept by going on after a match and after a mismatch.  Then it is
  kept by repetitions, tests and rows (`Congruence.repeatScan`, `Congruence.test`, `Congruence.scanRows`).
* `scan_extends`: a scan with larger budgets extends one with smaller ones.
* `EndsWithin`: a run that ends by itself, with so many tables open inside one another and so many rows visited in one
  walk at most.  Such a run has one result, whatever room it is given beyond that (`EndsWithin.of_ne_exhausted`).
-/

namespace TableJson.Machine

namespace Scan

variable {β : Type} {x x' : Scan β}

/-- `y` is `x`, or goes on where `x` ran out of room. -/
def Extends (x y : Scan β) : Prop := x = y ∨ x.1 = .exhausted ∧ x.2 <+: y.2

theorem Extends.refl (x : Scan β) : x.Extends x := Or.inl rfl

theorem extends_of_exhausted (x : Scan β) : Extends (.exhausted, []) x := Or.inr ⟨rfl, List.nil_prefix⟩

/-- What is done before a fork is done. -/
theorem prefix_fork (x : Scan β) (f : Cursor → Scan β) (g : Scan β) : x.2 <+: (x.fork f g).2 := by
  rcases x with ⟨next | _ | _ | _, ms⟩
  · exact List.prefix_append ms _
  · exact List.prefix_append ms _
  · exact List.prefix_refl ms
  · exact List.prefix_refl ms

theorem Extends.after (h : x.Extends x') (ms : List β) : (x.after ms).Extends (x'.after ms) := by
  rcases h with rfl | ⟨hend, hinit⟩
  · exact .refl _
  · exact Or.inr ⟨hend, List.prefix_append_right_inj ms |>.2 hinit⟩

/-- A relation between scans that is kept by going on after a match and after a mismatch. -/
structure Congruence (R : Scan β → Scan β → Prop) : Prop where
  refl (x : Scan β) : R x x
  fork {x x' g g' : Scan β} {f f' : Cursor → Scan β} (hx : R x x')
    (hf : ∀ next ms, x = (.matched next, ms) → R (f next) (f' next)) (hg : R g g') : R (x.fork f g) (x'.fork f' g')

theorem congruence_extends : Congruence (Extends (β := β)) where
  refl := .refl
  fork {x x' g g' f f'} hx hf hg := by
    rcases hx with rfl | ⟨hend, hinit⟩
    · rcases x with ⟨next | _ | _ | _, ms⟩
      · exact (hf next ms rfl).after ms
      · exact hg.after ms
      · exact .refl _
      · exact .refl _
    · obtain ⟨o, ms⟩ := x
      obtain rfl : o = .exhausted := hend
      exact Or.inr ⟨rfl, hinit.trans (prefix_fork x' f' g')⟩

end Scan

section Scans

variable {τ α σ : Type}

/-! ## Scans side by side -/

namespace Scan.Congruence

section Repetition

variable {β : Type} {R : Scan β → Scan β → Prop} (h : Congruence R)

include h

theorem after {x x' : Scan β} (hx : R x x') (ms : List β) : R (x.after ms) (x'.after ms) := by
  have hfork : R (Scan.fork (.mismatch, ms) (fun _ => x) x) (Scan.fork (.mismatch, ms) (fun _ => x) x') :=
    h.fork (h.refl _) (fun _ _ _ => h.refl x) hx
  exact hfork

/-- Repetitions of related walks, none of which leads out of `P`. -/
theorem repeatScan {P : Cursor → Prop} {walk walk' : Cursor → Scan β}
    (hstay : ∀ here next ms, P here → walk here = (.matched next, ms) → P next)
    (hwalk : ∀ here, P here → R (walk here) (walk' here)) (min : Nat) (max : Option Nat) (ahead : List UInt8)
    (count : Nat) {here : Cursor} (hhere : P here) :
    R (Machine.repeatScan min max walk ahead count here) (Machine.repeatScan min max walk' ahead count here) := by
  induction ahead generalizing count here with
  | nil =>
    rw [repeatScan_eq, repeatScan_eq]
    split
    · exact h.fork (hwalk here hhere) (fun _ _ _ => h.refl _) (h.refl _)
    · exact h.refl _
  | cons b ahead ih =>
    rw [repeatScan_eq, repeatScan_eq]
    split
    · refine h.fork (hwalk here hhere) (fun next ms hnext => ?_) (h.refl _)
      split
      · exact h.refl _
      · exact ih (count + 1) (hstay here next ms hhere hnext)
    · exact h.refl _

end Repetition

variable {R : Scan (Move α) → Scan (Move α) → Prop} (h : Congruence R) {P : Cursor → Prop}

include h

theorem test {call call' : τ → Cursor → Scan (Move α)}
    (hstay : ∀ t here next ms, P here → call t here = (.matched next, ms) → P next)
    (hcall : ∀ t here, P here → R (call t here) (call' t here)) (m : Matcher τ) {here : Cursor} (hhere : P here) :
    R (m.scan call here) (m.scan call' here) := by
  cases m with
  | table t => exact hcall t here hhere
  | optTable t => exact h.fork (hcall t here hhere) (fun _ _ _ => h.refl _) (h.refl _)
  | repeatTable t min max => exact h.repeatScan (hstay t) (hcall t) min max _ _ hhere
  | _ => exact h.refl _

/-- Scans of the same rows with related tests are related with any room, if they are with some. -/
theorem scanRows {test test' : Matcher τ → Cursor → Scan (Move α)}
    (hstay : ∀ m here next ms, P here → test m here = (.matched next, ms) → P next)
    (htest : ∀ m here, P here → R (test m here) (test' m here)) (rows : List (Row τ α)) (steps steps' : Nat)
    (hsteps : ∀ i here, P here →
      R (Machine.scanRows test rows steps i here) (Machine.scanRows test' rows steps' i here))
    (more i : Nat) (here : Cursor) (hhere : P here) :
    R (Machine.scanRows test rows (steps + more) i here) (Machine.scanRows test' rows (steps' + more) i here) := by
  induction more generalizing i here with
  | zero => exact hsteps i here hhere
  | succ more ih =>
    rw [← Nat.add_assoc, ← Nat.add_assoc, Machine.scanRows, Machine.scanRows]
    cases rows[i]? with
    | none => exact h.refl _
    | some row =>
      refine h.fork (htest row.matcher here hhere) (fun next ms hnext => ?_) ?_
      · refine h.after ?_ _
        rcases row.status with _ | _ | _
        · rcases row.onMatch with _ | j
          · exact h.refl _
          · exact ih j next (hstay row.matcher here next ms hhere hnext)
        · exact h.refl _
        · exact h.refl _
      · rcases row.onFail with _ | j
        · exact h.refl _
        · exact ih j here hhere

end Scan.Congruence

/-- With tests that go on, and with more room, a scan of rows goes on. -/
theorem scanRows_extends {test test' : Matcher τ → Cursor → Scan (Move α)}
    (h : ∀ m here, (test m here).Extends (test' m here)) (rows : List (Row τ α)) {steps steps' : Nat}
    (hsteps : steps ≤ steps') (i : Nat) (here : Cursor) :
    (scanRows test rows steps i here).Extends (scanRows test' rows steps' i here) := by
  obtain ⟨more, rfl⟩ := Nat.exists_eq_add_of_le' hsteps
  have hrows := Scan.congruence_extends.scanRows (P := fun _ => True) (fun _ _ _ _ _ _ => trivial)
    (fun m here _ => h m here) rows 0 more (fun _ _ _ => Scan.extends_of_exhausted _) steps i here trivial
  rwa [Nat.zero_add] at hrows

/-- With more room a scan goes on, if it needed more. -/
theorem scan_extends (program : Program τ α) {steps steps' nest nest' : Nat} (hsteps : steps ≤ steps')
    (hnest : nest ≤ nest') (t : τ) (here : Cursor) :
    (scan program steps nest t here).Extends (scan program steps' nest' t here) := by
  induction nest generalizing nest' t here with
  | zero => exact Scan.extends_of_exhausted _
  | succ nest ih =>
    obtain ⟨nest', rfl⟩ := Nat.exists_eq_add_of_le' (show 1 ≤ nest' by omega)
    refine scanRows_extends (fun m here => ?_) (program t) hsteps 0 here
    exact Scan.congruence_extends.test (P := fun _ => True) (fun _ _ _ _ _ _ => trivial)
      (fun t here _ => ih (by omega) t here) m trivial

/-! ## Rows that lead forwards -/

/-- A way on from row `i` in a table of `n` rows that leads out of it, or to a later row. -/
def Exit.Forward (i n : Nat) : Exit → Prop
  | .leave => True
  | .row j => i < j ∧ j < n

instance (i n : Nat) (e : Exit) : Decidable (e.Forward i n) :=
  match e with
  | .leave => isTrue trivial
  | .row j => inferInstanceAs (Decidable (i < j ∧ j < n))

/-- Rows that lead forwards only. -/
def Forward (rows : List (Row τ α)) : Prop :=
  ∀ p ∈ rows.zipIdx, p.1.onMatch.Forward p.2 rows.length ∧ p.1.onFail.Forward p.2 rows.length

instance (rows : List (Row τ α)) : Decidable (Forward rows) := inferInstanceAs (Decidable (∀ p ∈ _, _))

/-- What does not run out of room after a match and after a mismatch does not run out of room. -/
theorem Scan.fork_lasts {β : Type} {x g : Scan β} {f : Cursor → Scan β} (hx : x.1 ≠ .exhausted)
    (hf : ∀ next, (f next).1 ≠ .exhausted) (hg : g.1 ≠ .exhausted) : (x.fork f g).1 ≠ .exhausted := by
  rcases x with ⟨next | _ | _ | _, ms⟩
  · exact hf next
  · exact hg
  · exact hx
  · exact hx

theorem repeatScan_lasts {β : Type} {walk : Cursor → Scan β} (h : ∀ here, (walk here).1 ≠ .exhausted) (min : Nat)
    (max : Option Nat) (ahead : List UInt8) (count : Nat) (here : Cursor) :
    (repeatScan min max walk ahead count here).1 ≠ .exhausted := by
  have hsettle (count : Nat) (here : Cursor) : settle min count here ≠ .exhausted := by
    unfold settle
    split <;> simp
  induction ahead generalizing count here with
  | nil =>
    rw [repeatScan_eq]
    split
    · refine Scan.fork_lasts (h here) (fun next => ?_) (hsettle count here)
      rw [ite_self]
      exact hsettle (count + 1) next
    · exact hsettle count here
  | cons b ahead ih =>
    rw [repeatScan_eq]
    split
    · refine Scan.fork_lasts (h here) (fun next => ?_) (hsettle count here)
      split
      · exact hsettle (count + 1) next
      · exact ih (count + 1) next
    · exact hsettle count here

/-- A scan of rows that lead forwards runs out of room in a test only, if as many rows may be visited as there are. -/
theorem scanRows_lasts {test : Matcher τ → Cursor → Scan (Move α)} {rows : List (Row τ α)} (hforward : Forward rows)
    (htest : ∀ row ∈ rows, ∀ here, (test row.matcher here).1 ≠ .exhausted) {steps i : Nat} (hi : i < rows.length)
    (hsteps : rows.length ≤ i + steps) (here : Cursor) : (scanRows test rows steps i here).1 ≠ .exhausted := by
  induction steps generalizing i here with
  | zero => omega
  | succ steps ih =>
    obtain ⟨hmatch, hfail⟩ := hforward (rows[i], i) (List.mk_mem_zipIdx_iff_getElem?.2 (List.getElem?_eq_getElem hi))
    rw [scanRows, List.getElem?_eq_getElem hi]
    refine Scan.fork_lasts (htest _ (List.getElem_mem hi) here) (fun next => ?_) ?_
    · show Prod.fst _ ≠ _
      rcases rows[i].status with _ | _ | _
      · rcases honMatch : rows[i].onMatch with _ | j
        · simp [Scan.after]
        · rw [honMatch] at hmatch
          exact ih hmatch.2 (by have := hmatch.1; omega) next
      · simp [Scan.after]
      · simp [Scan.after]
    · rcases honFail : rows[i].onFail with _ | j
      · simp
      · rw [honFail] at hfail
        exact ih hfail.2 (by have := hfail.1; omega) here

/-! ## Runs -/

/-- A context that stops a scan, or sees its end, does so with more room as well. -/
theorem Scan.Extends.resume {act : Context α σ} {x y : Scan (Move α)} (h : x.Extends y) {s : State σ}
    (hend : (x.resume act s).1 ≠ .exhausted) : y.resume act s = x.resume act s := by
  rcases h with rfl | ⟨hx, rest, hrest⟩
  · rfl
  · revert hend
    rw [Scan.resume, Scan.resume, ← hrest, replay_append]
    rcases replay act x.2 s with ⟨s', _ | stop⟩
    · exact fun hend => absurd hx hend
    · exact fun _ => rfl

variable {program : Program τ α} {act : Context α σ} {steps nest : Nat} {t : τ} {here : Cursor} {s : State σ}
  {result : Outcome × State σ}

/-- The run of the table `t` ends by itself as `result`.  On the way no more than `nest` tables are ever open inside one
another, and no more than `steps` rows visited in one walk of one table: more of either changes nothing. -/
def EndsWithin (program : Program τ α) (act : Context α σ) (steps nest : Nat) (t : τ) (here : Cursor) (s : State σ)
    (result : Outcome × State σ) : Prop :=
  result.1 ≠ .exhausted ∧ ∀ moreSteps moreNest,
    run program act (steps + moreSteps) (nest + moreNest) t here s = result

theorem EndsWithin.of_ne_exhausted (h : run program act steps nest t here s = result) (hend : result.1 ≠ .exhausted) :
    EndsWithin program act steps nest t here s result := by
  refine ⟨hend, fun moreSteps moreNest => ?_⟩
  have hextends := scan_extends program (Nat.le_add_right steps moreSteps) (Nat.le_add_right nest moreNest) t here
  rw [run_eq_resume] at h ⊢
  rw [← h] at hend ⊢
  exact hextends.resume hend

end Scans

end TableJson.Machine
