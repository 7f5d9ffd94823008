import TableJson.Proofs.Machine.Scan

/-!
# Kept — what holds of every scan of some tables

A scan is put together in a few ways: it ends at once, looks for a character or a fixed text, goes on after another
scan, or hands over the action of a row that matched.  What each of these keeps holds of every scan (`Kept.scan`),
however the tables call one another, as long as they open only one another.
-/

namespace TableJson.Machine

variable {τ α : Type}

/-- The test walks the table `t`. -/
def Matcher.Opens (m : Matcher τ) (t : τ) : Prop :=
  m = .table t ∨ m = .optTable t ∨ ∃ min max, m = .repeatTable t min max

/-- How a row that has matched goes on, as far as it says so itself. -/
inductive Row.Ends (row : Row τ α) (here next : Cursor) : Outcome → Prop
  | goes (h : row.status ≠ .reject) : Ends row here next (.matched next)
  | rejects (h : row.status = .reject) (i : Nat) : Ends row here next (.halted (.rejected i here.offset))

/-- A property of scans and the positions that they start from, kept by each way of putting a scan of the tables `T`
together. -/
structure Kept (program : Program τ α) (steps : Nat) (T : τ → Prop) (I : Cursor → Scan (Move α) → Prop) : Prop where
  opens : ∀ {t t' row}, T t → row ∈ program t → row.matcher.Opens t' → T t'
  /-- It ends where it is. -/
  done : ∀ here o, (∀ halt, o ≠ .halted halt) → (∀ next, o = .matched next → next = here) → I here (o, [])
  char : ∀ p here, I here (scanChar p here)
  word : ∀ (call : τ → Cursor → Scan (Move α)) text here, I here (Matcher.scan call (.seq text) here)
  fork : ∀ {here x f g}, I here x → (∀ next ms, x = (.matched next, ms) → I next (f next)) → I here g →
    I here (x.fork f g)
  /-- A row of the table `t` hands its action over. -/
  row : ∀ {nest t row here next ms o}, T t → row ∈ program t →
    row.matcher.scan (scan program steps nest) here = (.matched next, ms) → I here (.matched next, ms) →
    row.Ends here next o → I here (o, ms ++ row.moves here next)

namespace Kept

variable {program : Program τ α} {steps : Nat} {T : τ → Prop} {I : Cursor → Scan (Move α) → Prop}
  (h : Kept program steps T I)

include h

theorem matched (here : Cursor) : I here (.matched here, []) :=
  h.done here _ (by simp) fun _ hnext => (Outcome.matched.inj hnext).symm

theorem mismatch (here : Cursor) : I here (.mismatch, []) := h.done here _ (by simp) (by simp)

theorem exhausted (here : Cursor) : I here (.exhausted, []) := h.done here _ (by simp) (by simp)

theorem after {here next : Cursor} {ms : List (Move α)} {x : Scan (Move α)} (hms : I here (.matched next, ms))
    (hx : I next x) : I here (x.after ms) := by
  have hfork : I here (Scan.fork (.matched next, ms) (fun _ => x) (.mismatch, [])) := by
    refine h.fork hms (fun there ns heq => ?_) (h.mismatch here)
    obtain ⟨⟨⟩, -⟩ := Prod.mk.inj heq
    exact hx
  rwa [Scan.fork_matched] at hfork

theorem settle (min count : Nat) (here : Cursor) : I here (Machine.settle min count here, []) := by
  unfold Machine.settle
  split
  · exact h.matched here
  · exact h.mismatch here

theorem repeatScan {walk : Cursor → Scan (Move α)} (hwalk : ∀ here, I here (walk here)) (min : Nat) (max : Option Nat)
    (ahead : List UInt8) (count : Nat) (here : Cursor) :
    I here (Machine.repeatScan min max walk ahead count here) := by
  induction ahead generalizing count here with
  | nil =>
    rw [repeatScan_eq]
    split
    · refine h.fork (hwalk here) (fun next _ _ => ?_) (h.settle min count here)
      rw [ite_self]
      exact h.settle min (count + 1) next
    · exact h.settle min count here
  | cons b ahead ih =>
    rw [repeatScan_eq]
    split
    · refine h.fork (hwalk here) (fun next _ _ => ?_) (h.settle min count here)
      split
      · exact h.settle min (count + 1) next
      · exact ih (count + 1) next
    · exact h.settle min count here

theorem test {call : τ → Cursor → Scan (Move α)} (hcall : ∀ t, T t → ∀ here, I here (call t here)) {m : Matcher τ}
    (hm : ∀ t, m.Opens t → T t) (here : Cursor) : I here (m.scan call here) := by
  cases m with
  | nothing => exact h.matched here
  | seq text => exact h.word call text here
  | oneOf set => exact h.char _ here
  | optOneOf set => exact h.fork (h.char _ here) (fun next _ _ => h.matched next) (h.matched here)
  | range lo hi => exact h.char _ here
  | table t => exact hcall t (hm t (Or.inl rfl)) here
  | optTable t =>
    exact h.fork (hcall t (hm t (Or.inr (Or.inl rfl))) here) (fun next _ _ => h.matched next) (h.matched here)
  | repeatOneOf set min max => exact h.repeatScan (h.char _) min max _ 0 here
  | repeatTable t min max => exact h.repeatScan (hcall t (hm t (Or.inr (Or.inr ⟨min, max, rfl⟩)))) min max _ 0 here

theorem scanRows {nest : Nat} (hcall : ∀ t, T t → ∀ here, I here (Machine.scan program steps nest t here)) {t : τ}
    (ht : T t) (left i : Nat) (here : Cursor) :
    I here (Machine.scanRows (Matcher.scan (Machine.scan program steps nest)) (program t) left i here) := by
  induction left generalizing i here with
  | zero => exact h.exhausted here
  | succ left ih =>
    rw [Machine.scanRows]
    cases hrow : (program t)[i]? with
    | none => exact h.mismatch here
    | some row =>
      have hmem := List.mem_of_getElem? hrow
      have htest := h.test hcall (fun t' => h.opens ht hmem) here
      dsimp only
      rcases hx : row.matcher.scan (Machine.scan program steps nest) here with ⟨next | _ | halt | _, ms⟩ <;>
        rw [hx] at htest
      · -- what the row hands over is part of its test: both start where the row does
        rw [Scan.fork_matched, Scan.after_after]
        have hends {o : Outcome} (ho : row.Ends here next o) := h.row ht hmem hx htest ho
        cases hstatus : row.status with
        | normal =>
          refine h.after (hends (.goes (by simp [hstatus]))) ?_
          rcases row.onMatch with _ | j
          · exact h.matched next
          · exact ih j next
        | accept => exact h.after (hends (.goes (by simp [hstatus]))) (h.matched next)
        | reject =>
          have hrejected := hends (.rejects hstatus i)
          rwa [← List.append_nil (ms ++ _)] at hrejected
      · refine h.fork htest (by simp) ?_
        rcases row.onFail with _ | j
        · exact h.mismatch here
        · exact ih j here
      · exact htest
      · exact htest

/-- What every way of putting a scan together keeps holds of every scan. -/
theorem scan (nest : Nat) {t : τ} (ht : T t) (here : Cursor) : I here (Machine.scan program steps nest t here) := by
  induction nest generalizing t here with
  | zero => exact h.exhausted here
  | succ nest ih => exact h.scanRows (fun t ht here => ih ht here) ht steps 0 here

end Kept

end TableJson.Machine
