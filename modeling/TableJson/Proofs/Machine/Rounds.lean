import TableJson.Proofs.Machine.Kept

/-!
# Rounds — repetitions end by themselves

A repetition is given as many rounds as bytes are ahead.  That never cuts it short: whatever matches leads on into the
bytes ahead (`scan_leads`), and a round that takes none of them is the last one.  So more rounds change nothing
(`repeatScan_rounds`, `repeatWalk_rounds`).
-/

namespace TableJson.Machine

/-- The position `next` comes after some of the bytes ahead. -/
def Cursor.Onward (here next : Cursor) : Prop :=
  ∃ bs, here.rest = bs ++ next.rest ∧ next.offset = here.offset + bs.length

namespace Cursor.Onward

variable {here mid next : Cursor}

theorem refl (here : Cursor) : here.Onward here := ⟨[], rfl, rfl⟩

theorem trans (h : here.Onward mid) (h' : mid.Onward next) : here.Onward next := by
  obtain ⟨bs, hbs, ho⟩ := h
  obtain ⟨ds, hds, ho'⟩ := h'
  exact ⟨bs ++ ds, by rw [hbs, hds, List.append_assoc], by rw [ho', ho, List.length_append, Nat.add_assoc]⟩

theorem of_char? {p : Char → Bool} (h : here.char? p = some next) : here.Onward next := by
  obtain ⟨c, hrest, ho⟩ := eq_of_char? h
  exact ⟨String.utf8EncodeChar c, hrest, by rw [ho, String.length_utf8EncodeChar]⟩

theorem advance {n : Nat} (h : n ≤ here.rest.length) : here.Onward (here.advance n) :=
  ⟨here.rest.take n, (List.take_append_drop n here.rest).symm, by rw [List.length_take, Nat.min_eq_left h]; rfl⟩

/-- Whatever takes something leaves less. -/
theorem length_lt (h : here.Onward next) (hmoved : next.offset ≠ here.offset) :
    next.rest.length < here.rest.length := by
  obtain ⟨bs, hbs, ho⟩ := h
  rw [hbs, List.length_append]
  omega

/-- Whatever takes nothing stays. -/
theorem eq_of_offset (h : here.Onward next) (hsame : next.offset = here.offset) : next = here := by
  obtain ⟨bs, hbs, ho⟩ := h
  obtain rfl : bs = [] := List.eq_nil_of_length_eq_zero (by omega)
  obtain ⟨o, rest⟩ := next
  obtain rfl : here.rest = rest := hbs
  obtain rfl : o = here.offset := hsame
  rfl

end Cursor.Onward

/-! ## Matches lead on -/

/-- Whatever matches leads on. -/
def Scan.Leads {β : Type} (here : Cursor) (x : Scan β) : Prop := ∀ next ms, x = (.matched next, ms) → here.Onward next

section Leads

variable {τ α : Type}

namespace Scan.Leads

variable {β : Type} {here : Cursor} {x g : Scan β} {f : Cursor → Scan β}

theorem matched {next : Cursor} {ms : List β} (h : here.Onward next) : Leads here (.matched next, ms) := by
  rintro _ _ ⟨⟩
  exact h

theorem after (h : Leads here x) (ms : List β) : Leads here (x.after ms) := by
  intro next ns hx
  obtain ⟨ns', hx, -⟩ := after_eq_iff.1 hx
  exact h next ns' hx

theorem fork (hx : Leads here x) (hf : ∀ next ms, x = (.matched next, ms) → Leads next (f next)) (hg : Leads here g) :
    Leads here (x.fork f g) := by
  rcases x with ⟨mid | _ | _ | _, ms⟩
  · intro next ns h
    obtain ⟨ns', hnext, -⟩ := after_eq_iff.1 h
    exact (hx mid ms rfl).trans (hf mid ms rfl next ns' hnext)
  · exact hg.after ms
  · exact hx
  · exact hx

end Scan.Leads

theorem scanChar_leads (p : Char → Bool) (here : Cursor) : (scanChar p here : Scan (Move α)).Leads here := by
  intro next ms h
  exact .of_char? (scanChar_eq_matched.1 (congrArg Prod.fst h))

theorem commonLength_le {β : Type} [DecidableEq β] (as ws : List β) : commonLength as ws ≤ as.length := by
  induction as generalizing ws with
  | nil => cases ws <;> simp [commonLength]
  | cons a as ih =>
    cases ws with
    | nil => simp [commonLength]
    | cons w ws =>
      rw [commonLength]
      split
      · exact Nat.succ_le_succ (ih ws)
      · exact Nat.zero_le _

/-- Each way of putting a scan together leads on. -/
theorem kept_leads (program : Program τ α) (steps : Nat) :
    Kept program steps (fun _ => True) fun here x => x.Leads here where
  opens _ _ _ := trivial
  done here o _ hhere := by
    intro next ms h
    obtain rfl := hhere next (congrArg Prod.fst h)
    exact .refl next
  char := scanChar_leads
  word call text here := by
    dsimp only [Matcher.scan]
    split
    · exact .matched (.advance (commonLength_le _ _))
    · simp [Scan.Leads]
  fork := .fork
  row _ _ _ h hends := by
    cases hends with
    | goes => exact .matched (h _ _ rfl)
    | rejects => simp [Scan.Leads]

/-- Whatever a table matches leads on. -/
theorem scan_leads (program : Program τ α) (steps nest : Nat) (t : τ) (here : Cursor) :
    (scan program steps nest t here).Leads here :=
  (kept_leads program steps).scan nest trivial here

end Leads

/-! ## Rounds -/

section Rounds

variable {τ α σ : Type} (min : Nat) (max : Option Nat)

/-- Only what comes after a match that is there matters. -/
theorem Scan.fork_congr {β : Type} {x g : Scan β} {f f' : Cursor → Scan β}
    (h : ∀ next ms, x = (.matched next, ms) → f next = f' next) : x.fork f g = x.fork f' g := by
  rcases x with ⟨next | _ | _ | _, ms⟩
  · exact congrArg (Scan.after ms) (h next ms rfl)
  · rfl
  · rfl
  · rfl

/-- A repetition needs no more rounds than bytes are ahead. -/
theorem repeatScan_rounds {β : Type} {walk : Cursor → Scan β} (h : ∀ here, (walk here).Leads here)
    {ahead ahead' : List UInt8} {here : Cursor} (hahead : here.rest.length ≤ ahead.length)
    (hahead' : here.rest.length ≤ ahead'.length) (count : Nat) :
    repeatScan min max walk ahead count here = repeatScan min max walk ahead' count here := by
  induction ahead generalizing ahead' here count with
  | nil =>
    -- no round can take anything any more
    rw [repeatScan_eq, repeatScan_eq]
    split
    · refine Scan.fork_congr fun next ms hx => ?_
      by_cases hmoved : next.offset = here.offset
      · rw [if_pos hmoved, if_pos hmoved]
      · exact absurd (Nat.lt_of_lt_of_le ((h here next ms hx).length_lt hmoved) hahead) (Nat.not_lt_zero _)
    · rfl
  | cons b ahead ih =>
    rw [repeatScan_eq, repeatScan_eq]
    split
    · refine Scan.fork_congr fun next ms hx => ?_
      by_cases hmoved : next.offset = here.offset
      · rw [if_pos hmoved, if_pos hmoved]
      · have hlt := (h here next ms hx).length_lt hmoved
        rw [if_neg hmoved, if_neg hmoved]
        cases ahead' with
        | nil => exact absurd (Nat.lt_of_lt_of_le hlt hahead') (Nat.not_lt_zero _)
        | cons b' ahead' =>
          rw [List.length_cons] at hahead hahead'
          exact ih (by omega) (by omega) (count + 1)
    · rfl

/-- More rounds than bytes are ahead change nothing in the repetition of a table, whatever the context. -/
theorem repeatWalk_rounds (program : Program τ α) (act : Context α σ) (steps nest : Nat) (t : τ) {here : Cursor}
    (more : List UInt8) (count : Nat) (s : State σ) :
    repeatWalk min max (run program act steps nest t) (here.rest ++ more) count here s =
      repeatWalk min max (run program act steps nest t) here.rest count here s := by
  have hmore : here.rest.length ≤ (here.rest ++ more).length := by
    rw [List.length_append]
    omega
  rw [repeatWalk_eq_resume act (run_eq_resume act program steps nest t),
    repeatWalk_eq_resume act (run_eq_resume act program steps nest t),
    repeatScan_rounds min max (scan_leads program steps nest t) hmore (Nat.le_refl _)]

end Rounds

end TableJson.Machine
