import TableJson.Proofs.Machine.Rounds

/-!
# Repetition — what a repeated table takes

A repeated table is walked again and again from where it has got to.  Here this is told in matches alone, without the
loop.

* `Matches walk n`: `n` matches one after another, of which any may take nothing.
* `Stalls walk i`: after `i` matches comes one that takes nothing.  From there on nothing changes any more
  (`matches_of_stall`), so that the loop goes no further, whether `min` matches have been counted or not.
* `Counted`, `repeatWalk_counts`: how many matches the loop counts, and why it stops there.
* `repeatTable_meaning`: a repetition matches if `min` matches follow one another, unless one before the last of them
  takes nothing; it ends where the longest row of matches does.
-/

namespace TableJson.Machine

variable {τ α σ : Type}

/-! ## Rows of matches -/

/-- `n` matches one after another, from `here` to `there`, with the states before and after them. -/
inductive Matches (walk : Cursor → State σ → Outcome × State σ) : Nat → Cursor → State σ → Cursor → State σ → Prop
  | nil (here : Cursor) (s : State σ) : Matches walk 0 here s here s
  | cons {n : Nat} {here next there : Cursor} {s s₁ s' : State σ} (first : walk here s = (.matched next, s₁))
      (rest : Matches walk n next s₁ there s') : Matches walk (n + 1) here s there s'

/-- After `i` matches comes one that takes nothing. -/
def Stalls (walk : Cursor → State σ → Outcome × State σ) (here : Cursor) (s : State σ) (i : Nat) : Prop :=
  ∃ mid s₁ next s₂, Matches walk i here s mid s₁ ∧ walk mid s₁ = (.matched next, s₂) ∧ next.offset = mid.offset

section Rows

variable {walk : Cursor → State σ → Outcome × State σ} {m n i : Nat} {here next there there' : Cursor}
  {s s₁ s' s'' : State σ}

theorem Matches.unique (h : Matches walk n here s there s') (h' : Matches walk n here s there' s'') :
    there' = there ∧ s'' = s' := by
  induction h with
  | nil here s =>
    cases h'
    exact ⟨rfl, rfl⟩
  | cons first rest ih =>
    obtain _ | ⟨first', rest'⟩ := h'
    rw [first] at first'
    obtain ⟨⟨⟩, rfl⟩ := Prod.mk.inj first'
    exact ih rest'

/-- A row of matches can be cut after any of them. -/
theorem Matches.cut (h : Matches walk n here s there s') (hle : m ≤ n) :
    ∃ mid s₁, Matches walk m here s mid s₁ ∧ Matches walk (n - m) mid s₁ there s' := by
  induction m generalizing n here s with
  | zero => exact ⟨here, s, .nil here s, h⟩
  | succ m ih =>
    cases h with
    | nil => omega
    | cons first rest =>
      obtain ⟨mid, s₂, hfront, hback⟩ := ih rest (by omega)
      rw [Nat.add_sub_add_right]
      exact ⟨mid, s₂, .cons first hfront, hback⟩

theorem Matches.snoc (h : Matches walk n here s next s₁) (last : walk next s₁ = (.matched there, s')) :
    Matches walk (n + 1) here s there s' := by
  induction h with
  | nil here s => exact .cons last (.nil there s')
  | cons first rest ih => exact .cons first (ih last)

/-- Nothing follows where nothing matches. -/
theorem Matches.nothing (h : Matches walk n here s there s') (hstop : (walk here s).1 = .mismatch) :
    n = 0 ∧ there = here := by
  cases h with
  | nil => exact ⟨rfl, rfl⟩
  | cons first rest => simp [first] at hstop

theorem stalls_zero (first : walk here s = (.matched next, s₁)) : Stalls walk here s 0 ↔ next.offset = here.offset := by
  constructor
  · rintro ⟨_, _, _, _, ⟨⟩, hwalk, hsame⟩
    rw [first] at hwalk
    obtain ⟨⟨⟩, -⟩ := Prod.mk.inj hwalk
    exact hsame
  · exact fun hsame => ⟨here, s, next, s₁, .nil here s, first, hsame⟩

theorem stalls_succ (first : walk here s = (.matched next, s₁)) :
    Stalls walk here s (i + 1) ↔ Stalls walk next s₁ i := by
  constructor
  · rintro ⟨mid, s₂, after, s₃, _ | ⟨first', rest⟩, hwalk, hsame⟩
    rw [first] at first'
    obtain ⟨⟨⟩, rfl⟩ := Prod.mk.inj first'
    exact ⟨mid, s₂, after, s₃, rest, hwalk, hsame⟩
  · rintro ⟨mid, s₂, after, s₃, rest, hwalk, hsame⟩
    exact ⟨mid, s₂, after, s₃, .cons first rest, hwalk, hsame⟩

end Rows

/-! ## The loop -/

/-- What the loop has found when it stops: `n` matches, after `count` others.  Before the last one it was never stopped;
now it may take no more, or no more follow, or the last one took nothing. -/
structure Counted (walk : Cursor → State σ → Outcome × State σ) (max : Option Nat) (count : Nat) (here : Cursor)
    (s : State σ) (n : Nat) (there : Cursor) (s' : State σ) : Prop where
  row : Matches walk n here s there s'
  below : ∀ i, i < n → belowMax max (count + i)
  moved : ∀ i, i + 1 < n → ¬ Stalls walk here s i
  stops : ¬ belowMax max (count + n) ∨ (walk there s').1 = .mismatch ∨ ∃ i, n = i + 1 ∧ Stalls walk here s i

theorem settle_eq_matched {min count : Nat} {here next : Cursor} (h : settle min count here = .matched next) :
    min ≤ count ∧ here = next := by
  unfold settle at h
  by_cases hmin : min ≤ count
  · rw [if_pos hmin] at h
    exact ⟨hmin, Outcome.matched.inj h⟩
  · simp [if_neg hmin] at h

theorem exists_of_not_belowMax {max : Option Nat} {count : Nat} (h : ¬ belowMax max count) :
    ∃ m, max = some m ∧ m ≤ count := by
  cases max with
  | none => exact absurd rfl h
  | some m => exact ⟨m, rfl, by simpa [belowMax] using h⟩

namespace Counted

variable {walk : Cursor → State σ → Outcome × State σ} {max : Option Nat} {count n : Nat} {here next there : Cursor}
  {s s₁ s' : State σ}

theorem nothing (h : ¬ belowMax max count ∨ (walk here s).1 = .mismatch) : Counted walk max count here s 0 here s where
  row := .nil here s
  below := by simp
  moved := by simp
  stops := h.imp_right Or.inl

/-- A match that takes nothing is the last one. -/
theorem stalled (hbelow : belowMax max count) (first : walk here s = (.matched next, s₁))
    (hsame : next.offset = here.offset) : Counted walk max count here s 1 next s₁ where
  row := .cons first (.nil next s₁)
  below i hi := by
    obtain rfl : i = 0 := by omega
    exact hbelow
  moved := by simp
  stops := Or.inr (Or.inr ⟨0, rfl, (stalls_zero first).2 hsame⟩)

/-- Any other match is followed by more of them. -/
theorem step (hbelow : belowMax max count) (first : walk here s = (.matched next, s₁))
    (hmoved : next.offset ≠ here.offset) (h : Counted walk max (count + 1) next s₁ n there s') :
    Counted walk max count here s (n + 1) there s' where
  row := .cons first h.row
  below i hi := by
    cases i with
    | zero => exact hbelow
    | succ i =>
      have := h.below i (by omega)
      rwa [Nat.add_right_comm, Nat.add_assoc] at this
  moved i hi := by
    cases i with
    | zero => rwa [stalls_zero first]
    | succ i =>
      rw [stalls_succ first]
      exact h.moved i (by omega)
  stops := by
    rcases h.stops with hfull | hmismatch | ⟨i, rfl, hstall⟩
    · rw [Nat.add_right_comm, Nat.add_assoc] at hfull
      exact Or.inl hfull
    · exact Or.inr (Or.inl hmismatch)
    · exact Or.inr (Or.inr ⟨i + 1, rfl, (stalls_succ first).2 hstall⟩)

theorem le_max (h : Counted walk max 0 here s n there s') {m : Nat} (hmax : max = some m) : n ≤ m := by
  subst hmax
  cases n with
  | zero => exact Nat.zero_le m
  | succ n =>
    have hlast := h.below n (Nat.lt_succ_self n)
    rw [Nat.zero_add] at hlast
    exact of_decide_eq_true hlast

/-- The loop gets past `m` matches that may be taken, unless it stalls before the last of them. -/
theorem enough (h : Counted walk max 0 here s n there s') {m : Nat} {mid : Cursor} {s₂ : State σ}
    (hmax : ∀ k, max = some k → m ≤ k) (hrow : Matches walk m here s mid s₂)
    (hmoved : ∀ i, i + 1 < m → ¬ Stalls walk here s i) : m ≤ n := by
  rcases Nat.le_total m n with hle | hle
  · exact hle
  · obtain ⟨mid', s₃, hfront, hback⟩ := hrow.cut hle
    obtain ⟨rfl, rfl⟩ := h.row.unique hfront
    rcases h.stops with hfull | hmismatch | ⟨i, rfl, hstall⟩
    · obtain ⟨k, hk, hkn⟩ := exists_of_not_belowMax hfull
      have hmk := hmax k hk
      omega
    · have hnone := (hback.nothing hmismatch).1
      omega
    · have hlast : ¬ i + 1 < m := fun hi => hmoved i hi hstall
      omega

end Counted

/-- A loop that ends by itself has counted a row of matches, and goes by their number. -/
theorem repeatWalk_counts {walk : Cursor → State σ → Outcome × State σ} {min : Nat} {max : Option Nat}
    (hleads : ∀ here s next s', walk here s = (.matched next, s') → here.Onward next) (ahead : List UInt8)
    (count : Nat) (here : Cursor) (s : State σ) (hahead : here.rest.length ≤ ahead.length) {outcome : Outcome}
    {s' : State σ} (hloop : repeatWalk min max walk ahead count here s = (outcome, s'))
    (hhalted : ∀ halt, outcome ≠ .halted halt) (hroom : outcome ≠ .exhausted) :
    ∃ n there s₁, Counted walk max count here s n there s₁ ∧ outcome = settle min (count + n) there := by
  fun_induction repeatWalk min max walk ahead count here s with
  | case1 ahead count here s hbelow next s₁ first hsame =>
    exact ⟨1, next, s₁, .stalled hbelow first hsame, (Prod.mk.inj hloop).1.symm⟩
  | case2 count here s hbelow next s₁ first hmoved =>
    -- nothing is ahead that the match could have taken
    have hshort := (hleads here s next s₁ first).length_lt hmoved
    exact absurd (Nat.lt_of_lt_of_le hshort hahead) (Nat.not_lt_zero _)
  | case3 count here s hbelow next s₁ first hmoved b ahead ih =>
    have hshort := (hleads here s next s₁ first).length_lt hmoved
    obtain ⟨n, there, s₂, hcounted, hend⟩ := ih (Nat.le_of_lt_succ (Nat.lt_of_lt_of_le hshort hahead)) hloop
    rw [Nat.add_right_comm, Nat.add_assoc] at hend
    exact ⟨n + 1, there, s₂, .step hbelow first hmoved hcounted, hend⟩
  | case4 ahead count here s hbelow s₁ hwalk =>
    exact ⟨0, here, s, .nothing (Or.inr (by rw [hwalk])), (Prod.mk.inj hloop).1.symm⟩
  | case5 ahead count here s hbelow hmatched hmismatch =>
    -- the walk is stopped from within, which is not how the loop ends
    rcases outcome with next | _ | halt | _
    · exact (hmatched next s' hloop).elim
    · exact (hmismatch s' hloop).elim
    · exact absurd rfl (hhalted halt)
    · exact absurd rfl hroom
  | case6 ahead count here s hfull =>
    exact ⟨0, here, s, .nothing (Or.inl hfull), (Prod.mk.inj hloop).1.symm⟩

/-! ## Repeated tables -/

section Tables

variable {program : Program τ α} {act : Context α σ} {steps nest : Nat} {t : τ} {here next there : Cursor}
  {s s₁ s' : State σ}

theorem onward_of_matched (h : run program act steps nest t here s = (.matched next, s')) : here.Onward next := by
  have hscan := scan_of_matched act h
  rcases hx : scan program steps nest t here with ⟨o, ms⟩
  rw [hx] at hscan
  obtain rfl : o = .matched next := hscan
  exact scan_leads program steps nest t here next ms hx

/-- After a match that has taken nothing no match takes anything. -/
theorem matches_of_stall {n : Nat} {mid : Cursor} {s₂ s₃ : State σ}
    (h : run program act steps nest t mid s₁ = (.matched next, s₂)) (hsame : next.offset = mid.offset)
    (hrow : Matches (run program act steps nest t) n next s₃ there s') : there = next := by
  obtain rfl : next = mid := (onward_of_matched h).eq_of_offset hsame
  induction n generalizing s₃ with
  | zero =>
    cases hrow
    rfl
  | succ n ih =>
    obtain _ | ⟨first, rest⟩ := hrow
    obtain ⟨⟩ := Outcome.matched.inj ((scan_of_matched act h).symm.trans (scan_of_matched act first))
    exact ih rest

/-- A row of matches goes past those that the loop has counted only where it takes nothing more. -/
theorem Counted.ends {max : Option Nat} {n m : Nat} {s₂ : State σ}
    (h : Counted (run program act steps nest t) max 0 here s n next s₁) (hle : n ≤ m)
    (hmax : ∀ k, max = some k → m ≤ k) (hrow : Matches (run program act steps nest t) m here s there s₂) :
    there = next := by
  obtain ⟨mid, s₃, hfront, hback⟩ := hrow.cut hle
  obtain ⟨rfl, rfl⟩ := h.row.unique hfront
  rcases h.stops with hfull | hmismatch | ⟨i, rfl, mid', s₄, next', s₅, hmid, hlast, hsame⟩
  · obtain ⟨k, hk, hkn⟩ := exists_of_not_belowMax hfull
    obtain rfl : m = n := by have := hmax k hk; omega
    exact (h.row.unique hrow).1
  · exact (hback.nothing hmismatch).2
  · obtain ⟨rfl, -⟩ := h.row.unique (hmid.snoc hlast)
    exact matches_of_stall hlast hsame hback

/-- A repetition that ends by itself, so that no action is refused and no row rejects, matches exactly if `min` matches
follow one another and none before the last of them takes nothing.  Then it ends where the longest row of at most `max`
matches ends. -/
theorem repeatTable_meaning {min : Nat} {max : Option Nat} (hbounds : ∀ m, max = some m → min ≤ m) {outcome : Outcome}
    (htest : (Matcher.repeatTable t min max).test (run program act steps nest) here s = (outcome, s'))
    (hhalted : ∀ halt, outcome ≠ .halted halt) (hroom : outcome ≠ .exhausted) :
    ((∃ next, outcome = .matched next) ↔
        (∃ there s₁, Matches (run program act steps nest t) min here s there s₁) ∧
          ∀ i, i + 1 < min → ¬ Stalls (run program act steps nest t) here s i) ∧
      ∀ next, outcome = .matched next →
        ∃ n, min ≤ n ∧ (∀ m, max = some m → n ≤ m) ∧
          (∃ s₁, Matches (run program act steps nest t) n here s next s₁) ∧
          ∀ m there s₁, n ≤ m → (∀ k, max = some k → m ≤ k) →
            Matches (run program act steps nest t) m here s there s₁ → there = next := by
  obtain ⟨n, there, s₁, hcounted, hend⟩ :=
    repeatWalk_counts (fun here s next s' => onward_of_matched) here.rest 0 here s (Nat.le_refl _) htest hhalted hroom
  rw [Nat.zero_add] at hend
  refine ⟨⟨?_, ?_⟩, ?_⟩
  · rintro ⟨next, rfl⟩
    obtain ⟨hmin, -⟩ := settle_eq_matched hend.symm
    obtain ⟨mid, s₂, hfront, -⟩ := hcounted.row.cut hmin
    exact ⟨⟨mid, s₂, hfront⟩, fun i hi => hcounted.moved i (by omega)⟩
  · rintro ⟨⟨mid, s₂, hrow⟩, hmoved⟩
    exact ⟨there, by rw [hend, settle, if_pos (hcounted.enough hbounds hrow hmoved)]⟩
  · rintro next rfl
    obtain ⟨hmin, rfl⟩ := settle_eq_matched hend.symm
    exact ⟨n, hmin, fun m => hcounted.le_max, ⟨s₁, hcounted.row⟩, fun m there s₂ hle hmax => hcounted.ends hle hmax⟩

/-! ### Letters, and nothing at all -/

/-- One of two letters, or nothing. -/
def letterOrNothing : Program Bool Unit
  | true => [{ matcher := .oneOf "ab", status := .accept }]
  | false => [{ matcher := .nothing, status := .accept }]

/-- Takes every action. -/
def willing : Context Unit Unit := fun _ _ c => (c, true)

/-- Of the four letters of `abab` three are taken, where no more may be. -/
theorem repeatTable_meaning_letters :
    ∃ n, 2 ≤ n ∧ (∀ m, some 3 = some m → n ≤ m) ∧
      (∃ s₁, Matches (run letterOrNothing willing 1 1 true) n (.start [97, 98, 97, 98]) { context := () }
        ⟨3, [98]⟩ s₁) ∧
      ∀ m there s₁, n ≤ m → (∀ k, some 3 = some k → m ≤ k) →
        Matches (run letterOrNothing willing 1 1 true) m (.start [97, 98, 97, 98]) { context := () } there s₁ →
        there = ⟨3, [98]⟩ := by
  have htest : (Matcher.repeatTable true 2 (some 3)).test (run letterOrNothing willing 1 1) (.start [97, 98, 97, 98])
      { context := () } = (.matched ⟨3, [98]⟩, { context := (), furthest := 2 }) := by rfl
  have hbounds : ∀ m, some 3 = some m → 2 ≤ m := by
    intro m hm
    have hthree : 3 = m := Option.some.inj hm
    omega
  exact (repeatTable_meaning hbounds htest (by simp) (by simp)).2 _ rfl

/-- Nothing at all matches as often as one likes, but not twice in a repetition. -/
theorem repeatTable_nothing :
    ¬ ((∃ next, ((Matcher.repeatTable false 2 none).test (run letterOrNothing willing 1 1) (.start [97, 98, 99])
          { context := () }).1 = .matched next) ↔
        ∃ n there s', 2 ≤ n ∧
          Matches (run letterOrNothing willing 1 1 false) n (.start [97, 98, 99]) { context := () } there s') := by
  have htest : ((Matcher.repeatTable false 2 none).test (run letterOrNothing willing 1 1) (.start [97, 98, 99])
      { context := () }).1 = .mismatch := by rfl
  have hwalk : run letterOrNothing willing 1 1 false (.start [97, 98, 99]) { context := () } =
      (.matched (.start [97, 98, 99]), { context := () }) := by rfl
  intro h
  obtain ⟨next, hnext⟩ := h.2 ⟨2, _, _, Nat.le_refl 2, .cons hwalk (.cons hwalk (.nil _ _))⟩
  rw [htest] at hnext
  simp at hnext

end Tables

end TableJson.Machine
