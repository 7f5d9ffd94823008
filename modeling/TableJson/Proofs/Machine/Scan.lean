import TableJson.Machine.Run

/-!
# Scans — what a walk does, apart from its context

A context decides nothing but whether the walk goes on.  So a walk can be described without one: by how it would end
and by the moves it would make on the way, the offsets it looks at and the actions it hands over.

* `scan` walks a table without a context.
* `replay` makes moves before a context, up to the first refusal.
* `run_eq_resume`: a walk with a context makes the moves of the scan before it.  If nothing is refused it ends as the
  scan does, otherwise at the refusal.
* `feed` hands over the actions alone; `run_of_feed` and `run_of_refusal` say how a walk ends from that.
-/

namespace TableJson.Machine

/-! ## Scans -/

/-- How something ends, and what it does on the way. -/
abbrev Scan (β : Type) := Outcome × List β

namespace Scan

variable {β : Type}

/-- The same end, after more has been done. -/
def after (ms : List β) (x : Scan β) : Scan β := (x.1, ms ++ x.2)

/-- Goes on after a match as `f` says and after a mismatch as `g` says. -/
def fork (x : Scan β) (f : Cursor → Scan β) (g : Scan β) : Scan β :=
  match x with
  | (.matched next, ms) => (f next).after ms
  | (.mismatch, ms) => g.after ms
  | stopped => stopped

section Fork

variable (ms ns : List β) (x : Scan β) (f : Cursor → Scan β) (g : Scan β)

@[simp] theorem after_nil : x.after [] = x := rfl

@[simp] theorem after_after : (x.after ms).after ns = x.after (ns ++ ms) := by
  simp [after]

@[simp] theorem fork_matched (next : Cursor) : fork (.matched next, ms) f g = (f next).after ms := rfl

@[simp] theorem fork_mismatch : fork (.mismatch, ms) f g = g.after ms := rfl

@[simp] theorem fork_halted (h : Halt) : fork (.halted h, ms) f g = (.halted h, ms) := rfl

@[simp] theorem fork_exhausted : fork (.exhausted, ms) f g = (.exhausted, ms) := rfl

/-- How a fork ends. -/
theorem fst_fork : (x.fork f g).1 = match x.1 with
    | .matched next => (f next).1
    | .mismatch => g.1
    | ended => ended := by
  rcases x with ⟨_ | _ | _ | _, ms⟩ <;> rfl

end Fork

/-- Goes on after a match only. -/
def andThen (x : Scan β) (f : Cursor → Scan β) : Scan β := x.fork f (.mismatch, [])

/-- Tries something else after a mismatch. -/
def orElse (x y : Scan β) : Scan β := x.fork (fun next => (.matched next, [])) y

section Inversion

variable {ms : List β} {x y : Scan β} {f : Cursor → Scan β} {there : Cursor}

theorem after_eq_iff {o : Outcome} {ns : List β} : x.after ms = (o, ns) ↔ ∃ ns', x = (o, ns') ∧ ns = ms ++ ns' := by
  obtain ⟨o', ns'⟩ := x
  simp only [after, Prod.mk.injEq]
  constructor
  · rintro ⟨rfl, rfl⟩
    exact ⟨ns', ⟨rfl, rfl⟩, rfl⟩
  · rintro ⟨_, ⟨rfl, rfl⟩, rfl⟩
    exact ⟨rfl, rfl⟩

theorem andThen_eq_matched :
    x.andThen f = (.matched there, ms) ↔
      ∃ mid ms₁ ms₂, x = (.matched mid, ms₁) ∧ f mid = (.matched there, ms₂) ∧ ms = ms₁ ++ ms₂ := by
  rcases x with ⟨mid | _ | _ | _, ms₁⟩
  · simp only [andThen, fork_matched, after_eq_iff]
    constructor
    · rintro ⟨ms₂, hf, rfl⟩
      exact ⟨mid, ms₁, ms₂, rfl, hf, rfl⟩
    · rintro ⟨_, _, ms₂, ⟨rfl, rfl⟩, hf, rfl⟩
      exact ⟨ms₂, hf, rfl⟩
  · simp [andThen, after]
  · simp [andThen]
  · simp [andThen]

theorem orElse_eq_matched :
    x.orElse y = (.matched there, ms) ↔
      x = (.matched there, ms) ∨
        ∃ ms₁ ms₂, x = (.mismatch, ms₁) ∧ y = (.matched there, ms₂) ∧ ms = ms₁ ++ ms₂ := by
  rcases x with ⟨mid | _ | _ | _, ms₁⟩
  · simp [orElse, after]
  · simp only [orElse, fork_mismatch, after_eq_iff]
    constructor
    · rintro ⟨ms₂, hy, rfl⟩
      exact Or.inr ⟨ms₁, ms₂, rfl, hy, rfl⟩
    · rintro (h | ⟨_, ms₂, ⟨-, rfl⟩, hy, rfl⟩)
      · simp at h
      · exact ⟨ms₂, hy, rfl⟩
  · simp [orElse]
  · simp [orElse]

theorem andThen_eq_mismatch :
    x.andThen f = (.mismatch, ms) ↔
      x = (.mismatch, ms) ∨ ∃ mid ms₁ ms₂, x = (.matched mid, ms₁) ∧ f mid = (.mismatch, ms₂) ∧ ms = ms₁ ++ ms₂ := by
  rcases x with ⟨mid | _ | _ | _, ms₁⟩
  · simp only [andThen, fork_matched, after_eq_iff]
    constructor
    · rintro ⟨ms₂, hf, rfl⟩
      exact Or.inr ⟨mid, ms₁, ms₂, rfl, hf, rfl⟩
    · rintro (h | ⟨_, _, ms₂, ⟨rfl, rfl⟩, hf, rfl⟩)
      · simp at h
      · exact ⟨ms₂, hf, rfl⟩
  · simp [andThen, after]
  · simp [andThen]
  · simp [andThen]

theorem orElse_eq_mismatch :
    x.orElse y = (.mismatch, ms) ↔
      ∃ ms₁ ms₂, x = (.mismatch, ms₁) ∧ y = (.mismatch, ms₂) ∧ ms = ms₁ ++ ms₂ := by
  rcases x with ⟨mid | _ | _ | _, ms₁⟩
  · simp [orElse, after]
  · simp only [orElse, fork_mismatch, after_eq_iff]
    constructor
    · rintro ⟨ms₂, hy, rfl⟩
      exact ⟨ms₁, ms₂, rfl, hy, rfl⟩
    · rintro ⟨_, ms₂, ⟨-, rfl⟩, hy, rfl⟩
      exact ⟨ms₂, hy, rfl⟩
  · simp [orElse]
  · simp [orElse]

end Inversion

section Ends

variable (ms ms₁ : List β) (x : Scan β) (f : Cursor → Scan β) (next : Cursor)

@[simp] theorem andThen_matched : andThen (.matched next, ms) f = (f next).after ms := rfl

@[simp] theorem andThen_mismatch : andThen (.mismatch, ms) f = (.mismatch, ms) := by
  simp [andThen, after]

@[simp] theorem orElse_matched : orElse (.matched next, ms) x = (.matched next, ms) := by
  simp [orElse, after]

@[simp] theorem orElse_mismatch : orElse (.mismatch, ms) x = x.after ms := rfl

@[simp] theorem fork_done : x.fork (fun next => (.matched next, [])) (.mismatch, []) = x := by
  rcases x with ⟨_ | _ | _ | _, ms⟩ <;> simp [after]

@[simp] theorem orElse_none : x.orElse (.mismatch, []) = x := by
  rcases x with ⟨_ | _ | _ | _, ms⟩ <;> simp [orElse]

@[simp] theorem after_mk (o : Outcome) : after ms ((o, ms₁) : Scan β) = (o, ms ++ ms₁) := rfl

end Ends

end Scan

/-- One thing that a walk does. -/
inductive Move (α : Type) where
  | look (offset : Nat)
  /-- Hands an action over; a refusal stops the walk at the offset `stop`. -/
  | hand (action : α) (m : Match) (stop : Nat)

section Repetition

variable {β : Type} (min : Nat) (max : Option Nat)

/-- Repeats a scan as often as it matches, up to `max`, and stops after a match that consumed nothing. -/
def repeatScan (walk : Cursor → Scan β) : List UInt8 → Nat → Cursor → Scan β
  | ahead, count, here =>
    if belowMax max count then
      match walk here with
      | (.matched next, ms) =>
        if next.offset = here.offset then (settle min (count + 1) next, ms)
        else
          match ahead with
          | [] => (settle min (count + 1) next, ms)
          | _ :: ahead => (repeatScan walk ahead (count + 1) next).after ms
      | (.mismatch, ms) => (settle min count here, ms)
      | stopped => stopped
    else (settle min count here, [])

/-- A repetition, told as its first round. -/
theorem repeatScan_eq (walk : Cursor → Scan β) (ahead : List UInt8) (count : Nat) (here : Cursor) :
    repeatScan min max walk ahead count here =
      if belowMax max count then
        (walk here).fork
          (fun next =>
            if next.offset = here.offset then (settle min (count + 1) next, [])
            else
              match ahead with
              | [] => (settle min (count + 1) next, [])
              | _ :: ahead => repeatScan min max walk ahead (count + 1) next)
          (settle min count here, [])
      else (settle min count here, []) := by
  cases ahead with
  | nil =>
    rw [repeatScan]
    split
    · rcases walk here with ⟨next | _ | _ | _, ms⟩ <;> simp
    · rfl
  | cons b ahead =>
    rw [repeatScan]
    split
    · rcases walk here with ⟨next | _ | _ | _, ms⟩
      · dsimp only [Scan.fork]
        split <;> simp
      · simp
      · rfl
      · rfl
    · rfl

end Repetition

section Scanning

variable {τ α σ : Type}

/-- Looks for one character of the class `p`. -/
def scanChar (p : Char → Bool) (here : Cursor) : Scan (Move α) :=
  (.ofOption (here.char? p), [.look here.offset])

theorem scanChar_eq_matched {p : Char → Bool} {here next : Cursor} :
    (scanChar p here : Scan (Move α)).1 = .matched next ↔ here.char? p = some next := by
  cases h : here.char? p <;> simp [scanChar, h, Outcome.ofOption]

/-- Applies a test at `here`; `call` scans the nested tables. -/
def Matcher.scan (call : τ → Cursor → Scan (Move α)) : Matcher τ → Cursor → Scan (Move α)
  | .nothing, here => (.matched here, [])
  | .seq text, here =>
    let word := Utf8.encode text.toList
    let common := commonLength here.rest word
    (if common = word.length then .matched (here.advance common) else .mismatch, [.look (here.offset + common)])
  | .oneOf set, here => scanChar (inSet set) here
  | .optOneOf set, here => (scanChar (inSet set) here).fork (fun next => (.matched next, [])) (.matched here, [])
  | .range lo hi, here => scanChar (fun c => decide (lo ≤ c ∧ c ≤ hi)) here
  | .table t, here => call t here
  | .optTable t, here => (call t here).fork (fun next => (.matched next, [])) (.matched here, [])
  | .repeatOneOf set min max, here => repeatScan min max (scanChar (inSet set)) here.rest 0 here
  | .repeatTable t min max, here => repeatScan min max (call t) here.rest 0 here

/-- What a matching row hands over. -/
def Row.moves (row : Row τ α) (here next : Cursor) : List (Move α) :=
  match row.action with
  | none => []
  | some a => [.hand a (.between here next) next.offset]

/-- Scans `rows` from row `i` on; `test` applies the test of a row. -/
def scanRows (test : Matcher τ → Cursor → Scan (Move α)) (rows : List (Row τ α)) : Nat → Nat → Cursor → Scan (Move α)
  | 0, _, _ => (.exhausted, [])
  | steps + 1, i, here =>
    match rows[i]? with
    | none => (.mismatch, [])
    | some row =>
      (test row.matcher here).fork
        (fun next =>
          Scan.after (row.moves here next)
            (match row.status, row.onMatch with
            | .accept, _ => (.matched next, [])
            | .reject, _ => (.halted (.rejected i here.offset), [])
            | .normal, .leave => (.matched next, [])
            | .normal, .row j => scanRows test rows steps j next))
        (match row.onFail with
        | .leave => (.mismatch, [])
        | .row j => scanRows test rows steps j here)

/-- Scans the table `t` from `here`, with at most `nest` tables open inside one another. -/
def scan (program : Program τ α) (steps : Nat) : Nat → τ → Cursor → Scan (Move α)
  | 0, _, _ => (.exhausted, [])
  | nest + 1, t, here => scanRows (Matcher.scan (scan program steps nest)) (program t) steps 0 here

/-! ## Making the moves before a context -/

/-- Makes moves until the context refuses an action; the second part is where that stops the walk. -/
def replay (act : Context α σ) : List (Move α) → State σ → State σ × Option Nat
  | [], s => (s, none)
  | .look offset :: ms, s => replay act ms (s.reach offset)
  | .hand a m stop :: ms, s =>
    match act a m s.context with
    | (c, true) => replay act ms { s with context := c }
    | (c, false) => ({ s with context := c }, some stop)

/-- A scan before a context. -/
def Scan.resume (act : Context α σ) (x : Scan (Move α)) (s : State σ) : Outcome × State σ :=
  match replay act x.2 s with
  | (s, none) => (x.1, s)
  | (s, some stop) => (.halted (.aborted stop), s)

section Resume

variable (act : Context α σ)

theorem replay_append (ms ns : List (Move α)) (s : State σ) :
    replay act (ms ++ ns) s =
      match replay act ms s with
      | (s, none) => replay act ns s
      | refused => refused := by
  induction ms generalizing s with
  | nil => rfl
  | cons m ms ih =>
    cases m with
    | look offset => exact ih _
    | hand a m stop =>
      simp only [List.cons_append, replay]
      obtain ⟨c, answer⟩ := act a m s.context
      cases answer with
      | false => rfl
      | true => exact ih _

/-- Unless the context refuses an action, the largest offset that has been looked at in the end is just that. -/
theorem replay_furthest {ms : List (Move α)} {s : State σ} (h : (replay act ms s).2 = none) :
    s.furthest ≤ (replay act ms s).1.furthest ∧ (∀ k, .look k ∈ ms → k ≤ (replay act ms s).1.furthest) ∧
      ((replay act ms s).1.furthest = s.furthest ∨ .look (replay act ms s).1.furthest ∈ ms) := by
  induction ms generalizing s with
  | nil => exact ⟨Nat.le_refl _, fun k hk => absurd hk List.not_mem_nil, Or.inl rfl⟩
  | cons m ms ih =>
    cases m with
    | look offset =>
      obtain ⟨hle, hlooks, hfurthest⟩ := ih (s := s.reach offset) h
      have hreach : (s.reach offset).furthest = max s.furthest offset := rfl
      rw [hreach] at hle hfurthest
      rw [replay]
      refine ⟨by omega, fun k hk => ?_, ?_⟩
      · rcases List.mem_cons.1 hk with hk | hk
        · obtain rfl := Move.look.inj hk
          omega
        · exact hlooks k hk
      · rcases hfurthest with hfurthest | hmem
        · rw [hfurthest]
          rcases Nat.le_total offset s.furthest with hmax | hmax
          · exact Or.inl (Nat.max_eq_left hmax)
          · rw [Nat.max_eq_right hmax]
            exact Or.inr (List.mem_cons_self ..)
        · exact Or.inr (List.mem_cons_of_mem _ hmem)
    | hand a m stop =>
      simp only [replay] at h ⊢
      rcases hc : act a m s.context with ⟨c, _ | _⟩
      · simp [hc] at h
      · rw [hc] at h
        obtain ⟨hle, hlooks, hfurthest⟩ := ih (s := { s with context := c }) h
        refine ⟨hle, fun k hk => ?_, hfurthest.imp_right (List.mem_cons_of_mem _)⟩
        exact hlooks k ((List.mem_cons.1 hk).resolve_left (by simp))

theorem resume_after (ms : List (Move α)) (x : Scan (Move α)) (s : State σ) :
    (x.after ms).resume act s =
      match replay act ms s with
      | (s, none) => x.resume act s
      | (s, some stop) => (.halted (.aborted stop), s) := by
  simp only [Scan.resume, Scan.after, replay_append]
  obtain ⟨s', stop⟩ := replay act ms s
  cases stop <;> rfl

theorem resume_fork (x : Scan (Move α)) (f : Cursor → Scan (Move α)) (g : Scan (Move α)) (s : State σ) :
    (x.fork f g).resume act s =
      match x.resume act s with
      | (.matched next, s) => (f next).resume act s
      | (.mismatch, s) => g.resume act s
      | stopped => stopped := by
  obtain ⟨o, ms⟩ := x
  cases o with
  | matched next =>
    rw [Scan.fork_matched, resume_after, Scan.resume]
    rcases replay act ms s with ⟨s', _ | stop⟩ <;> rfl
  | mismatch =>
    rw [Scan.fork_mismatch, resume_after, Scan.resume]
    rcases replay act ms s with ⟨s', _ | stop⟩ <;> rfl
  | halted h =>
    rw [Scan.fork_halted, Scan.resume]
    rcases replay act ms s with ⟨s', _ | stop⟩ <;> rfl
  | exhausted =>
    rw [Scan.fork_exhausted, Scan.resume]
    rcases replay act ms s with ⟨s', _ | stop⟩ <;> rfl

theorem scanChar_resume (p : Char → Bool) (here : Cursor) (s : State σ) :
    (scanChar p here).resume act s = (.ofOption (here.char? p), s.reach here.offset) := rfl

/-! ## Walks make the moves of their scans -/

theorem repeatWalk_eq_resume {min : Nat} {max : Option Nat} {walk : Cursor → State σ → Outcome × State σ}
    {scan : Cursor → Scan (Move α)} (h : ∀ here s, walk here s = (scan here).resume act s) :
    ∀ (ahead : List UInt8) (count : Nat) (here : Cursor) (s : State σ),
      repeatWalk min max walk ahead count here s = (repeatScan min max scan ahead count here).resume act s := by
  intro ahead
  induction ahead with
  | nil =>
    intro count here s
    unfold repeatWalk repeatScan
    rw [h]
    by_cases hmax : belowMax max count
    · rw [if_pos hmax, if_pos hmax]
      obtain ⟨o, ms⟩ := scan here
      cases o with
      | matched next =>
        simp only [ite_self]
        rw [Scan.resume, Scan.resume]
        rcases replay act ms s with ⟨s', _ | stop⟩ <;> simp
      | _ =>
        rw [Scan.resume]
        rcases hr : replay act ms s with ⟨s', _ | stop⟩ <;> simp [Scan.resume, hr]
    · rw [if_neg hmax, if_neg hmax]
      rfl
  | cons b ahead ih =>
    intro count here s
    unfold repeatWalk repeatScan
    rw [h]
    by_cases hmax : belowMax max count
    · rw [if_pos hmax, if_pos hmax]
      obtain ⟨o, ms⟩ := scan here
      cases o with
      | matched next =>
        by_cases hw : next.offset = here.offset
        · simp only [if_pos hw]
          rw [Scan.resume, Scan.resume]
          rcases replay act ms s with ⟨s', _ | stop⟩ <;> simp [hw]
        · simp only [if_neg hw]
          rw [resume_after, Scan.resume]
          rcases replay act ms s with ⟨s', _ | stop⟩
          · simp [hw, ih]
          · simp
      | _ =>
        rw [Scan.resume]
        rcases hr : replay act ms s with ⟨s', _ | stop⟩ <;> simp [Scan.resume, hr]
    · rw [if_neg hmax, if_neg hmax]
      rfl

/-- The next position comes after one character. -/
theorem eq_of_char? {p : Char → Bool} {here next : Cursor} (h : here.char? p = some next) :
    ∃ c, here.rest = String.utf8EncodeChar c ++ next.rest ∧ next.offset = here.offset + c.utf8Size := by
  unfold Cursor.char? at h
  split at h
  · rename_i c rest hc
    obtain ⟨-, hnext⟩ := Option.ite_none_right_eq_some.1 h
    obtain rfl := Option.some.inj hnext
    exact ⟨c, Utf8.eq_of_next? hc, rfl⟩
  · simp at h

/-- A character that is read takes up bytes. -/
theorem offset_lt_of_char? {p : Char → Bool} {here next : Cursor} (h : here.char? p = some next) :
    here.offset < next.offset := by
  obtain ⟨c, -, ho⟩ := eq_of_char? h
  have := c.utf8Size_pos
  omega

theorem repeatChar_eq_resume {min : Nat} {max : Option Nat} {p : Char → Bool} (ahead : List UInt8) (count : Nat)
    (here : Cursor) (s : State σ) :
    repeatChar min max p ahead count here s = (repeatScan min max (scanChar p) ahead count here).resume act s := by
  induction ahead generalizing count here s with
  | nil =>
    unfold repeatChar repeatScan scanChar
    by_cases hmax : belowMax max count
    · rw [if_pos hmax, if_pos hmax]
      cases hc : here.char? p with
      | none => rfl
      | some next => simp [Outcome.ofOption, Scan.resume, replay]
    · rw [if_neg hmax, if_neg hmax]
      rfl
  | cons b ahead ih =>
    unfold repeatChar repeatScan scanChar
    by_cases hmax : belowMax max count
    · rw [if_pos hmax, if_pos hmax]
      cases hc : here.char? p with
      | none => rfl
      | some next =>
        have hne : next.offset ≠ here.offset := Nat.ne_of_gt (offset_lt_of_char? hc)
        simp only [Outcome.ofOption, if_neg hne]
        rw [resume_after, ih]
        rfl
    · rw [if_neg hmax, if_neg hmax]
      rfl

theorem test_eq_resume {call : τ → Cursor → State σ → Outcome × State σ} {scan : τ → Cursor → Scan (Move α)}
    (h : ∀ t here s, call t here s = (scan t here).resume act s) (m : Matcher τ) (here : Cursor) (s : State σ) :
    m.test call here s = (m.scan scan here).resume act s := by
  cases m with
  | nothing => rfl
  | seq text => rfl
  | oneOf set => rfl
  | optOneOf set =>
    rw [Matcher.scan, resume_fork, scanChar_resume, Matcher.test]
    cases here.char? (inSet set) <;> rfl
  | range lo hi => rfl
  | table t => exact h t here s
  | optTable t =>
    rw [Matcher.scan, resume_fork, Matcher.test, h]
    rcases (scan t here).resume act s with ⟨_ | _ | _ | _, s'⟩ <;> rfl
  | repeatOneOf set min max => exact repeatChar_eq_resume act here.rest 0 here s
  | repeatTable t min max => exact repeatWalk_eq_resume act (h t) here.rest 0 here s

theorem walk_eq_resume {test : Matcher τ → Cursor → State σ → Outcome × State σ}
    {scan : Matcher τ → Cursor → Scan (Move α)} (h : ∀ m here s, test m here s = (scan m here).resume act s)
    (rows : List (Row τ α)) (steps i : Nat) (here : Cursor) (s : State σ) :
    walk act test rows steps i here s = (scanRows scan rows steps i here).resume act s := by
  induction steps generalizing i here s with
  | zero => rfl
  | succ steps ih =>
    rw [walk, scanRows]
    cases rows[i]? with
    | none => rfl
    | some row =>
      dsimp only
      rw [resume_fork, h]
      rcases (scan row.matcher here).resume act s with ⟨next | _ | _ | _, s'⟩
      · -- a match: first the action, then the status
        have onward (s : State σ) :
            (match row.status, row.onMatch with
              | .accept, _ => (.matched next, s)
              | .reject, _ => (.halted (.rejected i here.offset), s)
              | .normal, .leave => (.matched next, s)
              | .normal, .row j => walk act test rows steps j next s) =
            Scan.resume act
              (match row.status, row.onMatch with
              | .accept, _ => (.matched next, [])
              | .reject, _ => (.halted (.rejected i here.offset), [])
              | .normal, .leave => (.matched next, [])
              | .normal, .row j => scanRows scan rows steps j next) s := by
          cases row.status with
          | accept => rfl
          | reject => rfl
          | normal =>
            cases row.onMatch with
            | leave => rfl
            | row j => exact ih j next s
        dsimp only
        rw [resume_after, Row.perform, Row.moves]
        cases row.action with
        | none => exact onward s'
        | some a =>
          dsimp only [replay]
          rcases act a (.between here next) s'.context with ⟨c, _ | _⟩
          · rfl
          · exact onward _
      · dsimp only
        cases row.onFail with
        | leave => rfl
        | row j => exact ih _ _ _
      · rfl
      · rfl

/-- A walk with a context makes the moves of the scan, up to the first refusal. -/
theorem run_eq_resume (program : Program τ α) (steps nest : Nat) (t : τ) (here : Cursor) (s : State σ) :
    run program act steps nest t here s = (scan program steps nest t here).resume act s := by
  induction nest generalizing t here s with
  | zero => rfl
  | succ nest ih => exact walk_eq_resume act (test_eq_resume act ih) (program t) steps 0 here s

/-- A run matches only where the scan does. -/
theorem scan_of_matched {program : Program τ α} {steps nest : Nat} {t : τ} {here next : Cursor} {s s' : State σ}
    (h : run program act steps nest t here s = (.matched next, s')) :
    (scan program steps nest t here).1 = .matched next := by
  rw [run_eq_resume, Scan.resume] at h
  rcases hreplay : replay act (scan program steps nest t here).2 s with ⟨s₁, _ | stop⟩
  · rw [hreplay] at h
    exact (Prod.mk.inj h).1
  · simp [hreplay] at h

end Resume

/-! ## Actions alone -/

/-- The actions among some moves. -/
def actions : List (Move α) → List (α × Match)
  | [] => []
  | .look _ :: ms => actions ms
  | .hand a m _ :: ms => (a, m) :: actions ms

@[simp] theorem actions_nil : actions ([] : List (Move α)) = [] := rfl

@[simp] theorem actions_look (offset : Nat) (ms : List (Move α)) : actions (.look offset :: ms) = actions ms := rfl

@[simp] theorem actions_hand (a : α) (m : Match) (stop : Nat) (ms : List (Move α)) :
    actions (.hand a m stop :: ms) = (a, m) :: actions ms := rfl

theorem mem_actions {a : α} {m : Match} {ms : List (Move α)} :
    (a, m) ∈ actions ms ↔ ∃ stop, .hand a m stop ∈ ms := by
  induction ms with
  | nil => simp
  | cons n ms ih => cases n <;> simp [ih, exists_or]

@[simp] theorem actions_append (ms ns : List (Move α)) : actions (ms ++ ns) = actions ms ++ actions ns := by
  induction ms with
  | nil => rfl
  | cons m ms ih => cases m <;> simp [ih]

/-- Hands actions over one after another, until one is refused. -/
def feed (act : Context α σ) : List (α × Match) → σ → σ × Bool
  | [], c => (c, true)
  | (a, m) :: rest, c =>
    match act a m c with
    | (c, true) => feed act rest c
    | (c, false) => (c, false)

section Feed

variable (act : Context α σ)

theorem feed_append (as bs : List (α × Match)) (c : σ) :
    feed act (as ++ bs) c =
      match feed act as c with
      | (c, true) => feed act bs c
      | refused => refused := by
  induction as generalizing c with
  | nil => rfl
  | cons p as ih =>
    obtain ⟨a, m⟩ := p
    simp only [List.cons_append, feed]
    rcases act a m c with ⟨c', _ | _⟩
    · rfl
    · exact ih _

/-- The context sees nothing of a walk but its actions. -/
theorem replay_context (ms : List (Move α)) (s : State σ) :
    (replay act ms s).1.context = (feed act (actions ms) s.context).1 ∧
      ((replay act ms s).2 = none ↔ (feed act (actions ms) s.context).2 = true) := by
  induction ms generalizing s with
  | nil => simp [replay, feed]
  | cons m ms ih =>
    cases m with
    | look offset => exact ih _
    | hand a m stop =>
      simp only [replay, actions_hand, feed]
      rcases act a m s.context with ⟨c, _ | _⟩
      · simp
      · exact ih _

/-- What a run leaves in its context when all actions of the scan are taken, and how it ends then. -/
theorem run_of_feed {program : Program τ α} {steps nest : Nat} {t : τ} {here : Cursor} {s : State σ} {c : σ}
    (h : feed act (actions (scan program steps nest t here).2) s.context = (c, true)) :
    (run program act steps nest t here s).1 = (scan program steps nest t here).1 ∧
      (run program act steps nest t here s).2.context = c := by
  obtain ⟨hc, hr⟩ := replay_context act (scan program steps nest t here).2 s
  rw [h] at hc hr
  rw [run_eq_resume, Scan.resume]
  rcases hrep : replay act (scan program steps nest t here).2 s with ⟨s', _ | stop⟩
  · rw [hrep] at hc
    exact ⟨rfl, hc⟩
  · rw [hrep] at hr
    simp at hr

/-- What a run leaves in its context when an action of the scan is refused, and how it ends then. -/
theorem run_of_refusal {program : Program τ α} {steps nest : Nat} {t : τ} {here : Cursor} {s : State σ} {c : σ}
    (h : feed act (actions (scan program steps nest t here).2) s.context = (c, false)) :
    (∃ stop, (run program act steps nest t here s).1 = .halted (.aborted stop)) ∧
      (run program act steps nest t here s).2.context = c := by
  obtain ⟨hc, hr⟩ := replay_context act (scan program steps nest t here).2 s
  rw [h] at hc hr
  rw [run_eq_resume, Scan.resume]
  rcases hrep : replay act (scan program steps nest t here).2 s with ⟨s', _ | stop⟩
  · rw [hrep] at hr
    simp at hr
  · rw [hrep] at hc
    exact ⟨⟨stop, rfl⟩, hc⟩

end Feed

end Scanning

end TableJson.Machine
