import TableJson.Proofs.Grammar.Tracking
import TableJson.Proofs.Machine.Budget
import TableJson.Proofs.Machine.Rounds

/-!
# Depths — how far tables open inside one another

All tables lead forwards from row to row, and the tables of the words open only a few others inside of one another.  The
tables of values open one another without an end, but not without opening containers on the way: a walk that runs out of
room has left one container open for every five tables (`roomy`).  A session refuses to open more containers than the
options allow, and so no reading runs out of room (`walkText_endsWithin`).
-/

namespace TableJson.Grammar

open Machine Utf8 Scan Place

/-! ## Words -/

/-- All tables lead forwards, and none has more rows than may be visited. -/
theorem forward_rows (t : Rule) : Forward (rows t) ∧ 0 < (rows t).length ∧ (rows t).length ≤ rowsPerTable := by
  cases t <;> decide

/-- How many tables a word has open inside one another. -/
def height : Rule → Nat
  | .string => 5
  | .char => 4
  | .number | .escaped => 3
  | .int | .escapedChar => 2
  | _ => 1

/-- A test lasts if the walks of the tables that it opens do. -/
theorem test_lasts {call : Rule → Cursor → Machine.Scan (Move Action)} {m : Matcher Rule}
    (h : ∀ t ∈ rule? m, ∀ here, (call t here).1 ≠ .exhausted) (here : Cursor) : (m.scan call here).1 ≠ .exhausted := by
  have hmatched (next : Cursor) : ((.matched next, []) : Machine.Scan (Move Action)).1 ≠ .exhausted := by simp
  have hchar (p : Char → Bool) (here : Cursor) : (scanChar p here : Machine.Scan (Move Action)).1 ≠ .exhausted := by
    rw [scanChar]
    cases here.char? p <;> simp [Outcome.ofOption]
  cases m with
  | nothing => exact hmatched here
  | seq text =>
    dsimp only [Matcher.scan]
    split <;> simp
  | oneOf set => exact hchar _ here
  | optOneOf set => exact fork_lasts (hchar _ here) hmatched (hmatched here)
  | range lo hi => exact hchar _ here
  | table t => exact h t rfl here
  | optTable t => exact fork_lasts (h t rfl here) hmatched (hmatched here)
  | repeatOneOf set min max => exact repeatScan_lasts (hchar _) min max _ 0 here
  | repeatTable t min max => exact repeatScan_lasts (h t rfl) min max _ 0 here

/-- The walk of a word does not run out of room. -/
theorem word_lasts {n : Nat} {t : Rule} (ht : t ∈ lexical) (hn : height t ≤ n) (here : Cursor) :
    (reads n t here).1 ≠ .exhausted := by
  have hrows : ∀ t ∈ lexical, 0 < height t ∧
      ∀ row ∈ rows t, ∀ u ∈ rule? row.matcher, u ∈ lexical ∧ height u < height t := by decide
  induction n generalizing t here with
  | zero =>
    have := (hrows t ht).1
    omega
  | succ n ih =>
    obtain ⟨hforward, hsome, hrowsPerTable⟩ := forward_rows t
    refine scanRows_lasts hforward (fun row hrow => test_lasts fun u hu here => ?_) hsome (by omega) here
    obtain ⟨hlexical, hlower⟩ := (hrows t ht).2 row hrow u hu
    exact ih hlexical (by omega) here

/-- A test that opens no table lasts. -/
theorem tests_lasts (n : Nat) {m : Matcher Rule} (hm : rule? m = none) (here : Cursor) :
    (tests n m here).1 ≠ .exhausted :=
  test_lasts (fun t ht => by simp [hm] at ht) here

/-! ## Running out of room -/

/-- Where a walk from the place `p` runs out of room, `P` holds of the number of containers that are open. -/
def RunsOut (x : Machine.Scan (Action × Match)) (p : Place) (P : Nat → Prop) : Prop :=
  ∀ tr q, x = (.exhausted, tr) → follow tr p = some q → P q.opened.length

section RunsOut

variable {x y g : Machine.Scan (Action × Match)} {f : Cursor → Machine.Scan (Action × Match)}
  {tr : List (Action × Match)} {p q : Place} {P Q : Nat → Prop} {a : Action} {here : Cursor}

theorem RunsOut.imp (h : RunsOut x p P) (hPQ : ∀ d, P d → Q d) : RunsOut x p Q :=
  fun tr q hx hq => hPQ _ (h tr q hx hq)

theorem runsOut_of_lasts (h : x.1 ≠ .exhausted) : RunsOut x p P := fun _ _ hx => absurd (congrArg Prod.fst hx) h

/-- A walk of a word that runs out of room leaves all as it was. -/
theorem AllSilent.runsOut (h : AllSilent x.2) (hP : x.1 = .exhausted → P p.opened.length) : RunsOut x p P := by
  rintro tr q rfl hq
  obtain rfl := Option.some.inj ((h.follow_eq p).symm.trans hq)
  exact hP rfl

theorem RunsOut.after (htr : follow tr p = some q) (h : RunsOut x q P) : RunsOut (x.after tr) p P := by
  intro tr' r hend hr
  obtain ⟨tr₂, hx, rfl⟩ := after_eq_iff.1 hend
  rw [follow_append, htr] at hr
  exact h tr₂ r hx hr

theorem runsOut_fork (hx : RunsOut x p P)
    (hf : ∀ next tr, x = (.matched next, tr) → ∀ q, follow tr p = some q → RunsOut (f next) q P)
    (hg : ∀ tr, x = (.mismatch, tr) → ∀ q, follow tr p = some q → RunsOut g q P) : RunsOut (x.fork f g) p P := by
  rcases x with ⟨next | _ | _ | _, tr⟩
  · intro tr' r hend hr
    obtain ⟨tr₂, hnext, rfl⟩ := after_eq_iff.1 hend
    rw [follow_append] at hr
    obtain ⟨q, hq, hr⟩ := Option.bind_eq_some_iff.1 hr
    exact hf next tr rfl q hq tr₂ r hnext hr
  · intro tr' r hend hr
    obtain ⟨tr₂, hnext, rfl⟩ := after_eq_iff.1 hend
    rw [follow_append] at hr
    obtain ⟨q, hq, hr⟩ := Option.bind_eq_some_iff.1 hr
    exact hg tr rfl q hq tr₂ r hnext hr
  · exact runsOut_of_lasts (by simp)
  · exact hx

theorem runsOut_noted (hx : RunsOut x p P) : RunsOut (noted a here x) p P :=
  runsOut_fork hx (fun _ _ _ _ _ => runsOut_of_lasts (by simp)) fun _ _ _ _ => runsOut_of_lasts (by simp)

theorem runsOut_orElse (hx : RunsOut x p P)
    (hy : ∀ tr, x = (.mismatch, tr) → ∀ q, follow tr p = some q → RunsOut y q P) : RunsOut (x.orElse y) p P :=
  runsOut_fork hx (fun _ _ _ _ _ => runsOut_of_lasts (by simp)) hy

theorem runsOut_andThen (hx : RunsOut x p P)
    (hf : ∀ next tr, x = (.matched next, tr) → ∀ q, follow tr p = some q → RunsOut (f next) q P) :
    RunsOut (x.andThen f) p P :=
  runsOut_fork hx hf fun _ _ _ _ => runsOut_of_lasts (by simp)

/-- After a word that is found. -/
theorem runsOut_word {W : List Char → Prop} {w : Cursor → Machine.Scan (Action × Match)} (hw : Lexes w W) {o : Nat}
    {cs : List Char} (hsilent : AllSilent (w (.text o cs)).2) (hP : (w (.text o cs)).1 = .exhausted → P p.opened.length)
    (hf : ∀ next tr, w (.text o cs) = (.matched next, tr) → ∀ o r, RunsOut (f (.text o r)) p P) :
    RunsOut ((w (.text o cs)).andThen f) p P := by
  refine runsOut_andThen (hsilent.runsOut hP) fun next tr h q hq => ?_
  have hnext := hf next tr h
  obtain ⟨_, r, -, -, rfl, rfl⟩ := hw.word h
  obtain rfl := Option.some.inj hq
  exact hnext _ r

/-- A scalar, or else something else. -/
theorem runsOut_scalar (hx : AllSilent x.2) (hP : x.1 = .exhausted → P p.opened.length) (hy : RunsOut y p P) :
    RunsOut ((noted a here x).orElse y) p P := by
  refine runsOut_orElse (runsOut_noted (hx.runsOut hP)) fun tr h q hq => ?_
  rw [noted_eq_mismatch.1 h] at hx
  obtain rfl := Option.some.inj ((hx.follow_eq p).symm.trans hq)
  exact hy

theorem runsOut_repeatScan {walk : Cursor → Machine.Scan (Action × Match)}
    (h : ∀ o cs, RunsOut (walk (.text o cs)) p P)
    (hmatched : ∀ o cs next tr, walk (.text o cs) = (.matched next, tr) →
      (∃ o r, next = .text o r) ∧ follow tr p = some p)
    (ahead : List UInt8) (count o : Nat) (cs : List Char) :
    RunsOut (repeatScan 0 none walk ahead count (.text o cs)) p P := by
  have hmax : belowMax none count = true := rfl
  have hsettle (count : Nat) (here : Cursor) (q : Place) : RunsOut (settle 0 count here, []) q P := by
    refine runsOut_of_lasts ?_
    simp [settle]
  induction ahead generalizing count o cs with
  | nil =>
    rw [repeatScan_eq, if_pos hmax]
    refine runsOut_fork (h o cs) (fun next tr hx q _ => ?_) fun _ _ q _ => hsettle _ _ q
    rw [ite_self]
    exact hsettle _ _ q
  | cons b ahead ih =>
    rw [repeatScan_eq, if_pos hmax]
    refine runsOut_fork (h o cs) (fun next tr hx q hq => ?_) fun _ _ q _ => hsettle _ _ q
    obtain ⟨⟨o', r, rfl⟩, htr⟩ := hmatched o cs next tr hx
    obtain rfl := Option.some.inj (hq.symm.trans htr)
    split
    · exact hsettle _ _ _
    · exact ih (count + 1) o' r rfl

end RunsOut

/-- Of `n` tables, all but `k` go with containers that have been opened since the place `p`. -/
def Spent (n k : Nat) (p : Place) (depth : Nat) : Prop :=
  n + tablesPerLevel * p.opened.length ≤ tablesPerLevel * depth + k

/-- What is known of walks that run out of room with at most `n` tables open: they have opened containers for these
tables. -/
structure Roomy (n : Nat) : Prop where
  value {p : Place} (hp : p.Takes) (o : Nat) (cs : List Char) :
    RunsOut (reads n .value (.text o cs)) p (Spent n 5 p)
  entry {kind : ContainerKind} {p : Place} (hp : p.Within kind) (o : Nat) (cs : List Char) :
    RunsOut (reads n (entryRule kind) (.text o cs)) p (Spent n 6 p)
  next {kind : ContainerKind} {p : Place} (hp : p.Within kind) (o : Nat) (cs : List Char) :
    RunsOut (reads n (nextRule kind) (.text o cs)) p (Spent n 7 p)
  body {kind : ContainerKind} {p : Place} (hp : p.Within kind) (o : Nat) (cs : List Char) :
    RunsOut (reads n (bodyRule kind) (.text o cs)) p (Spent n 8 p)
  container (kind : ContainerKind) {p : Place} (hp : p.Takes) (o : Nat) (cs : List Char) :
    RunsOut (reads n (containerRule kind) (.text o cs)) p (Spent n 4 p)

section Step

variable {n k : Nat} {kind : ContainerKind} {p : Place} {o : Nat} {cs : List Char}

theorem Spent.succ {d : Nat} (h : Spent n k p d) : Spent (n + 1) (k + 1) p d := by
  unfold Spent at h ⊢
  omega

theorem spent_here (h : n ≤ k) : Spent n k p p.opened.length := by
  unfold Spent
  omega

/-- A walk of a word that runs out of room has hardly any. -/
theorem spent_word {t : Rule} (ht : t ∈ lexical) (hk : height t ≤ k) {here : Cursor}
    (h : (reads n t here).1 = .exhausted) : Spent (n + 1) k p p.opened.length := by
  refine spent_here (Nat.le_trans ?_ hk)
  exact Nat.lt_of_not_le fun hn => word_lasts ht hn here h

theorem Roomy.value_step (ih : Roomy n) (hp : p.Takes) (o : Nat) (cs : List Char) :
    RunsOut (reads (n + 1) .value (.text o cs)) p (Spent (n + 1) 5 p) := by
  have hword (word : String) {P : Prop} (h : (tests n (.seq word) (.text o cs)).1 = .exhausted) : P :=
    absurd h (tests_lasts n rfl _)
  rw [reads_value]
  refine runsOut_scalar .nil (hword _) (runsOut_scalar .nil (hword _) (runsOut_scalar .nil (hword _) ?_))
  refine runsOut_scalar (.reads n (by decide) _) (spent_word (by decide) (by decide)) ?_
  refine runsOut_scalar (.reads n (by decide) _) (spent_word (by decide) (by decide)) ?_
  refine runsOut_orElse ((ih.container .object hp o cs).imp fun _ => .succ) fun tr h q hq => ?_
  -- an object that has handed something over started with its brace, so that no array starts here
  by_cases hopen : Stops (· == openChar .object) (skip cs)
  · have hsilent := silent_container (o := o) n .object hopen
    rw [show reads n (containerRule .object) (.text o cs) = (.mismatch, tr) from h] at hsilent
    obtain rfl := Option.some.inj ((hsilent.follow_eq p).symm.trans hq)
    exact (ih.container .array hp o cs).imp fun _ => .succ
  · have hmismatch : reads n .array (.text o cs) = (.mismatch, []) := by
      rcases n with _ | _ | n
      · simp [reads_zero] at h
      · rw [show Rule.object = containerRule .object from rfl, reads_container] at h
        simp [reads_zero, andThen] at h
      · have hnone : ∀ d ∈ (skip cs).head?, d ≠ openChar .array := by
          intro d hd hbracket
          refine hopen fun c hc => ?_
          obtain rfl := Option.mem_unique hd hc
          rw [hbracket]
          rfl
        rw [show Rule.array = containerRule .array from rfl, reads_container, (marks_open .array).other n o hnone,
          andThen_mismatch]
    exact runsOut_of_lasts (by simp [hmismatch])

theorem Roomy.entry_step (ih : Roomy n) (hp : p.Within kind) (o : Nat) (cs : List Char) :
    RunsOut (reads (n + 1) (entryRule kind) (.text o cs)) p (Spent (n + 1) 6 p) := by
  cases kind with
  | array => exact (ih.value_step hp.takes o cs).imp fun d h => by unfold Spent at h ⊢; omega
  | object =>
    rw [entryRule, reads_member]
    refine runsOut_word (lexes_string n) (.reads n (by decide) _) (spent_word (by decide) (by decide))
      fun _ _ _ o r => ?_
    refine .after (congrArg (Option.bind · some) (step_name hp)) ?_
    refine runsOut_word (marks_colon.lexes n) (.reads n (by decide) _) (spent_word (by decide) (by decide))
      fun _ _ _ o r => ?_
    exact runsOut_noted ((ih.value (takes_named p) o r).imp fun _ => .succ)

theorem Roomy.next_step (ih : Roomy n) (hp : p.Within kind) (o : Nat) (cs : List Char) :
    RunsOut (reads (n + 1) (nextRule kind) (.text o cs)) p (Spent (n + 1) 7 p) := by
  rw [reads_next]
  exact runsOut_word (marks_comma.lexes n) (.reads n (by decide) _) (spent_word (by decide) (by decide))
    fun _ _ _ o r => (ih.entry hp o r).imp fun _ => .succ

theorem Roomy.body_step (ih : Roomy n) (hp : p.Within kind) (o : Nat) (cs : List Char) :
    RunsOut (reads (n + 1) (bodyRule kind) (.text o cs)) p (Spent (n + 1) 8 p) := by
  rw [reads_body]
  refine runsOut_andThen ((ih.entry hp o cs).imp fun d h => ?_) fun next tr h q hq => ?_
  · unfold Spent at h ⊢
    omega
  obtain ⟨label, t, ⟨r, -, rfl⟩, rfl⟩ := (sound n).entry kind h
  rw [label.places _ _ (t.places _) hp] at hq
  obtain rfl := Option.some.inj hq
  rw [tests_repeatTable]
  refine runsOut_repeatScan (fun o cs => (ih.next hp o cs).imp fun _ => .succ) (fun o cs next tr h => ?_) _ _ _ _
  obtain ⟨comma, label, t, ⟨r, -, rfl⟩, rfl⟩ := (sound n).next kind h
  exact ⟨⟨_, r, rfl⟩, label.places _ _ (t.places _) hp⟩

theorem Roomy.container_step (ih : Roomy n) (kind : ContainerKind) (hp : p.Takes) (o : Nat) (cs : List Char) :
    RunsOut (reads (n + 1) (containerRule kind) (.text o cs)) p (Spent (n + 1) 4 p) := by
  have hclose (here : Cursor) (hn : 1 ≤ n) : (reads n (closeRule kind) here).1 ≠ .exhausted :=
    word_lasts (by cases kind <;> decide) (by cases kind <;> exact hn) here
  rw [reads_container]
  refine runsOut_word ((marks_open kind).lexes n) (silent_open n kind _)
    (spent_word (by cases kind <;> decide) (by cases kind <;> decide)) fun next tr h o r => ?_
  -- a table has been walked, and so there is room for another one
  have hn : 1 ≤ n := by
    cases n with
    | zero => simp [reads_zero] at h
    | succ n => omega
  refine .after (congrArg (Option.bind · some) (step_opens hp)) ?_
  rw [tests_optTable]
  refine runsOut_andThen (runsOut_orElse ((ih.body (within_inside kind p) o r).imp fun d hspent => ?_) fun _ _ _ _ =>
    runsOut_of_lasts (by simp)) fun d tr _ q _ => runsOut_noted (runsOut_of_lasts (hclose d hn))
  have hlength : (p.inside kind).opened.length = p.opened.length + 1 := rfl
  unfold Spent tablesPerLevel at hspent ⊢
  omega

end Step

theorem roomy (n : Nat) : Roomy n := by
  have hzero {t : Rule} {k : Nat} {p : Place} (o : Nat) (cs : List Char) :
      RunsOut (reads 0 t (.text o cs)) p (Spent 0 k p) :=
    AllSilent.nil.runsOut fun _ => spent_here (Nat.zero_le k)
  induction n with
  | zero => exact ⟨fun _ => hzero, fun _ => hzero, fun _ => hzero, fun _ => hzero, fun _ _ _ => hzero⟩
  | succ n ih => exact ⟨ih.value_step, ih.entry_step, ih.next_step, ih.body_step, fun kind => ih.container_step kind⟩

/-! ## Readings -/

/-- A reading that runs out of room has opened more containers than the options allow. -/
theorem runsOut_reading (options : Options) (text : String) :
    RunsOut (reading options text) {} fun d => options.maxDepth < d := by
  have hvalue (o : Nat) (cs : List Char) := (roomy (5 * options.maxDepth + 6)).value (p := {}) (Or.inl rfl) o cs
  have hblanks (here : Cursor) : (tests (5 * options.maxDepth + 6) anyBlanks here).1 ≠ .exhausted :=
    tests_lasts _ rfl here
  have hsilent (here : Cursor) : AllSilent (tests (5 * options.maxDepth + 6) anyBlanks here).2 :=
    AllSilent.closed.tests AllSilent.keeps _ (by decide) here
  have hreading : reading options text = _ := reads_jsonText (5 * options.maxDepth + 6) (.text 0 text.toList)
  rw [hreading]
  refine .after (congrArg (Option.bind · some) (step_of_silent (by decide) _)) ?_
  refine runsOut_word (lexes_blanks _) (hsilent _) (fun h => absurd h (hblanks _)) fun _ _ _ o r => ?_
  refine runsOut_fork ((hvalue o r).imp fun d hspent => ?_) (fun d tr _ q _ => ?_) fun tr _ q _ =>
    runsOut_of_lasts (by simp)
  · unfold Spent tablesPerLevel at hspent
    simp at hspent
    omega
  · exact runsOut_andThen (runsOut_of_lasts (hblanks d)) fun _ _ _ _ _ => runsOut_of_lasts (by simp)

section Readings

variable {σ : Type} (consume : Consumer σ) (options : Options) (text : String) (c : σ)

/-- A log changes nothing of the walk. -/
theorem walkText_logged :
    walkText consume options text c =
      ((walkText consume.logged options text (c, [])).1,
        (walkText consume.logged options text (c, [])).2.map (Session.map Prod.fst)) :=
  run_map (act_map (f := Prod.fst) (fun _ _ => rfl) options _) rows rowsPerTable (nesting options) .jsonText _
    { context := { consumer := (c, []) } }

/-- No reading runs out of room. -/
theorem walkText_lasts : (walkText consume options text c).1 ≠ .exhausted := by
  rw [walkText_logged]
  intro hend
  obtain ⟨q, hq⟩ := legal_reading options text
  have htracked : Tracked options q (feed (Session.act consume.logged options text.utf8ByteSize)
      (reading options text).2 { consumer := (c, []) }) := feed_tracks hq (tracks_start options c)
  rcases hfeed : feed (Session.act consume.logged options text.utf8ByteSize) (reading options text).2
      { consumer := (c, []) }
    with ⟨s, _ | _⟩
  · obtain ⟨⟨stop, hrefused⟩, -⟩ := walkText_of_refusal hfeed
    rw [hrefused] at hend
    simp at hend
  · rw [hfeed] at htracked
    obtain ⟨o, ho⟩ := htracked
    rw [(walkText_of_feed hfeed).1] at hend
    have hopened := runsOut_reading options text _ q (Prod.ext hend rfl) hq
    -- the session has counted the containers that are open
    have hlimit := ho.limit
    rw [ho.depth] at hlimit
    rw [ho.kinds, List.length_map] at hopened
    omega

end Readings

/-- Readings end by themselves, and how many tables are ever open inside one another is bounded by the options, whatever
the text and the consumer: more tables, and more rows visited in one of them, change nothing.  Nor do more rounds in a
repetition than bytes are ahead. -/
theorem walkText_endsWithin :
    ∃ perLevel perDocument : Nat, ∀ (σ : Type) (consume : Consumer σ) (options : Options) (text : String) (c : σ),
      EndsWithin rows (Session.act consume options text.utf8ByteSize) rowsPerTable
          (perLevel * options.maxDepth + perDocument) .jsonText (.start (encode text.toList))
          { context := { consumer := c } } (walkText consume options text c) ∧
        ∀ (nest : Nat) (t : Rule) (min : Nat) (max : Option Nat) (more : List UInt8) (count : Nat) (here : Cursor)
          (s : State (Session σ)),
          let walk := run rows (Session.act consume options text.utf8ByteSize) rowsPerTable nest t
          repeatWalk min max walk (here.rest ++ more) count here s = repeatWalk min max walk here.rest count here s := by
  refine ⟨tablesPerLevel, tablesPerDocument, fun σ consume options text c => ⟨?_, ?_⟩⟩
  · exact .of_ne_exhausted rfl (walkText_lasts consume options text c)
  · intro nest t min max more count here s
    exact repeatWalk_rounds min max rows _ rowsPerTable nest t more count s

end TableJson.Grammar
