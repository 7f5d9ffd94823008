import TableJson.Proofs.Grammar.Depths

/-!
# Relaxing — what less strict options change

Options are less strict if containers may nest deeper, or if surrogates may be replaced.  A reading goes the same way
under less strict options, unless the stricter ones have refused something: a container that was too deep, or half a
surrogate pair (`read_relaxed`).

The proof compares two contexts action by action: they answer alike, until the first one refuses (`replay_relaxed`).
-/

namespace TableJson

/-! ## Strings -/

namespace Text

section Unescape

variable {replace replace' : Bool} (h : replace = true → replace' = true)

include h

theorem loneSurrogate_relaxed {c : Char} (hc : loneSurrogate replace = some c) : loneSurrogate replace' = some c := by
  cases replace with
  | false => simp [loneSurrogate] at hc
  | true => rwa [h rfl]

theorem unitChar?_relaxed {u : Nat} {cs : List Char} {p : Char × List Char} (hp : unitChar? replace u cs = some p) :
    unitChar? replace' u cs = some p := by
  have hlone (hp : (loneSurrogate replace).map (·, cs) = some p) : (loneSurrogate replace').map (·, cs) = some p := by
    obtain ⟨c, hc, hp⟩ := Option.map_eq_some_iff.1 hp
    rw [loneSurrogate_relaxed h hc, Option.map_some, hp]
  unfold unitChar? at hp ⊢
  by_cases hhigh : isHighSurrogate u = true
  · rw [if_pos hhigh] at hp ⊢
    rcases hnext : unitEscape? cs with _ | ⟨low, rest⟩
    · rw [hnext] at hp
      exact hlone hp
    · rw [hnext] at hp
      dsimp only at hp ⊢
      by_cases hlow : isLowSurrogate low = true
      · rwa [if_pos hlow] at hp ⊢
      · rw [if_neg hlow] at hp ⊢
        exact hlone hp
  · rw [if_neg hhigh] at hp ⊢
    by_cases hlow : isLowSurrogate u = true
    · rw [if_pos hlow] at hp ⊢
      exact hlone hp
    · rwa [if_neg hlow] at hp ⊢

theorem escaped?_relaxed {marker : Char} {cs : List Char} {p : Char × List Char}
    (hp : escaped? replace marker cs = some p) : escaped? replace' marker cs = some p := by
  unfold escaped? at hp ⊢
  by_cases hmarker : marker = 'u' ∨ marker = 'U'
  · rw [if_pos hmarker] at hp ⊢
    obtain ⟨q, hq, hp⟩ := Option.bind_eq_some_iff.1 hp
    rw [hq, Option.bind_some]
    exact unitChar?_relaxed h hp
  · rwa [if_neg hmarker] at hp ⊢

theorem unescapeWithin_relaxed {fuel : Nat} {cs ds : List Char} (hds : unescapeWithin replace fuel cs = some ds) :
    unescapeWithin replace' fuel cs = some ds := by
  induction fuel generalizing cs ds with
  | zero =>
    cases cs with
    | nil => exact hds
    | cons c cs => simp [unescapeWithin] at hds
  | succ fuel ih =>
    cases cs with
    | nil => exact hds
    | cons c cs =>
      by_cases hc : c = '\\'
      · subst hc
        cases cs with
        | nil => simp [unescapeWithin] at hds
        | cons marker cs =>
          rw [Grammar.unescapeWithin_escape] at hds ⊢
          obtain ⟨p, hp, hds⟩ := Option.bind_eq_some_iff.1 hds
          obtain ⟨es, hes, hds⟩ := Option.map_eq_some_iff.1 hds
          rw [escaped?_relaxed h hp, Option.bind_some, ih hes, Option.map_some, hds]
      · rw [Grammar.unescapeWithin_plain _ fuel hc] at hds ⊢
        obtain ⟨es, hes, hds⟩ := Option.map_eq_some_iff.1 hds
        rw [ih hes, Option.map_some, hds]

theorem unescape?_relaxed {cs ds : List Char} (hds : unescape? replace cs = some ds) :
    unescape? replace' cs = some ds := by
  rw [Grammar.unescape?_eq_unescapeWithin] at hds ⊢
  exact unescapeWithin_relaxed h hds

end Unescape

end Text

/-! ## Options -/

/-- The options `options'` are as strict as `options`, or less. -/
structure Options.Relaxed (options options' : Options) : Prop where
  depth : options.maxDepth ≤ options'.maxDepth
  surrogates : options.replaceInvalidSurrogates = true → options'.replaceInvalidSurrogates = true

/-- The failures of which less strict options may know nothing. -/
def Options.Strict (options options' : Options) (code : ErrorCode) : Prop :=
  code = .tooDeep ∧ options.maxDepth < options'.maxDepth ∨
    code = .badNumber ∧ options.replaceInvalidSurrogates ≠ options'.replaceInvalidSurrogates

/-! ## Walks -/

namespace Machine

variable {τ α σ : Type} {act act' : Context α σ} {I R : σ → Prop}

/-- Where nothing is handed over, the context has no say. -/
theorem replay_silent {ms : List (Move α)} (h : actions ms = []) (s : State σ) :
    replay act' ms s = replay act ms s := by
  induction ms generalizing s with
  | nil => rfl
  | cons m ms ih =>
    cases m with
    | look offset => exact ih h (s.reach offset)
    | hand a m stop => simp at h

/-- Two contexts that do the same unless the first one refuses go the same way up to a refusal by the first.  `I` is
known of the states in between; the last action need not keep it. -/
theorem replay_relaxed {P : α → Prop}
    (hact : ∀ a m c, I c → act' a m c = act a m c ∨ (act a m c).2 = false ∧ R (act a m c).1)
    (hkeeps : ∀ a m c, P a → I c → (act a m c).2 = true → I (act a m c).1) {ms : List (Move α)}
    (hP : ∀ q ∈ (actions ms).dropLast, P q.1) {s : State σ} (hs : I s.context) :
    replay act' ms s = replay act ms s ∨ (∃ stop, (replay act ms s).2 = some stop) ∧ R (replay act ms s).1.context := by
  induction ms generalizing s with
  | nil => exact Or.inl rfl
  | cons m ms ih =>
    cases m with
    | look offset => exact ih hP (s := s.reach offset) hs
    | hand a m stop =>
      have hstep := hact a m s.context hs
      have hkept (ha : P a) := hkeeps a m s.context ha hs
      simp only [replay]
      rcases hc : act a m s.context with ⟨c, _ | _⟩
      · rw [hc] at hstep
        rcases hstep with heq | ⟨-, hR⟩
        · rw [heq]
          exact Or.inl rfl
        · exact Or.inr ⟨⟨stop, rfl⟩, hR⟩
      · rw [hc] at hstep hkept
        rw [hstep.resolve_right (by simp)]
        dsimp only
        by_cases hlast : actions ms = []
        · exact Or.inl (replay_silent hlast _)
        · rw [actions_hand, List.dropLast_cons_of_ne_nil hlast] at hP
          exact ih (fun q hq => hP q (List.mem_cons_of_mem _ hq)) (hkept (hP _ (List.mem_cons_self ..)) rfl)

/-- The same of a whole run. -/
theorem run_relaxed {P : α → Prop}
    (hact : ∀ a m c, I c → act' a m c = act a m c ∨ (act a m c).2 = false ∧ R (act a m c).1)
    (hkeeps : ∀ a m c, P a → I c → (act a m c).2 = true → I (act a m c).1) {program : Program τ α} {steps nest : Nat}
    {t : τ} {here : Cursor} (hP : ∀ q ∈ (actions (scan program steps nest t here).2).dropLast, P q.1) {s : State σ}
    (hs : I s.context) :
    run program act' steps nest t here s = run program act steps nest t here s ∨
      (∃ stop, (run program act steps nest t here s).1 = .halted (.aborted stop)) ∧
        R (run program act steps nest t here s).2.context := by
  rw [run_eq_resume, run_eq_resume, Scan.resume, Scan.resume]
  rcases replay_relaxed hact hkeeps hP hs with heq | ⟨⟨stop, hstop⟩, hR⟩
  · exact Or.inl (by rw [heq])
  · refine Or.inr ?_
    rcases hend : replay act (scan program steps nest t here).2 s with ⟨s', _ | stop'⟩
    · rw [hend] at hstop
      simp at hstop
    · rw [hend] at hR
      exact ⟨⟨stop', rfl⟩, hR⟩

end Machine

/-! ## Sessions -/

namespace Grammar

open Machine

section Sessions

variable {σ : Type} {consume : Consumer σ} {options options' : Options} {size : Nat} {s : Session σ}

theorem decode?_relaxed (h : options.Relaxed options') {quoted : Match} {text : String}
    (htext : decode? options quoted = some text) : decode? options' quoted = some text := by
  obtain ⟨body, hbody, htext⟩ := Option.bind_eq_some_iff.1 htext
  obtain ⟨cs, hcs, htext⟩ := Option.bind_eq_some_iff.1 htext
  exact Option.bind_eq_some_iff.2
    ⟨body, hbody, Option.bind_eq_some_iff.2 ⟨cs, Text.unescape?_relaxed h.surrogates hcs, htext⟩⟩

/-- The session has refused something that less strict options may know nothing of. -/
def Refuses (options options' : Options) (s : Session σ) : Prop :=
  ∃ failure, s.failure = some failure ∧ options.Strict options' failure.code

theorem refuses_fail (hs : s.failure = none) {code : ErrorCode} (hcode : options.Strict options' code)
    (offset : Option Nat) : (s.fail code offset).2 = false ∧ Refuses options options' (s.fail code offset).1 := by
  unfold Session.fail
  rw [hs]
  exact ⟨rfl, ⟨code, offset⟩, rfl, hcode⟩

/-- Strings that only the less strict options can decode have half a pair in them. -/
theorem strict_decode {quoted : Match} (hnone : decode? options quoted = none)
    (hsome : decode? options' quoted ≠ none) : options.Strict options' .badNumber := by
  refine Or.inr ⟨rfl, fun heq => hsome ?_⟩
  rw [← hnone, decode?, decode?, heq]

theorem enter_relaxed (h : options.Relaxed options') (hs : s.failure = none) (kind : ContainerKind) (offset : Nat) :
    s.enter consume options' kind offset = s.enter consume options kind offset ∨
      (s.enter consume options kind offset).2 = false ∧
        Refuses options options' (s.enter consume options kind offset).1 := by
  have hdepth := h.depth
  by_cases hd : options.maxDepth ≤ s.depth
  · by_cases hd' : options'.maxDepth ≤ s.depth
    · exact Or.inl (by rw [Session.enter, Session.enter, if_pos hd, if_pos hd'])
    · rw [show s.enter consume options kind offset = s.fail .tooDeep (some offset) from if_pos hd]
      exact Or.inr (refuses_fail hs (Or.inl ⟨rfl, by omega⟩) _)
  · exact Or.inl (by rw [Session.enter, Session.enter, if_neg hd, if_neg (by omega)])

/-- Less strict options change nothing of an action, unless the stricter ones refuse it. -/
theorem act_relaxed (h : options.Relaxed options') (hs : s.failure = none) (a : Action) (m : Match) :
    Session.act consume options' size a m s = Session.act consume options size a m s ∨
      (Session.act consume options size a m s).2 = false ∧
        Refuses options options' (Session.act consume options size a m s).1 := by
  cases a with
  | stringValue =>
    simp only [Session.act]
    cases hnone : decode? options m with
    | some text => exact Or.inl (by rw [decode?_relaxed h hnone])
    | none =>
      cases hsome : decode? options' m with
      | none => exact Or.inl rfl
      | some text => exact Or.inr (refuses_fail hs (strict_decode hnone (by simp [hsome])) _)
  | beginMember =>
    simp only [Session.act]
    cases hnone : decode? options m with
    | some text => exact Or.inl (by rw [decode?_relaxed h hnone])
    | none =>
      cases hsome : decode? options' m with
      | none => exact Or.inl rfl
      | some text => exact Or.inr (refuses_fail hs (strict_decode hnone (by simp [hsome])) _)
  | beginObject => exact enter_relaxed h hs .object m.start
  | beginArray => exact enter_relaxed h hs .array m.start
  | _ => exact Or.inl rfl

/-- The actions that keep no failure when they are taken. -/
def Action.Steady (a : Action) : Prop := a ≠ .successEndJson ∧ a ≠ .failedEndJson ∧ a ≠ .malformedNumber

/-- A session that takes an action keeps no failure, unless the action ends the document. -/
theorem failure_of_taken {a : Action} (ha : a.Steady) (m : Match) (hs : s.failure = none)
    (htaken : (Session.act consume options size a m s).2 = true) :
    (Session.act consume options size a m s).1.failure = none := by
  have hfail {code : ErrorCode} {offset : Option Nat} {t : Session σ} (htaken : (t.fail code offset).2 = true) :
      (t.fail code offset).1.failure = none := by
    rw [fail_refuses] at htaken
    exact absurd htaken (by simp)
  have henter (kind : ContainerKind) (offset : Nat) (htaken : (s.enter consume options kind offset).2 = true) :
      (s.enter consume options kind offset).1.failure = none := by
    unfold Session.enter at htaken ⊢
    split
    · rw [if_pos ‹_›] at htaken
      exact hfail htaken
    · cases kind <;> exact hs
  cases a with
  | successEndJson => exact absurd rfl ha.1
  | failedEndJson => exact absurd rfl ha.2.1
  | malformedNumber => exact absurd rfl ha.2.2
  | numberValue =>
    simp only [Session.act, Session.deliverNumber] at htaken ⊢
    cases hvalue : s.number.scalar? with
    | none =>
      rw [hvalue] at htaken
      exact hfail htaken
    | some v => exact hs
  | stringValue =>
    simp only [Session.act] at htaken ⊢
    cases htext : decode? options m with
    | none =>
      rw [htext] at htaken
      exact hfail htaken
    | some text => exact hs
  | beginMember =>
    simp only [Session.act] at htaken ⊢
    cases htext : decode? options m with
    | none =>
      rw [htext] at htaken
      exact hfail htaken
    | some name => exact hs
  | beginObject => exact henter .object m.start htaken
  | beginArray => exact henter .array m.start htaken
  | _ => exact hs

end Sessions

/-! ## Readings -/

section Readings

variable {σ : Type} (consume : Consumer σ) (options : Options) (text : String) (c : σ)

/-- No action of a reading but the last one ends the document, or tells of a malformed number. -/
theorem steady_reading : ∀ q ∈ (reading options text).2.dropLast, q.1.Steady := by
  obtain ⟨m, x, hreading, hx⟩ := reading_course options text
  rw [hreading]
  have hinner {tr : List (Action × Match)} (h : AllInner tr) : ∀ q ∈ (Action.beginJson, m) :: tr, q.1.Steady := by
    intro q hq
    rcases List.mem_cons.1 hq with rfl | hq
    · exact ⟨by simp, by simp, by simp⟩
    · obtain ⟨-, hsuccess, hfailed, hmalformed⟩ := h q hq
      exact ⟨hsuccess, hfailed, hmalformed⟩
  have hlast {tr : List (Action × Match)} (h : AllInner tr) (last : Action × Match) :
      ∀ q ∈ ([(Action.beginJson, m)] ++ (tr ++ [last])).dropLast, q.1.Steady := by
    rw [← List.append_assoc, List.dropLast_concat]
    exact hinner h
  cases hx with
  | success next h => exact hlast h _
  | failure row offset m h => exact hlast h _
  | malformed row offset m h => exact hlast h _
  | unfinished ho h => exact fun q hq => hinner h q (List.dropLast_subset _ hq)

/-- A reading needs no more room than it has. -/
theorem walkText_eq_run {n : Nat} (hn : nesting options ≤ n) :
    walkText consume options text c = run rows (Session.act consume options text.utf8ByteSize) rowsPerTable n .jsonText
      (.start (Utf8.encode text.toList)) { context := { consumer := c } } := by
  obtain ⟨more, rfl⟩ := Nat.exists_eq_add_of_le hn
  exact ((EndsWithin.of_ne_exhausted rfl (walkText_lasts consume options text c)).2 0 more).symm

/-- How a reading fails. -/
theorem result_of_failure {failure : Failure} (h : Failure.ofOutcome text.utf8ByteSize
    (walkText consume options text c).2.context.failure (walkText consume options text c).1 = some failure) :
    (read consume options text c).result =
      .error (.locate failure.code text (failure.offset.getD (walkText consume options text c).2.furthest)) := by
  unfold read
  rcases hwalk : walkText consume options text c with ⟨outcome, state⟩
  rw [hwalk] at h
  dsimp only at h ⊢
  rw [h]

/-- A reading that succeeds or fails for another reason goes the same way under less strict options. -/
theorem read_relaxed {options' : Options} (h : options.Relaxed options') :
    read consume options' text c = read consume options text c ∨
      ∃ e, (read consume options text c).result = .error e ∧ options.Strict options' e.code := by
  have hnesting : nesting options ≤ nesting options' := by
    have := h.depth
    unfold nesting tablesPerLevel
    omega
  have hwalk := walkText_eq_run consume options text c hnesting
  have hact (a : Action) (m : Match) (s : Session σ) (hs : s.failure = none) :
      Session.act consume options' text.utf8ByteSize a m s = Session.act consume options text.utf8ByteSize a m s ∨
        (Session.act consume options text.utf8ByteSize a m s).2 = false ∧
          Refuses options options' (Session.act consume options text.utf8ByteSize a m s).1 :=
    act_relaxed h hs a m
  have hrun := run_relaxed hact (fun a m s ha hs => failure_of_taken ha m hs) (steady_reading options' text)
    (s := { context := { consumer := c } }) rfl
  rw [Cursor.start_eq_text] at hwalk
  rw [← hwalk] at hrun
  have hwalk' : walkText consume options' text c = run rows (Session.act consume options' text.utf8ByteSize)
    rowsPerTable (nesting options') .jsonText (.text 0 text.toList) { context := { consumer := c } } := rfl
  rw [← hwalk'] at hrun
  rcases hrun with heq | ⟨⟨stop, hstop⟩, failure, hfailure, hstrict⟩
  · refine Or.inl ?_
    unfold read
    rw [heq]
  · have hresult := result_of_failure consume options text c (by rw [hstop, hfailure]; rfl)
    exact Or.inr ⟨_, hresult, hstrict⟩

end Readings

end Grammar

end TableJson
