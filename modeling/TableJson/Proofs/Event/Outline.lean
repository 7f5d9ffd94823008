import TableJson.Event

/-!
# Outlines — which events may follow which

The events of a document are those of one value, between the start and the end of the document.  A reading that fails
or is stopped reports some first part of that.

* `ValueEvents`: the events of a value, written as a grammar of events.
* `WellBracketed`: ends of containers match their starts, there is one value at top level, only members have names, and
  the events can be completed to those of a document.
* `Outline.step` goes from event to event with the open containers at hand.  Events that it goes along with are
  well-bracketed (`wellBracketed_of_follow`).
-/

namespace TableJson

/-- A container that is open, as it was reported. -/
structure Opening where
  kind : ContainerKind
  name : String
deriving DecidableEq

namespace Event

/-- The name of the value that starts with an event. -/
def starts? : Event → Option String
  | .scalar name _ => some name
  | .opened _ name => some name
  | _ => none

/-- The end of a document. -/
def isEnd : Event → Bool
  | .endJson _ => true
  | _ => false

/-- The open containers after an event, innermost first. -/
def containers (opened : List Opening) : Event → List Opening
  | .opened kind name => ⟨kind, name⟩ :: opened
  | .closed _ _ => opened.tail
  | _ => opened

end Event

/-- The containers that are open after some events, innermost first. -/
def openAfter (events : List Event) : List Opening := events.foldl Event.containers []

/-- The events of a value of the given name.  The entries of a container are values themselves, each with a name; in an
array all names are empty. -/
inductive ValueEvents : String → List Event → Prop
  | scalar (name : String) (v : Scalar) : ValueEvents name [.scalar name v]
  | container (kind : ContainerKind) (name : String) (entries : List (String × List Event))
    (hentries : ∀ p ∈ entries, ValueEvents p.1 p.2) (hnames : kind = .array → ∀ p ∈ entries, p.1 = "") :
    ValueEvents name (.opened kind name :: (entries.flatMap Prod.snd ++ [.closed kind name]))

/-- The events of a document. -/
def DocumentEvents (events : List Event) : Prop :=
  ∃ value, ValueEvents "" value ∧ events = .beginJson :: (value ++ [.endJson true])

/-- Events that a document may begin with. -/
structure WellBracketed (events : List Event) : Prop where
  /-- A container that ends is the last one that was opened and is still open. -/
  closed (before : List Event) (kind : ContainerKind) (name : String) (h : before ++ [.closed kind name] <+: events) :
    (openAfter before).head? = some ⟨kind, name⟩
  /-- At most one value starts with nothing open. -/
  single (before : List Event) (e : Event) (h : before ++ [e] <+: events) (hstarts : e.starts? ≠ none)
    (hopen : openAfter before = []) : ∀ f ∈ before, f.starts? = none
  /-- What starts outside of an object has no name. -/
  named (before : List Event) (e : Event) (name : String) (h : before ++ [e] <+: events) (hstarts : e.starts? = some name)
    (houtside : (openAfter before).head?.map Opening.kind ≠ some .object) : name = ""
  completes : ∃ document, DocumentEvents document ∧ events <+: document

/-! ## Going along -/

/-- The open containers, innermost first, and whether the value of the document has begun. -/
structure Outline where
  opened : List Opening := []
  begun : Bool := false
deriving DecidableEq

namespace Outline

/-- A value of this name may start here. -/
def Takes (name : String) (o : Outline) : Prop :=
  (o.opened = [] → o.begun = false) ∧ (o.opened.head?.map Opening.kind ≠ some .object → name = "")

instance (name : String) (o : Outline) : Decidable (o.Takes name) := inferInstanceAs (Decidable (_ ∧ _))

/-- Where an event leads to, if it may come here. -/
def step (e : Event) (o : Outline) : Option Outline :=
  match e with
  | .beginJson | .endJson _ => some o
  | .scalar name _ => if o.Takes name then some { o with begun := true } else none
  | .opened kind name => if o.Takes name then some ⟨⟨kind, name⟩ :: o.opened, true⟩ else none
  | .closed kind name => if o.opened.head? = some ⟨kind, name⟩ then some { o with opened := o.opened.tail } else none

/-- Where events lead to, one after another. -/
def follow : List Event → Outline → Option Outline
  | [], o => some o
  | e :: es, o => (o.step e).bind (follow es)

section Moves

variable {o o' : Outline} {e : Event} {es fs : List Event} {name : String} {kind : ContainerKind} {v : Scalar}

theorem follow_append : follow (es ++ fs) o = (follow es o).bind (follow fs) := by
  induction es generalizing o with
  | nil => rfl
  | cons e es ih =>
    rw [List.cons_append, follow, follow, Option.bind_assoc]
    exact Option.bind_congr fun o' _ => ih

theorem step_scalar_iff : o.step (.scalar name v) = some o' ↔ o.Takes name ∧ o' = { o with begun := true } := by
  rw [step, Option.ite_none_right_eq_some, Option.some_inj, eq_comm (a := o')]

theorem step_opened_iff :
    o.step (.opened kind name) = some o' ↔ o.Takes name ∧ o' = ⟨⟨kind, name⟩ :: o.opened, true⟩ := by
  rw [step, Option.ite_none_right_eq_some, Option.some_inj, eq_comm (a := o')]

theorem step_closed_iff :
    o.step (.closed kind name) = some o' ↔
      ∃ rest, o.opened = ⟨kind, name⟩ :: rest ∧ o' = { o with opened := rest } := by
  rw [step, Option.ite_none_right_eq_some, Option.some_inj, List.head?_eq_some_iff]
  constructor
  · rintro ⟨⟨rest, hrest⟩, rfl⟩
    exact ⟨rest, hrest, by rw [hrest, List.tail_cons]⟩
  · rintro ⟨rest, hrest, rfl⟩
    exact ⟨⟨rest, hrest⟩, by rw [hrest, List.tail_cons]⟩

theorem opened_of_step (h : o.step e = some o') : o'.opened = e.containers o.opened := by
  cases e with
  | scalar name v =>
    obtain ⟨-, rfl⟩ := step_scalar_iff.1 h
    rfl
  | opened kind name =>
    obtain ⟨-, rfl⟩ := step_opened_iff.1 h
    rfl
  | closed kind name =>
    obtain ⟨rest, hrest, rfl⟩ := step_closed_iff.1 h
    rw [Event.containers, hrest, List.tail_cons]
  | _ =>
    obtain rfl := Option.some.inj h
    rfl

theorem begun_of_step (h : o.step e = some o') : o'.begun = (o.begun || e.starts?.isSome) := by
  cases e with
  | scalar name v =>
    obtain ⟨-, rfl⟩ := step_scalar_iff.1 h
    exact (Bool.or_true _).symm
  | opened kind name =>
    obtain ⟨-, rfl⟩ := step_opened_iff.1 h
    exact (Bool.or_true _).symm
  | closed kind name =>
    obtain ⟨rest, -, rfl⟩ := step_closed_iff.1 h
    exact (Bool.or_false _).symm
  | _ =>
    obtain rfl := Option.some.inj h
    exact (Bool.or_false _).symm

theorem takes_of_step (h : o.step e = some o') (hstarts : e.starts? = some name) : o.Takes name := by
  cases e with
  | scalar name' v =>
    obtain rfl := Option.some.inj hstarts
    exact (step_scalar_iff.1 h).1
  | opened kind name' =>
    obtain rfl := Option.some.inj hstarts
    exact (step_opened_iff.1 h).1
  | _ => simp [Event.starts?] at hstarts

theorem opened_of_follow (h : follow es o = some o') : o'.opened = es.foldl Event.containers o.opened := by
  induction es generalizing o with
  | nil =>
    obtain rfl := Option.some.inj h
    rfl
  | cons e es ih =>
    obtain ⟨mid, hstep, hrest⟩ := Option.bind_eq_some_iff.1 h
    rw [ih hrest, opened_of_step hstep]
    rfl

theorem begun_of_follow (h : follow es o = some o') : o'.begun = (o.begun || es.any fun e => e.starts?.isSome) := by
  induction es generalizing o with
  | nil =>
    obtain rfl := Option.some.inj h
    exact (Bool.or_false _).symm
  | cons e es ih =>
    obtain ⟨mid, hstep, hrest⟩ := Option.bind_eq_some_iff.1 h
    rw [ih hrest, begun_of_step hstep, List.any_cons, Bool.or_assoc]

/-- What is gone along with in parts. -/
theorem follow_of_prefix (h : follow es o = some o') (hinit : fs ++ [e] <+: es) :
    ∃ mid next, follow fs o = some mid ∧ mid.step e = some next := by
  obtain ⟨rest, rfl⟩ := hinit
  rw [follow_append] at h
  obtain ⟨next, hnext, -⟩ := Option.bind_eq_some_iff.1 h
  rw [follow_append] at hnext
  obtain ⟨mid, hmid, hlast⟩ := Option.bind_eq_some_iff.1 hnext
  obtain ⟨_, hstep, -⟩ := Option.bind_eq_some_iff.1 hlast
  exact ⟨mid, _, hmid, hstep⟩

end Moves

end Outline

/-! ## What is not complete -/

/-- The events so far of a value with these containers open, innermost first. -/
inductive Unfinished : List Opening → List Event → Prop
  | outside : Unfinished [] []
  | inside (kind : ContainerKind) (name : String) {opened : List Opening} {before : List Event}
    (entries : List (String × List Event)) (houter : Unfinished opened before)
    (hname : opened.head?.map Opening.kind ≠ some .object → name = "")
    (hentries : ∀ p ∈ entries, ValueEvents p.1 p.2) (hnames : kind = .array → ∀ p ∈ entries, p.1 = "") :
    Unfinished (⟨kind, name⟩ :: opened) (before ++ .opened kind name :: entries.flatMap Prod.snd)

namespace Unfinished

variable {opened : List Opening} {before es : List Event} {kind : ContainerKind} {name : String}

theorem eq_nil (h : Unfinished [] before) : before = [] := by
  cases h
  rfl

/-- A further entry. -/
theorem value (h : Unfinished opened before) (hopen : opened ≠ []) (hvalue : ValueEvents name es)
    (hname : opened.head?.map Opening.kind ≠ some .object → name = "") : Unfinished opened (before ++ es) := by
  cases h with
  | outside => exact absurd rfl hopen
  | @inside kind n opened before entries houter hn hentries hnames =>
    have hflat : before ++ .opened kind n :: entries.flatMap Prod.snd ++ es =
        before ++ .opened kind n :: (entries ++ [(name, es)]).flatMap Prod.snd := by simp
    rw [hflat]
    refine .inside kind n (entries ++ [(name, es)]) houter hn (fun p hp => ?_) fun hkind p hp => ?_
    · rcases List.mem_append.1 hp with hp | hp
      · exact hentries p hp
      · rw [List.mem_singleton.1 hp]
        exact hvalue
    · rcases List.mem_append.1 hp with hp | hp
      · exact hnames hkind p hp
      · rw [List.mem_singleton.1 hp]
        exact hname (by simp [hkind])

/-- The end of the innermost container: it is a value of what is around it. -/
theorem close (h : Unfinished (⟨kind, name⟩ :: opened) before) :
    ∃ outer es, Unfinished opened outer ∧ ValueEvents name es ∧
      (opened.head?.map Opening.kind ≠ some .object → name = "") ∧ before ++ [.closed kind name] = outer ++ es := by
  cases h with
  | @inside _ _ _ outer entries houter hname hentries hnames =>
    refine ⟨outer, _, houter, .container kind name entries hentries hnames, hname, ?_⟩
    rw [List.append_assoc, List.cons_append]

/-- Whatever is open can be closed, and where nothing has begun, a value can come. -/
theorem completes (h : Unfinished opened before) : ∃ rest, ValueEvents "" (before ++ rest) := by
  induction opened generalizing before with
  | nil =>
    rw [h.eq_nil]
    exact ⟨[.scalar "" .null], .scalar "" .null⟩
  | cons container opened ih =>
    obtain ⟨kind, name⟩ := container
    obtain ⟨outer, es, houter, hvalue, hname, hclosed⟩ := h.close
    by_cases hopen : opened = []
    · subst hopen
      rw [houter.eq_nil, List.nil_append] at hclosed
      rw [hname (by simp), ← hclosed] at hvalue
      exact ⟨_, hvalue⟩
    · obtain ⟨rest, hrest⟩ := ih (houter.value hopen hvalue hname)
      rw [← hclosed, List.append_assoc] at hrest
      exact ⟨_, hrest⟩

end Unfinished

/-- What some events amount to, where they lead to this outline: a value that is complete, or one that is not. -/
inductive Amounts : Outline → List Event → Prop
  | complete {es : List Event} (h : ValueEvents "" es) : Amounts ⟨[], true⟩ es
  | unfinished {opened : List Opening} {es : List Event} (h : Unfinished opened es) : Amounts ⟨opened, !opened.isEmpty⟩ es

namespace Amounts

variable {o o' : Outline} {e : Event} {es fs : List Event} {opened : List Opening} {name : String}

/-- Where a value may start, nothing is complete. -/
theorem of_takes (h : Amounts o es) (ho : o.Takes name) : Unfinished o.opened es := by
  cases h with
  | complete h => exact absurd (ho.1 rfl) (by simp)
  | unfinished h => exact h

/-- A value after what is not finished. -/
theorem value (h : Unfinished opened es) (hvalue : ValueEvents name fs)
    (hname : opened.head?.map Opening.kind ≠ some .object → name = "") : Amounts ⟨opened, true⟩ (es ++ fs) := by
  cases opened with
  | nil =>
    rw [h.eq_nil, List.nil_append]
    rw [hname (by simp)] at hvalue
    exact .complete hvalue
  | cons container opened => exact .unfinished (h.value (List.cons_ne_nil _ _) hvalue hname)

/-- An event adds to what the events amount to. -/
theorem step (h : Amounts o es) (hstep : o.step e = some o') (hbegin : e ≠ .beginJson) (hend : e.isEnd = false) :
    Amounts o' (es ++ [e]) := by
  cases e with
  | beginJson => exact absurd rfl hbegin
  | endJson success => exact absurd hend (by simp [Event.isEnd])
  | scalar name v =>
    obtain ⟨htakes, rfl⟩ := Outline.step_scalar_iff.1 hstep
    exact value (h.of_takes htakes) (.scalar name v) htakes.2
  | opened kind name =>
    obtain ⟨htakes, rfl⟩ := Outline.step_opened_iff.1 hstep
    exact .unfinished (.inside kind name [] (h.of_takes htakes) htakes.2 (by simp) (by simp))
  | closed kind name =>
    obtain ⟨rest, hrest, rfl⟩ := Outline.step_closed_iff.1 hstep
    cases h with
    | complete h => exact absurd hrest (by simp)
    | unfinished h =>
      obtain rfl : _ = ⟨kind, name⟩ :: rest := hrest
      obtain ⟨outer, fs, houter, hvalue, hname, hclosed⟩ := h.close
      rw [hclosed]
      exact value houter hvalue hname

theorem follow (h : Amounts o es) (hfollow : Outline.follow fs o = some o')
    (hinner : ∀ e ∈ fs, e ≠ .beginJson ∧ e.isEnd = false) : Amounts o' (es ++ fs) := by
  induction fs generalizing o es with
  | nil =>
    obtain rfl := Option.some.inj hfollow
    rwa [List.append_nil]
  | cons e fs ih =>
    obtain ⟨mid, hstep, hrest⟩ := Option.bind_eq_some_iff.1 hfollow
    obtain ⟨hbegin, hend⟩ := hinner e (List.mem_cons_self ..)
    have := ih (h.step hstep hbegin hend) hrest fun f hf => hinner f (List.mem_cons_of_mem _ hf)
    rwa [List.append_assoc] at this

/-- Whatever is there can be completed. -/
theorem completes (h : Amounts o es) : ∃ rest, ValueEvents "" (es ++ rest) := by
  cases h with
  | complete h => exact ⟨[], by rwa [List.append_nil]⟩
  | unfinished h => exact h.completes

end Amounts

/-- Events that an outline goes along with are well-bracketed. -/
theorem wellBracketed_of_follow {es : List Event} {o : Outline} (h : Outline.follow (.beginJson :: es) {} = some o)
    (hinner : ∀ e ∈ es, e ≠ .beginJson ∧ e.isEnd = false) : WellBracketed (.beginJson :: es) where
  closed before kind name hinit := by
    obtain ⟨mid, next, hmid, hstep⟩ := Outline.follow_of_prefix h hinit
    obtain ⟨rest, hrest, -⟩ := Outline.step_closed_iff.1 hstep
    rw [openAfter, ← Outline.opened_of_follow hmid, hrest]
    rfl
  single before e hinit hstarts hopen f hf := by
    obtain ⟨mid, next, hmid, hstep⟩ := Outline.follow_of_prefix h hinit
    obtain ⟨name, hname⟩ := Option.ne_none_iff_exists'.1 hstarts
    rw [openAfter, ← Outline.opened_of_follow hmid] at hopen
    have hbegun := (Outline.takes_of_step hstep hname).1 hopen
    rw [Outline.begun_of_follow hmid, Bool.false_or, List.any_eq_false] at hbegun
    exact Option.not_isSome_iff_eq_none.1 (hbegun f hf)
  named before e name hinit hstarts houtside := by
    obtain ⟨mid, next, hmid, hstep⟩ := Outline.follow_of_prefix h hinit
    rw [openAfter, ← Outline.opened_of_follow hmid] at houtside
    exact (Outline.takes_of_step hstep hstarts).2 houtside
  completes := by
    have hfollow : Outline.follow es {} = some o := h
    have hamounts : Amounts o es := Amounts.follow (.unfinished .outside) hfollow hinner
    obtain ⟨rest, hrest⟩ := hamounts.completes
    refine ⟨_, ⟨_, hrest, rfl⟩, ?_⟩
    rw [List.append_assoc]
    exact List.prefix_append (.beginJson :: es) _

end TableJson
