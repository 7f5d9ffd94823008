import TableJson.Proofs.Grammar.Boundaries
import TableJson.Proofs.Grammar.Rows
import TableJson.Proofs.Grammar.Tracking
import TableJson.Proofs.Machine.Visits

/-!
# Bookkeeping — what a session keeps of the open containers

A session counts the open containers, keeps their names in two stacks, and keeps the name of the member that is being
read.  Nothing in it checks that these agree, and a stack that runs empty would not be noticed.

* `Stands`: a session is at a place, with whatever consumer.
* `invariant_stands`: each step of a walk leads a session from a place where the walk may be to another one.
* `session_consistent`: wherever a reading comes, the count is that of both stacks and no more than the limit.  A
  container is closed only where one of its kind is open, and no name is pending where the document, an element or a
  member begins.
-/

namespace TableJson.Grammar

open Machine Utf8 Place

/-! ## Sessions at places -/

/-- The names of the open containers of a kind that a session keeps, innermost first. -/
def Session.names {σ : Type} (kind : ContainerKind) (s : Session σ) : List String :=
  match kind with
  | .object => s.objects
  | .array => s.arrays

/-- The number of open containers that a session counts is that of the names it keeps, and no more than allowed. -/
structure Session.Consistent {σ : Type} (options : Options) (s : Session σ) : Prop where
  depth : s.depth = s.objects.length + s.arrays.length
  limit : s.depth ≤ options.maxDepth

section Sessions

variable {σ : Type} {consume : Consumer σ} {options : Options} {size : Nat} {p q : Place} {s t : Session σ}
  {tr : List (Action × Match)} {a : Action} {m : Match}

/-- The session is at the place `p`, whatever its consumer has been told. -/
def Stands (options : Options) (p : Place) (s : Session σ) : Prop :=
  ∃ (t : Session (σ × Log)) (o : Outline), t.map Prod.fst = s ∧ Tracks options p t o

theorem stands_start (options : Options) (c : σ) : Stands options {} ({ consumer := c } : Session σ) :=
  ⟨{ consumer := (c, []) }, {}, rfl, tracks_start options c⟩

/-- Actions that are taken lead a session from place to place. -/
theorem Stands.feed (h : Stands options p s) (htr : follow tr p = some q)
    (hfeed : Machine.feed (Session.act consume options size) tr s = (t, true)) : Stands options q t := by
  obtain ⟨s', o, rfl, htracks⟩ := h
  have htracked : Tracked options q (Machine.feed (Session.act consume.logged options size) tr s') :=
    feed_tracks htr htracks
  have hlogged (e : Event) (c : σ × Log) :
      consume e (Prod.fst c) = (Prod.fst (consume.logged e c).1, (consume.logged e c).2) := rfl
  rw [feed_map (act_map hlogged options size) tr s'] at hfeed
  revert htracked hfeed
  rcases Machine.feed (Session.act consume.logged options size) tr s' with ⟨t', _ | _⟩
  · simp
  · rintro hfeed ⟨o', htracks'⟩
    exact ⟨t', o', congrArg Prod.fst hfeed, htracks'⟩

/-- An action that is taken leads a session from one place to the next. -/
theorem Stands.act (h : Stands options p s) (ha : p.step a = some q)
    (hanswer : (Session.act consume options size a m s).2 = true) :
    Stands options q (Session.act consume options size a m s).1 := by
  have hfollow : follow [(a, m)] p = some q := by
    rw [follow, ha]
    rfl
  have hfeed : Machine.feed (Session.act consume options size) [(a, m)] s =
      ((Session.act consume options size a m s).1, true) := by
    rw [Machine.feed]
    revert hanswer
    rcases Session.act consume options size a m s with ⟨s', _ | _⟩
    · simp
    · exact fun _ => rfl
  exact h.feed hfollow hfeed

theorem length_names (o : Outline) : (o.names .object).length + (o.names .array).length = o.opened.length := by
  simp only [Outline.names, List.length_map]
  induction o.opened with
  | nil => rfl
  | cons container rest ih =>
    obtain ⟨kind, name⟩ := container
    cases kind <;> simp <;> omega

theorem Stands.consistent (h : Stands options p s) : s.Consistent options := by
  obtain ⟨t, o, rfl, htracks⟩ := h
  have hlength := length_names o
  rw [← htracks.objects, ← htracks.arrays, ← htracks.depth] at hlength
  exact ⟨hlength.symm, htracks.limit⟩

/-- A name is pending only where the value of a member is due. -/
theorem Stands.unnamed (h : Stands options p s) (hp : ¬ (p.due = true ∧ p.opened.head? = some .object)) :
    s.memberName = "" := by
  obtain ⟨t, o, rfl, htracks⟩ := h
  exact Decidable.byContradiction fun hname => hp (htracks.name hname)

/-- Inside of a container the session has its name on top. -/
theorem Stands.innermost (h : Stands options p s) {kind : ContainerKind} (hp : p.Within kind) :
    0 < s.depth ∧ s.names kind ≠ [] := by
  obtain ⟨t, o, rfl, htracks⟩ := h
  obtain ⟨name, rest, hopened, -⟩ := htracks.innermost hp
  have hdepth : t.depth = rest.length + 1 := by rw [htracks.depth, hopened, List.length_cons]
  have hnames : t.names kind = o.names kind := by
    cases kind
    · exact htracks.objects
    · exact htracks.arrays
  refine ⟨hdepth ▸ Nat.succ_pos _, ?_⟩
  change t.names kind ≠ []
  rw [hnames, Outline.names, hopened]
  simp

end Sessions

/-! ## Readings -/

section Readings

variable {σ : Type} (consume : Consumer σ) (options : Options) (text : String) (c : σ)

/-- What the walk of a text hands to the session, in order, each with the session as it is then. -/
def textHandings : List (Handing Action (Session σ)) :=
  handings rows (Session.act consume options text.utf8ByteSize) rowsPerTable (nesting options) .jsonText
    (.start (encode text.toList)) { context := { consumer := c } }

/-- The rows that the walk of a text comes to, in order, each with the session as it is then. -/
def textVisits : List (Visit Rule (Session σ)) :=
  visits rows (Session.act consume options text.utf8ByteSize) rowsPerTable (nesting options) .jsonText
    (.start (encode text.toList)) { context := { consumer := c } }

/-- The row starts to read the value of the document, an element of an array or the name of a member: a value that is
not a member's, or a string in a member. -/
def Begins (t : Rule) (i : Nat) : Prop :=
  ∃ row, (rows t)[i]? = some row ∧
    (t ≠ .member ∧ row.matcher = .table .value ∨ t = .member ∧ row.matcher = .table .string)

/-- These are the rows that begin something. -/
theorem begins_iff {t : Rule} {i : Nat} :
    Begins t i ↔ (t, i) ∈ [(Rule.jsonText, 2), (.member, 0), (.nextValue, 1), (.arrayBody, 0)] := by
  have hrows (t : Rule) : ∀ p ∈ (rows t).zipIdx,
      (t ≠ .member ∧ p.1.matcher = .table .value ∨ t = .member ∧ p.1.matcher = .table .string) →
        (t, p.2) ∈ [(Rule.jsonText, 2), (.member, 0), (.nextValue, 1), (.arrayBody, 0)] := by
    cases t <;> decide
  constructor
  · rintro ⟨row, hrow, hbegins⟩
    exact hrows t (row, i) (List.mk_mem_zipIdx_iff_getElem?.2 hrow) hbegins
  · simp only [List.mem_cons, Prod.mk.injEq, List.not_mem_nil, or_false]
    rintro (⟨rfl, rfl⟩ | ⟨rfl, rfl⟩ | ⟨rfl, rfl⟩ | ⟨rfl, rfl⟩) <;> exact ⟨_, rfl, by decide⟩

instance (t : Rule) (i : Nat) : Decidable (Begins t i) := decidable_of_iff _ begins_iff.symm

variable {consume options text c}

/-- Where something begins that is not the value of a member, no value of a member is due. -/
theorem not_named_of_begins {t : Rule} {i : Nat} {p : Place} {cs : List Char} (h : Begins t i) (hp : p.Suits t i cs) :
    ¬ (p.due = true ∧ p.opened.head? = some .object) := by
  rw [begins_iff] at h
  simp only [List.mem_cons, Prod.mk.injEq, List.not_mem_nil, or_false] at h
  rintro ⟨hdue, hhead⟩
  rcases h with ⟨rfl, rfl⟩ | ⟨rfl, rfl⟩ | ⟨rfl, rfl⟩ | ⟨rfl, rfl⟩
  · obtain rfl := hp (Nat.le_refl 2)
    simp at hhead
  · have hp : p.Within .object := hp
    simp [hp.2] at hdue
  · have hp : p.Within .array := hp
    simp [hp.1] at hhead
  · have hp : p.Within .array := hp
    simp [hp.1] at hhead

/-- Each step of a walk keeps to where it may be, and the session stands there. -/
theorem invariant_stands (consume : Consumer σ) (options : Options) (size : Nat) :
    Invariant rows (Session.act consume options size) rowsPerTable
      fun t i here s => ∃ p o cs, here = .text o cs ∧ p.Suits t i cs ∧ Stands options p s where
  opens hrow hopens := by
    rintro ⟨p, o, cs, rfl, hsuits, hstands⟩
    exact ⟨p, o, cs, rfl, (rowSuits hrow).opens hopens hsuits, hstands⟩
  round {t t' i nest row min max here next c c' ms} hrow hm hscan hfeed := by
    rintro ⟨p, o, cs, rfl, hsuits, hstands⟩
    obtain ⟨_, r, -, rfl⟩ :=
      text_of_reads ((scan_sound rows rowsPerTable nest t' (.text o cs)).reads next (congrArg Prod.fst hscan))
    obtain ⟨q, hq, hsuits⟩ := (rowSuits hrow).round (n := nest) hm (congrArg Scan.plain hscan) hsuits
    exact ⟨q, _, r, rfl, hsuits, hstands.feed hq hfeed⟩
  fail {t i j nest row here c c' ms} hrow hexit htest hfeed := by
    rintro ⟨p, o, cs, rfl, hsuits, hstands⟩
    obtain ⟨q, hq, hsuits⟩ := (rowSuits hrow).fail (n := nest) hexit (congrArg Scan.plain htest) hsuits
    exact ⟨q, o, cs, rfl, hsuits, hstands.feed hq hfeed⟩
  go {t i j nest row here next c c' ms} hrow hexit htest hfeed := by
    rintro ⟨p, o, cs, rfl, hsuits, hstands⟩
    have hsound := (kept_sound rows rowsPerTable).test (fun t _ here => scan_sound rows rowsPerTable nest t here)
      (fun _ _ => trivial) (m := row.matcher) (.text o cs)
    obtain ⟨_, r, -, rfl⟩ := text_of_reads (hsound.reads next (congrArg Prod.fst htest))
    obtain ⟨q, hq, hsuits⟩ := (rowSuits hrow).go (n := nest) hexit (congrArg Scan.plain htest) hsuits
    exact ⟨q, _, r, rfl, hsuits, hstands.feed hq hfeed⟩

/-- Wherever a walk comes, the session is at a place where the walk may be. -/
theorem stands_of_visit {v : Visit Rule (Session σ)} (hv : v ∈ textVisits consume options text c) :
    ∃ p cs, p.Suits v.table v.row cs ∧ Stands options p v.state.context := by
  have hvisits := (invariant_stands consume options text.utf8ByteSize).visits (nesting options) .jsonText
    (.start (encode text.toList)) { context := { consumer := c } }
    ⟨{}, 0, text.toList, Cursor.start_eq_text _, fun _ => rfl, stands_start options c⟩ v hv
  obtain ⟨p, -, cs, -, hsuits, hstands⟩ := hvisits
  exact ⟨p, cs, hsuits, hstands⟩

/-- Whenever an action is handed over, the session is at a place where the action may come, and the action leads on. -/
theorem stands_of_handing {h : Handing Action (Session σ)} (hmem : h ∈ textHandings consume options text c) :
    ∃ p q, p.step h.action = some q ∧ Stands options p h.state ∧
      (h.answer (Session.act consume options text.utf8ByteSize) = true →
        Stands options q (Session.act consume options text.utf8ByteSize h.action h.found h.state).1) := by
  rw [textHandings, handings_eq] at hmem
  obtain ⟨before, after, htrace, hbefore⟩ := mem_handed hmem
  obtain ⟨last, hlast⟩ := legal_reading options text
  have hreading : (reading options text).2 = before ++ h.event :: after := by
    rw [← htrace, Cursor.start_eq_text]
    rfl
  rw [hreading, follow_append] at hlast
  obtain ⟨p, hp, hlast⟩ := Option.bind_eq_some_iff.1 hlast
  obtain ⟨q, hq, -⟩ := Option.bind_eq_some_iff.1 hlast
  have hstands : Stands options p h.state := (stands_start options c).feed hp hbefore
  exact ⟨p, q, hq, hstands, hstands.act hq⟩

/-- Wherever a reading comes, and all actions so far have been taken, the session counts the open containers as the two
stacks do, within the limit, and no name is pending where the document, an element or a member begins, even if it begins
in vain.  Every action is handed over by a row that the reading comes to.  One that closes a container finds one of its
kind open, so that the count and the stack have something to take away. -/
theorem session_consistent (consume : Consumer σ) (options : Options) (text : String) (c : σ) :
    (∀ v ∈ textVisits consume options text c,
      v.state.context.Consistent options ∧ (Begins v.table v.row → v.state.context.memberName = "")) ∧
    ∀ h ∈ textHandings consume options text c,
      (∃ v ∈ textVisits consume options text c, v.Hands rows h) ∧
      h.state.Consistent options ∧
      (h.answer (Session.act consume options text.utf8ByteSize) = true →
        (Session.act consume options text.utf8ByteSize h.action h.found h.state).1.Consistent options) ∧
      (h.action = .endObject → 0 < h.state.depth ∧ h.state.objects ≠ []) ∧
      (h.action = .endArray → 0 < h.state.depth ∧ h.state.arrays ≠ []) := by
  constructor
  · intro v hv
    obtain ⟨p, cs, hsuits, hstands⟩ := stands_of_visit hv
    exact ⟨hstands.consistent, fun hbegins => hstands.unnamed (not_named_of_begins hbegins hsuits)⟩
  · intro h hmem
    obtain ⟨p, q, hq, hstands, hafter⟩ := stands_of_handing hmem
    have hwithin (kind : ContainerKind) (ha : h.action = Action.closes kind) : p.Within kind := by
      rw [ha] at hq
      cases kind <;> exact (Option.ite_none_right_eq_some.1 hq).1
    exact ⟨visit_of_handing hmem, hstands.consistent, fun hanswer => (hafter hanswer).consistent,
      fun ha => hstands.innermost (hwithin .object ha),
      fun ha => hstands.innermost (hwithin .array ha)⟩

/-- In a document with a member, the name of the member begins, and the object with it is closed. -/
theorem session_consistent_member :
    validate {} "[\x7b\"a\":1\x7d]" = .ok () ∧
    (∃ v ∈ textVisits Consumer.indifferent {} "[\x7b\"a\":1\x7d]" (), (v.table, v.row) = (.member, 0) ∧
      v.state.context.memberName = "" ∧ v.state.context.Consistent {}) ∧
    ∃ h ∈ textHandings Consumer.indifferent {} "[\x7b\"a\":1\x7d]" (), h.action = .endObject ∧
      0 < h.state.depth ∧ h.state.objects ≠ [] := by
  have hvisit : ∃ v ∈ textVisits Consumer.indifferent {} "[\x7b\"a\":1\x7d]" (), (v.table, v.row) = (.member, 0) := by
    decide +kernel
  have hhanding : ∃ h ∈ textHandings Consumer.indifferent {} "[\x7b\"a\":1\x7d]" (), h.action = .endObject := by
    decide +kernel
  obtain ⟨v, hv, hrow⟩ := hvisit
  obtain ⟨h, hmem, haction⟩ := hhanding
  obtain ⟨hvisits, hhandings⟩ := session_consistent Consumer.indifferent {} "[\x7b\"a\":1\x7d]" ()
  obtain ⟨hconsistent, hunnamed⟩ := hvisits v hv
  obtain ⟨-, -, -, hobject, -⟩ := hhandings h hmem
  have hbegins : Begins v.table v.row := begins_iff.2 (by rw [hrow]; decide)
  exact ⟨by decide +kernel, ⟨v, hv, hrow, hunnamed hbegins, hconsistent⟩, h, hmem, haction, hobject haction⟩

/-- Where something begins in a text, with the names that are pending there: not at the 2, which is a member's. -/
example : ((textVisits Consumer.indifferent {} "[1, \x7b\"a\": 2\x7d]" ()).filter fun v => Begins v.table v.row).map
    (fun v => (v.here.offset, v.state.context.memberName)) = [(0, ""), (1, ""), (4, ""), (5, "")] := by
  decide +kernel

end Readings

end TableJson.Grammar
