import TableJson.Proofs.Grammar.Places

/-!
# Rows — where in a document a walk may be at each row

A walk comes to most rows at one kind of place only, also on its way through alternatives that come to nothing.

* `Place.Suits`: where in a document a walk may be when it comes to a row.
* `rowSuits`: each step of a walk keeps to that: into the table that a row opens, from one round of a repetition to the
  next, and on to another row, be it after a match or after a mismatch.
-/

namespace TableJson.Grammar

open Machine Utf8 Scan Place

/-- No container of the kind starts here. -/
def Lacks (kind : ContainerKind) (cs : List Char) : Prop := Stops (· == openChar kind) (skip cs)

/-- Where a walk may be when it comes to the row `i` of a container. -/
def Place.SuitsContainer (p : Place) (kind : ContainerKind) (i : Nat) (cs : List Char) : Prop :=
  (i = 0 → p.Takes ∨ Lacks kind cs) ∧ (i = 1 → p.Within kind)

/-- Where a walk may be when it comes to the row `i` of a table before the text `cs`.  Once an object has come to
nothing there is no telling, but no array starts there any more. -/
def Place.Suits (p : Place) : Rule → Nat → List Char → Prop
  | .jsonText, i, _ => i ≤ 2 → p = {}
  | .value, i, cs => p.Takes ∨ i = 6 ∧ Lacks .array cs
  | .member, i, _ => if i = 0 then p.Within .object else p.Takes
  | .nextMember, _, _ | .objectBody, _, _ => p.Within .object
  | .nextValue, _, _ | .arrayBody, _, _ => p.Within .array
  | .object, i, cs => p.SuitsContainer .object i cs
  | .array, i, cs => p.SuitsContainer .array i cs
  | _, _, _ => True

/-- The steps from the row `i` of a table lead from where a walk may be to where it may be. -/
structure RowSuits (t : Rule) (i : Nat) (row : Row Rule Action) : Prop where
  opens {p : Place} {t' : Rule} {cs : List Char} (ht' : row.matcher.Opens t') (h : p.Suits t i cs) : p.Suits t' 0 cs
  round {p : Place} {t' : Rule} {n min o o' : Nat} {max : Option Nat} {cs r : List Char} {tr : List (Action × Match)}
    (hm : row.matcher = .repeatTable t' min max) (hreads : reads n t' (.text o cs) = (.matched (.text o' r), tr))
    (h : p.Suits t' 0 cs) : ∃ q, follow tr p = some q ∧ q.Suits t' 0 r
  fail {p : Place} {n j o : Nat} {cs : List Char} {tr : List (Action × Match)} (hexit : row.onFail = .row j)
    (htest : tests n row.matcher (.text o cs) = (.mismatch, tr)) (h : p.Suits t i cs) :
    ∃ q, follow tr p = some q ∧ q.Suits t j cs
  go {p : Place} {n j o o' : Nat} {cs r : List Char} {tr : List (Action × Match)} (hexit : row.onMatch = .row j)
    (htest : tests n row.matcher (.text o cs) = (.matched (.text o' r), tr)) (h : p.Suits t i cs) :
    ∃ q, follow (tr ++ row.notes (.text o cs) (.text o' r)) p = some q ∧ q.Suits t j r

section Rows

variable {p : Place} {t : Rule} {i : Nat} {cs : List Char} {row : Row Rule Action} {kind : ContainerKind}

theorem suits_lexical (ht : t ∈ lexical) (p : Place) (i : Nat) (cs : List Char) : p.Suits t i cs := by
  have hall : ∀ t ∈ lexical, p.Suits t i cs := by simp [lexical, Place.Suits]
  exact hall t ht

theorem suits_container : p.Suits (containerRule kind) i cs ↔ p.SuitsContainer kind i cs := by cases kind <;> rfl

theorem suits_body : p.Suits (bodyRule kind) i cs ↔ p.Within kind := by cases kind <;> rfl

theorem suits_next : p.Suits (nextRule kind) i cs ↔ p.Within kind := by cases kind <;> rfl

theorem suits_entry (h : p.Within kind) : p.Suits (entryRule kind) 0 cs := by
  cases kind with
  | object => exact h
  | array => exact Or.inl h.takes

/-- A test of words hands over silent actions only. -/
theorem silent_tests {m : Matcher Rule} (hm : ∀ t ∈ rule? m, t ∈ lexical) (n : Nat) (here : Cursor) :
    AllSilent (tests n m here).2 :=
  AllSilent.closed.tests AllSilent.keeps n hm here

/-- A row that tests a word: nothing counts but its action. -/
theorem RowSuits.word (hm : ∀ t ∈ rule? row.matcher, t ∈ lexical)
    (hfail : ∀ {p : Place} {cs : List Char} (j : Nat), row.onFail = .row j → p.Suits t i cs → p.Suits t j cs)
    (hgo : ∀ {p : Place} {cs : List Char} (r : List Char) (o o' j : Nat), row.onMatch = .row j → p.Suits t i cs →
      ∃ q, follow (row.notes (.text o cs) (.text o' r)) p = some q ∧ q.Suits t j r) : RowSuits t i row where
  opens ht' _ := suits_lexical (hm _ (mem_rule?_of_opens ht')) ..
  round {p t' n min o o' max cs r tr} hmatcher hreads _ := by
    have ht' : t' ∈ lexical := hm _ (mem_rule?_of_opens (Or.inr (Or.inr ⟨min, max, hmatcher⟩)))
    have hsilent := AllSilent.reads n ht' (.text o cs)
    rw [hreads] at hsilent
    exact ⟨p, hsilent.follow_eq p, suits_lexical ht' ..⟩
  fail {p n j o cs tr} hexit htest h := by
    have hsilent := silent_tests hm n (.text o cs)
    rw [htest] at hsilent
    exact ⟨p, hsilent.follow_eq p, hfail j hexit h⟩
  go {p n j o o' cs r tr} hexit htest h := by
    have hsilent := silent_tests hm n (.text o cs)
    rw [htest] at hsilent
    obtain ⟨q, hq, hsuits⟩ := hgo r o o' j hexit h
    exact ⟨q, by rw [follow_append, hsilent.follow_eq p, Option.bind_some, hq], hsuits⟩

/-- A row that opens a table and ends its own. -/
theorem RowSuits.last {t' : Rule} (hm : row.matcher = .table t') (hfail : row.onFail = .leave)
    (hgo : row.onMatch = .leave) (hopens : ∀ {p : Place} {cs : List Char}, p.Suits t i cs → p.Suits t' 0 cs) :
    RowSuits t i row where
  opens ht' h := by
    rw [hm] at ht'
    obtain rfl : _ = t' := by simpa [Matcher.Opens, eq_comm] using ht'
    exact hopens h
  round hrepeat := by simp [hm] at hrepeat
  fail hexit := by simp [hfail] at hexit
  go hexit := by simp [hgo] at hexit

/-! ### Tables -/

theorem rowSuits_lexical (ht : t ∈ lexical) (hrow : (rows t)[i]? = some row) : RowSuits t i row := by
  have hmem := List.mem_of_getElem? hrow
  have hnotes {here next : Cursor} : AllSilent (row.notes here next) := by
    have haction : ∀ t ∈ lexical, ∀ row ∈ rows t, ∀ a ∈ row.action, a ∈ silent := by decide
    exact forall_notes (haction t ht row hmem) here next
  exact .word (AllSilent.keeps t ht row hmem).1 (fun j _ _ => suits_lexical ht ..)
    fun r o o' j _ _ => ⟨_, hnotes.follow_eq _, suits_lexical ht ..⟩

/-- A row for a scalar leads on to the next row. -/
theorem rowSuits_scalar {m : Matcher Rule} {a : Action} (hm : ∀ t ∈ rule? m, t ∈ lexical) (hi : i < 6) :
    RowSuits .value i { matcher := m, onFail := .row (i + 1), status := .accept, action := some a } := by
  refine .word hm (fun j hexit h => ?_) (by simp)
  obtain rfl := Exit.row.inj hexit
  exact Or.inl (h.resolve_right fun hlast => by omega)

theorem rowSuits_value (hrow : (rows .value)[i]? = some row) : RowSuits .value i row := by
  rcases i with _ | _ | _ | _ | _ | _ | _ | i
  iterate 5
    · obtain rfl := Option.some.inj hrow
      exact rowSuits_scalar (by decide) (by decide)
  · -- an object that has come to nothing may have left its traces
    obtain rfl := Option.some.inj hrow
    refine { opens := fun ht' h => ?_, round := fun hm => by simp at hm,
             fail := fun {p n j o cs tr} hexit htest h => ?_, go := fun hexit => by simp at hexit }
    · obtain rfl := Option.some.inj (mem_rule?_of_opens ht')
      exact ⟨fun _ => Or.inl (h.resolve_right (by simp)), by simp⟩
    · obtain rfl := Exit.row.inj hexit
      have hp : p.Takes := h.resolve_right (by simp)
      have hreads : reads n (containerRule .object) (.text o cs) = (.mismatch, tr) := htest
      by_cases hlacks : Lacks .object cs
      · have hsilent := silent_container (o := o) n .object hlacks
        rw [hreads] at hsilent
        exact ⟨p, hsilent.follow_eq p, Or.inl hp⟩
      · obtain ⟨q, hq⟩ := (lawful n).container .object hp o cs
        rw [hreads] at hq
        exact ⟨q, hq, Or.inr ⟨rfl, stops_array hlacks⟩⟩
  · obtain rfl := Option.some.inj hrow
    exact .last rfl rfl rfl fun h => ⟨fun _ => h.imp_right And.right, by simp⟩
  · simp [rows] at hrow

theorem rowSuits_member (hrow : (rows .member)[i]? = some row) : RowSuits .member i row := by
  rcases i with _ | _ | _ | i
  · obtain rfl := Option.some.inj hrow
    refine .word (by decide) (by simp) fun r o o' j hexit h => ?_
    obtain rfl := Exit.row.inj hexit
    exact ⟨_, congrArg (Option.bind · some) (step_name h), takes_named _⟩
  · obtain rfl := Option.some.inj hrow
    refine .word (by decide) (by simp) fun r o o' j hexit h => ?_
    obtain rfl := Exit.row.inj hexit
    exact ⟨_, rfl, h⟩
  · obtain rfl := Option.some.inj hrow
    exact .last rfl rfl rfl fun h => Or.inl h
  · simp [rows] at hrow

theorem rowSuits_next (kind : ContainerKind) (hrow : (rows (nextRule kind))[i]? = some row) :
    RowSuits (nextRule kind) i row := by
  have hrows : rows (nextRule kind) = [
      { matcher := .table .valueSeparator, onMatch := .row 1 },
      { matcher := .table (entryRule kind), status := .accept }] := by cases kind <;> rfl
  rw [hrows] at hrow
  rcases i with _ | _ | i
  · obtain rfl := Option.some.inj hrow
    exact .word (by decide) (by simp) fun r o o' j _ h => ⟨_, rfl, suits_next.2 (suits_next.1 h)⟩
  · obtain rfl := Option.some.inj hrow
    exact .last rfl rfl rfl fun h => suits_entry (suits_next.1 h)
  · simp at hrow

theorem rowSuits_body (kind : ContainerKind) (hrow : (rows (bodyRule kind))[i]? = some row) :
    RowSuits (bodyRule kind) i row := by
  have hrows : rows (bodyRule kind) = [
      { matcher := .table (entryRule kind), onMatch := .row 1 },
      { matcher := .repeatTable (nextRule kind) 0 none, status := .accept }] := by cases kind <;> rfl
  rw [hrows] at hrow
  rcases i with _ | _ | i
  · obtain rfl := Option.some.inj hrow
    refine { opens := fun ht' h => ?_, round := fun hm => by simp at hm, fail := fun hexit => by simp at hexit,
             go := fun {p n j o o' cs r tr} hexit htest h => ?_ }
    · obtain rfl := Option.some.inj (mem_rule?_of_opens ht')
      exact suits_entry (suits_body.1 h)
    · have hp := suits_body.1 h
      obtain ⟨label, t, -, rfl⟩ := (sound n).entry kind htest
      refine ⟨p, ?_, suits_body.2 hp⟩
      rw [follow_append, label.places _ _ (t.places _) hp]
      rfl
  · obtain rfl := Option.some.inj hrow
    refine { opens := fun ht' h => ?_, round := fun {p t' n min o o' max cs r tr} hm hreads h => ?_,
             fail := fun hexit => by simp at hexit, go := fun hexit => by simp at hexit }
    · obtain rfl := Option.some.inj (mem_rule?_of_opens ht')
      exact suits_next.2 (suits_body.1 h)
    · obtain ⟨rfl, -, -⟩ := Matcher.repeatTable.inj hm
      have hp := suits_next.1 h
      obtain ⟨comma, label, t, -, rfl⟩ := (sound n).next kind hreads
      exact ⟨p, label.places _ _ (t.places _) hp, suits_next.2 hp⟩
  · simp at hrow

theorem rowSuits_container (kind : ContainerKind) (hrow : (rows (containerRule kind))[i]? = some row) :
    RowSuits (containerRule kind) i row := by
  have hrows : rows (containerRule kind) = [
      { matcher := .table (openRule kind), onMatch := .row 1, action := some (Action.opens kind) },
      { matcher := .optTable (bodyRule kind), onMatch := .row 2 },
      { matcher := .table (closeRule kind), status := .accept, action := some (Action.closes kind) }] := by
    cases kind <;> rfl
  have hopen : openRule kind ∈ lexical := by cases kind <;> decide
  have hclose : closeRule kind ∈ lexical := by cases kind <;> decide
  rw [hrows] at hrow
  rcases i with _ | _ | _ | i
  · -- what has matched is the opening character
    obtain rfl := Option.some.inj hrow
    refine { opens := fun ht' _ => ?_, round := fun hm => by simp at hm, fail := fun hexit => by simp at hexit,
             go := fun {p n j o o' cs r tr} hexit htest h => ?_ }
    · obtain rfl := Option.some.inj (mem_rule?_of_opens ht')
      exact suits_lexical hopen ..
    · obtain rfl := Exit.row.inj hexit
      obtain ⟨_, r, rfl, ⟨a, rfl⟩, -, rfl⟩ := ((marks_open kind).lexes n).word htest
      have hp : p.Takes := by
        refine ((suits_container.1 h).1 rfl).resolve_right fun hlacks => ?_
        rw [Lacks, Around.skip_text_append a (marks_open kind).1] at hlacks
        simpa using hlacks _ rfl
      exact ⟨p.inside kind, congrArg (Option.bind · some) (step_opens hp),
        suits_container.2 ⟨by simp, fun _ => within_inside kind p⟩⟩
  · obtain rfl := Option.some.inj hrow
    refine { opens := fun ht' h => ?_, round := fun hm => by simp at hm, fail := fun hexit => by simp at hexit,
             go := fun {p n j o o' cs r tr} hexit htest h => ?_ }
    · obtain rfl := Option.some.inj (mem_rule?_of_opens ht')
      exact suits_body.2 ((suits_container.1 h).2 rfl)
    · obtain rfl := Exit.row.inj hexit
      have hbody : Legal (tests n (.optTable (bodyRule kind)) (.text o cs)).2 p := by
        rw [tests_optTable]
        exact legal_orElse ((lawful n).body ((suits_container.1 h).2 rfl) o cs) fun _ _ q _ => ⟨q, rfl⟩
      rw [htest] at hbody
      obtain ⟨q, hq⟩ := hbody
      exact ⟨q, by rw [Row.notes, List.append_nil, hq], suits_container.2 ⟨by simp, by simp⟩⟩
  · obtain rfl := Option.some.inj hrow
    exact .last rfl rfl rfl fun _ => suits_lexical hclose ..
  · simp at hrow

theorem rowSuits_jsonText (hrow : (rows .jsonText)[i]? = some row) : RowSuits .jsonText i row := by
  have hlater {p : Place} {j : Nat} {cs : List Char} (hj : 2 < j) : p.Suits .jsonText j cs := fun _ => by omega
  rcases i with _ | _ | _ | _ | _ | _ | i
  · obtain rfl := Option.some.inj hrow
    refine .word (by decide) (by simp) fun r o o' j hexit h => ⟨_, rfl, fun _ => h (by decide)⟩
  · obtain rfl := Option.some.inj hrow
    refine .word (by decide) (by simp) fun r o o' j hexit h => ⟨_, rfl, fun _ => h (by decide)⟩
  · obtain rfl := Option.some.inj hrow
    have hvalue {p : Place} {cs : List Char} (h : p.Suits .jsonText 2 cs) (n o : Nat) :
        p.Takes ∧ Legal (reads n .value (.text o cs)).2 p := by
      obtain rfl := h (Nat.le_refl _)
      exact ⟨Or.inl rfl, (lawful n).value (Or.inl rfl) o cs⟩
    refine { opens := fun ht' h => ?_, round := fun hm => by simp at hm,
             fail := fun {p n j o cs tr} hexit htest h => ?_, go := fun {p n j o o' cs r tr} hexit htest h => ?_ }
    · obtain rfl := Option.some.inj (mem_rule?_of_opens ht')
      exact Or.inl (hvalue h 0 0).1
    · obtain rfl := Exit.row.inj hexit
      obtain ⟨-, q, hq⟩ := hvalue h n o
      rw [show reads n .value (.text o cs) = (.mismatch, tr) from htest] at hq
      exact ⟨q, hq, hlater (by decide)⟩
    · obtain rfl := Exit.row.inj hexit
      obtain ⟨-, q, hq⟩ := hvalue h n o
      rw [show reads n .value (.text o cs) = _ from htest] at hq
      exact ⟨q, by rw [Row.notes, List.append_nil, hq], hlater (by decide)⟩
  · obtain rfl := Option.some.inj hrow
    refine .word (by decide) (by simp) fun r o o' j hexit h => ?_
    obtain rfl := Exit.row.inj hexit
    exact ⟨_, rfl, hlater (by decide)⟩
  · obtain rfl := Option.some.inj hrow
    exact .word (by decide) (by simp) (by simp)
  · obtain rfl := Option.some.inj hrow
    exact .word (by decide) (by simp) (by simp)
  · simp [rows] at hrow

/-- The steps from any row lead from where a walk may be to where it may be. -/
theorem rowSuits (hrow : (rows t)[i]? = some row) : RowSuits t i row := by
  by_cases ht : t ∈ lexical
  · exact rowSuits_lexical ht hrow
  · cases t with
    | jsonText => exact rowSuits_jsonText hrow
    | value => exact rowSuits_value hrow
    | member => exact rowSuits_member hrow
    | nextMember => exact rowSuits_next .object hrow
    | nextValue => exact rowSuits_next .array hrow
    | objectBody => exact rowSuits_body .object hrow
    | arrayBody => exact rowSuits_body .array hrow
    | object => exact rowSuits_container .object hrow
    | array => exact rowSuits_container .array hrow
    | _ => exact absurd (by decide) ht

end Rows

end TableJson.Grammar
