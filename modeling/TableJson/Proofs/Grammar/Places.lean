import TableJson.Proofs.Grammar.Inner

/-!
# Places — where in a document an action may come

A `Place` is what has to be known of a reading to tell which action may come next: the containers that are open, and
whether a value is due.  `Place.step` moves from one to the next, and has no answer where a value, a name or the end of
a container cannot come.

* `Tree.places`: the actions of a tree lead from where a value may come to where it has come.
* `legal_reading`: whatever the text, and however its walk ends, every action of the walk comes where it may.  What was
  handed over for an alternative that was given up is followed by silent actions only.
-/

namespace TableJson.Grammar

open Machine Utf8 Scan

/-- The open containers, innermost first, and whether a value is due: the one of the document, or of the member whose
name has been read.  In an array a value may always come. -/
structure Place where
  opened : List ContainerKind := []
  due : Bool := true
deriving DecidableEq

namespace Place

/-- A value may come here. -/
def Takes (p : Place) : Prop := p.due = true ∨ p.opened.head? = some .array

instance (p : Place) : Decidable p.Takes := inferInstanceAs (Decidable (_ ∨ _))

/-- Right inside of a container, between two entries. -/
def Within (kind : ContainerKind) (p : Place) : Prop := p.opened.head? = some kind ∧ p.due = false

instance (kind : ContainerKind) (p : Place) : Decidable (p.Within kind) := inferInstanceAs (Decidable (_ ∧ _))

/-- After a value. -/
def settled (p : Place) : Place := { p with due := false }

/-- Inside of a container that starts here. -/
def inside (kind : ContainerKind) (p : Place) : Place := ⟨kind :: p.opened, false⟩

/-- After the name of a member. -/
def named (p : Place) : Place := { p with due := true }

/-- Where an action leads to, if it may come here. -/
def step (a : Action) (p : Place) : Option Place :=
  match a with
  | .falseValue | .nullValue | .trueValue | .numberValue | .stringValue => if p.Takes then some p.settled else none
  | .beginMember => if p.Within .object then some p.named else none
  | .beginObject => if p.Takes then some (p.inside .object) else none
  | .beginArray => if p.Takes then some (p.inside .array) else none
  | .endObject => if p.Within .object then some ⟨p.opened.tail, false⟩ else none
  | .endArray => if p.Within .array then some ⟨p.opened.tail, false⟩ else none
  | _ => some p

/-- Where actions lead to, one after another. -/
def follow : List (Action × Match) → Place → Option Place
  | [], p => some p
  | (a, _) :: tr, p => (p.step a).bind (follow tr)

section Moves

variable {p : Place} {kind : ContainerKind} (as bs : List (Action × Match))

theorem follow_append : follow (as ++ bs) p = (follow as p).bind (follow bs) := by
  induction as generalizing p with
  | nil => rfl
  | cons a as ih =>
    rw [List.cons_append, follow, follow, Option.bind_assoc]
    exact Option.bind_congr fun q _ => ih

theorem step_opens (h : p.Takes) : p.step (.opens kind) = some (p.inside kind) := by
  cases kind <;> exact if_pos h

theorem step_closes (h : p.Within kind) : p.step (.closes kind) = some ⟨p.opened.tail, false⟩ := by
  cases kind <;> exact if_pos h

theorem step_name (h : p.Within .object) : p.step .beginMember = some p.named := if_pos h

theorem Within.takes (h : p.Within .array) : p.Takes := Or.inr h.1

theorem Within.settled (h : p.Within kind) : p.settled = p := by
  obtain ⟨opened, due⟩ := p
  rw [Place.settled, ← h.2]

theorem takes_named (p : Place) : p.named.Takes := Or.inl rfl

theorem within_inside (kind : ContainerKind) (p : Place) : (p.inside kind).Within kind := ⟨rfl, rfl⟩

end Moves

end Place

open Place

/-! ## Trees -/

/-- The actions of an entry lead back to where they started, if those of its value lead on as they should. -/
theorem Label.places {kind : ContainerKind} (label : Label kind) (o : Nat) (entry : List Char)
    {inner : List (Action × Match)} (h : ∀ p : Place, p.Takes → follow inner p = some p.settled) {p : Place}
    (hp : p.Within kind) : follow (label.trace o entry inner) p = some p := by
  cases label with
  | item =>
    have := h p hp.takes
    rwa [hp.settled] at this
  | member name colon =>
    rw [Label.trace, follow, step_name hp, Option.bind_some, follow_append, h _ (takes_named p)]
    exact congrArg some hp.settled

mutual

/-- The actions of a tree lead from where a value may come to where it has come. -/
theorem Tree.places : ∀ (t : Tree) (o : Nat) (p : Place), p.Takes → follow (t.trace o) p = some p.settled
  | .null, _, _, hp => congrArg (Option.bind · some) (if_pos hp)
  | .boolean true, _, _, hp => congrArg (Option.bind · some) (if_pos hp)
  | .boolean false, _, _, hp => congrArg (Option.bind · some) (if_pos hp)
  | .number _, _, _, hp => congrArg (Option.bind · some) (if_pos hp)
  | .string _, _, _, hp => congrArg (Option.bind · some) (if_pos hp)
  | .container kind opening body closing, o, p, hp => by
    have hbody := Body.places body (o + size (opening.text (openChar kind))) (p.inside kind) (within_inside kind p)
    have hopened : follow (Tree.trace (.container kind opening body closing) o) p =
        (some (p.inside kind)).bind (follow (body.trace (o + size (opening.text (openChar kind))) ++ _)) :=
      congrArg (Option.bind · _) (step_opens hp)
    rw [hopened, Option.bind_some, follow_append, hbody, Option.bind_some, follow, step_closes (within_inside kind p)]
    rfl

theorem Body.places : ∀ {kind : ContainerKind} (body : Body kind) (o : Nat) (p : Place), p.Within kind →
    follow (body.trace o) p = some p
  | .array, .empty _, _, _, _ => rfl
  | .object, .empty _, _, _, _ => rfl
  | _, .entries label first rest, o, p, hp => by
    rw [Body.trace, follow_append, label.places _ _ (Tree.places first _) hp]
    exact Rest.places rest _ p hp

theorem Rest.places : ∀ {kind : ContainerKind} (rest : Rest kind) (o : Nat) (p : Place), p.Within kind →
    follow (rest.trace o) p = some p
  | _, .nil _, _, _, _ => rfl
  | _, .cons comma label entry rest, o, p, hp => by
    rw [Rest.trace, follow_append, label.places _ _ (Tree.places entry _) hp]
    exact Rest.places rest _ p hp

end

/-! ## Silent actions -/

/-- The actions that may come anywhere and lead nowhere. -/
def silent : List Action :=
  [.beginJson, .successEndJson, .failedEndJson, .numberSign, .numberIntegral, .numberFrac, .numberExp, .malformedNumber,
    .endMember]

/-- Silent actions only. -/
def AllSilent (tr : List (Action × Match)) : Prop := ∀ q ∈ tr, q.1 ∈ silent

/-- The tables of the words, which open only one another. -/
def lexical : List Rule :=
  [.exp, .frac, .decimal, .int, .number, .beginArray, .endArray, .beginObject, .endObject, .nameSeparator,
    .valueSeparator, .unescaped, .unicode, .escapedChar, .escaped, .char, .string]

theorem step_of_silent {a : Action} (ha : a ∈ silent) (p : Place) : p.step a = some p := by
  have hall : ∀ b ∈ silent, ∀ opened due, step b ⟨opened, due⟩ = some ⟨opened, due⟩ := by
    simp [silent, step]
  exact hall a ha p.opened p.due

namespace AllSilent

variable {tr tr' : List (Action × Match)}

theorem nil : AllSilent [] := fun _ h => absurd h List.not_mem_nil

theorem append (h : AllSilent tr) (h' : AllSilent tr') : AllSilent (tr ++ tr') :=
  fun q hq => (List.mem_append.1 hq).elim (h q) (h' q)

/-- Silent actions lead nowhere. -/
theorem follow_eq (h : AllSilent tr) (p : Place) : follow tr p = some p := by
  induction tr with
  | nil => rfl
  | cons q tr ih =>
    rw [follow, step_of_silent (h q (List.mem_cons_self ..)) p, Option.bind_some]
    exact ih fun r hr => h r (List.mem_cons_of_mem _ hr)

theorem closed : Closed (AllSilent ·.2) where
  done _ := nil
  fork {x g f} hx hf hg := by
    rcases x with ⟨next | _ | _ | _, tr⟩
    · exact hx.append (hf next)
    · exact hx.append hg
    · exact hx
    · exact hx

theorem keeps (t : Rule) (ht : t ∈ lexical) :
    ∀ row ∈ rows t, (∀ t ∈ rule? row.matcher, t ∈ lexical) ∧ RowKeeps (AllSilent ·.2) row := by
  have hrows : ∀ t ∈ lexical, ∀ row ∈ rows t,
      (∀ t ∈ rule? row.matcher, t ∈ lexical) ∧ ∀ a ∈ row.action, a ∈ silent := by decide
  intro row hrow
  obtain ⟨hmatcher, haction⟩ := hrows t ht row hrow
  exact ⟨hmatcher, fun _ here next _ => forall_notes haction here next,
    fun here next _ _ hx => AllSilent.append (forall_notes haction here next) hx⟩

/-- The tables of the words hand over silent actions only. -/
theorem reads (n : Nat) {t : Rule} (ht : t ∈ lexical) (here : Cursor) : AllSilent (reads n t here).2 :=
  closed.reads keeps n ht here

end AllSilent

/-! ## Walks, however they end -/

/-- Every action comes where it may. -/
def Legal (tr : List (Action × Match)) (p : Place) : Prop := ∃ q, follow tr p = some q

section Legal

variable {x y g : Machine.Scan (Action × Match)} {f : Cursor → Machine.Scan (Action × Match)}
  {tr tr' : List (Action × Match)} {p q : Place} {a : Action} {here : Cursor}

theorem AllSilent.legal (h : AllSilent tr) (p : Place) : Legal tr p := ⟨p, h.follow_eq p⟩

theorem Legal.append (h : follow tr p = some q) (h' : Legal tr' q) : Legal (tr ++ tr') p := by
  obtain ⟨r, hr⟩ := h'
  exact ⟨r, by rw [follow_append, h, Option.bind_some, hr]⟩

theorem legal_fork (hx : Legal x.2 p)
    (hf : ∀ next tr, x = (.matched next, tr) → ∀ q, follow tr p = some q → Legal (f next).2 q)
    (hg : ∀ tr, x = (.mismatch, tr) → ∀ q, follow tr p = some q → Legal g.2 q) : Legal (x.fork f g).2 p := by
  obtain ⟨q, hq⟩ := hx
  rcases x with ⟨next | _ | _ | _, tr⟩
  · exact .append hq (hf next tr rfl q hq)
  · exact .append hq (hg tr rfl q hq)
  · exact ⟨q, hq⟩
  · exact ⟨q, hq⟩

theorem legal_andThen (hx : Legal x.2 p)
    (hf : ∀ next tr, x = (.matched next, tr) → ∀ q, follow tr p = some q → Legal (f next).2 q) :
    Legal (x.andThen f).2 p :=
  legal_fork hx hf fun _ _ q _ => ⟨q, rfl⟩

theorem legal_orElse (hx : Legal x.2 p) (hy : ∀ tr, x = (.mismatch, tr) → ∀ q, follow tr p = some q → Legal y.2 q) :
    Legal (x.orElse y).2 p :=
  legal_fork hx (fun _ _ _ q _ => ⟨q, rfl⟩) hy

/-- After a word that is found. -/
theorem legal_word {P : List Char → Prop} {w : Cursor → Machine.Scan (Action × Match)} (hw : Lexes w P) {o : Nat}
    {cs : List Char} (hsilent : AllSilent (w (.text o cs)).2) (hf : ∀ o r, Legal (f (.text o r)).2 p) :
    Legal ((w (.text o cs)).andThen f).2 p := by
  refine legal_andThen (hsilent.legal p) fun next tr h q hq => ?_
  obtain ⟨_, r, -, -, rfl, rfl⟩ := hw.word h
  obtain rfl := Option.some.inj hq
  exact hf _ r

/-- An action that may come after what is found. -/
theorem legal_noted (hx : Legal x.2 p) (ha : ∀ next tr, x = (.matched next, tr) → ∀ q, follow tr p = some q →
    Legal [(a, .between here next)] q) : Legal (noted a here x).2 p :=
  legal_andThen hx ha

/-- A scalar, or else something else. -/
theorem legal_scalar (hx : AllSilent x.2) (ha : p.step a = some p.settled) (hy : Legal y.2 p) :
    Legal ((noted a here x).orElse y).2 p := by
  have hnoted : Legal (noted a here x).2 p := by
    refine legal_noted (hx.legal p) fun next tr h q hq => ?_
    rw [h] at hx
    obtain rfl := Option.some.inj ((hx.follow_eq p).symm.trans hq)
    exact ⟨p.settled, congrArg (Option.bind · some) ha⟩
  refine legal_orElse hnoted fun tr h q hq => ?_
  rw [noted_eq_mismatch.1 h] at hx
  obtain rfl := Option.some.inj ((hx.follow_eq p).symm.trans hq)
  exact hy

theorem legal_repeatScan {walk : Cursor → Machine.Scan (Action × Match)}
    (h : ∀ o cs, Legal (walk (.text o cs)).2 p)
    (hmatched : ∀ o cs next tr, walk (.text o cs) = (.matched next, tr) →
      (∃ o r, next = .text o r) ∧ follow tr p = some p)
    (ahead : List UInt8) (count o : Nat) (cs : List Char) :
    Legal (repeatScan 0 none walk ahead count (.text o cs)).2 p := by
  have hmax : belowMax none count = true := rfl
  induction ahead generalizing count o cs with
  | nil =>
    rw [repeatScan_eq, if_pos hmax]
    refine legal_fork (h o cs) (fun next tr hx q _ => ?_) fun _ _ q _ => ⟨q, rfl⟩
    rw [ite_self]
    exact ⟨q, rfl⟩
  | cons b ahead ih =>
    rw [repeatScan_eq, if_pos hmax]
    refine legal_fork (h o cs) (fun next tr hx q hq => ?_) fun _ _ q _ => ⟨q, rfl⟩
    obtain ⟨⟨o', r, rfl⟩, htr⟩ := hmatched o cs next tr hx
    obtain rfl := Option.some.inj (hq.symm.trans htr)
    split
    · exact ⟨_, rfl⟩
    · exact ih (count + 1) o' r rfl

end Legal

/-- What is known of walks with at most `n` tables open: their actions come where they may, if they start where a value
or an entry may come. -/
structure Lawful (n : Nat) : Prop where
  value {p : Place} (hp : p.Takes) (o : Nat) (cs : List Char) : Legal (reads n .value (.text o cs)).2 p
  entry {kind : ContainerKind} {p : Place} (hp : p.Within kind) (o : Nat) (cs : List Char) :
    Legal (reads n (entryRule kind) (.text o cs)).2 p
  next {kind : ContainerKind} {p : Place} (hp : p.Within kind) (o : Nat) (cs : List Char) :
    Legal (reads n (nextRule kind) (.text o cs)).2 p
  body {kind : ContainerKind} {p : Place} (hp : p.Within kind) (o : Nat) (cs : List Char) :
    Legal (reads n (bodyRule kind) (.text o cs)).2 p
  container (kind : ContainerKind) {p : Place} (hp : p.Takes) (o : Nat) (cs : List Char) :
    Legal (reads n (containerRule kind) (.text o cs)).2 p

section Step

variable {n : Nat} {kind : ContainerKind} {p : Place} {o : Nat} {cs : List Char}

theorem silent_open (n : Nat) (kind : ContainerKind) (here : Cursor) : AllSilent (reads n (openRule kind) here).2 :=
  .reads n (by cases kind <;> decide) here

theorem silent_close (n : Nat) (kind : ContainerKind) (here : Cursor) : AllSilent (reads n (closeRule kind) here).2 :=
  .reads n (by cases kind <;> decide) here

/-- A container that does not start here hands over nothing that counts. -/
theorem silent_container (n : Nat) (kind : ContainerKind) (hcs : Stops (· == openChar kind) (skip cs)) :
    AllSilent (reads n (containerRule kind) (.text o cs)).2 := by
  cases n with
  | zero => exact .nil
  | succ n =>
    have hsilent := silent_open n kind (.text o cs)
    rw [reads_container]
    rcases hopen : reads n (openRule kind) (.text o cs) with ⟨next | _ | _ | _, tr⟩ <;> rw [hopen] at hsilent
    · obtain ⟨_, r, rfl, ⟨a, rfl⟩, -, -⟩ := ((marks_open kind).lexes n).word hopen
      rw [Around.skip_text_append a (marks_open kind).1] at hcs
      simpa using hcs _ rfl
    · exact hsilent.append .nil
    · exact hsilent
    · exact hsilent

/-- Where an object starts no array does. -/
theorem stops_array (h : ¬ Stops (· == openChar .object) cs) : Stops (· == openChar .array) cs := by
  intro c hc
  have hbrace : c = openChar .object := by
    refine Decidable.byContradiction fun hne => h fun d hd => ?_
    rw [Option.mem_unique hd hc]
    exact beq_eq_false_iff_ne.2 hne
  subst hbrace
  rfl

theorem Lawful.value_step (ih : Lawful n) (hp : p.Takes) (o : Nat) (cs : List Char) :
    Legal (reads (n + 1) .value (.text o cs)).2 p := by
  have hword (word : String) : AllSilent (tests n (.seq word) (.text o cs)).2 := .nil
  rw [reads_value]
  refine legal_scalar (hword _) (if_pos hp) (legal_scalar (hword _) (if_pos hp) ?_)
  refine legal_scalar (hword _) (if_pos hp) ?_
  refine legal_scalar (.reads n (by decide) _) (if_pos hp) ?_
  refine legal_scalar (.reads n (by decide) _) (if_pos hp) ?_
  refine legal_orElse (ih.container .object hp o cs) fun tr h q hq => ?_
  -- an object that has handed something over started with its brace, so that no array starts here
  by_cases hopen : Stops (· == openChar .object) (skip cs)
  · have hsilent := silent_container (o := o) n .object hopen
    rw [show reads n (containerRule .object) (.text o cs) = (.mismatch, tr) from h] at hsilent
    obtain rfl := Option.some.inj ((hsilent.follow_eq p).symm.trans hq)
    exact ih.container .array hp o cs
  · exact (silent_container n .array (stops_array hopen)).legal q

theorem Lawful.entry_step (ih : Lawful n) (hp : p.Within kind) (o : Nat) (cs : List Char) :
    Legal (reads (n + 1) (entryRule kind) (.text o cs)).2 p := by
  cases kind with
  | array => exact ih.value_step hp.takes o cs
  | object =>
    rw [entryRule, reads_member]
    refine legal_word (lexes_string n) (.reads n (by decide) _) fun o r => ?_
    refine .append (congrArg (Option.bind · some) (step_name hp)) ?_
    refine legal_word (marks_colon.lexes n) (.reads n (by decide) _) fun o r => ?_
    exact legal_noted (ih.value (takes_named p) o r) fun _ _ _ q _ => ⟨q, rfl⟩

theorem Lawful.next_step (ih : Lawful n) (hp : p.Within kind) (o : Nat) (cs : List Char) :
    Legal (reads (n + 1) (nextRule kind) (.text o cs)).2 p := by
  rw [reads_next]
  exact legal_word (marks_comma.lexes n) (.reads n (by decide) _) fun o r => ih.entry hp o r

theorem Lawful.body_step (ih : Lawful n) (hp : p.Within kind) (o : Nat) (cs : List Char) :
    Legal (reads (n + 1) (bodyRule kind) (.text o cs)).2 p := by
  rw [reads_body]
  refine legal_andThen (ih.entry hp o cs) fun next tr h q hq => ?_
  obtain ⟨label, t, ⟨r, -, rfl⟩, rfl⟩ := (sound n).entry kind h
  rw [label.places _ _ (t.places _) hp] at hq
  obtain rfl := Option.some.inj hq
  rw [tests_repeatTable]
  refine legal_repeatScan (fun o cs => ih.next hp o cs) (fun o cs next tr h => ?_) _ _ _ _
  obtain ⟨comma, label, t, ⟨r, -, rfl⟩, rfl⟩ := (sound n).next kind h
  exact ⟨⟨_, r, rfl⟩, label.places _ _ (t.places _) hp⟩

theorem Lawful.container_step (ih : Lawful n) (kind : ContainerKind) (hp : p.Takes) (o : Nat) (cs : List Char) :
    Legal (reads (n + 1) (containerRule kind) (.text o cs)).2 p := by
  by_cases hmatched : ∃ next, (reads (n + 1) (containerRule kind) (.text o cs)).1 = .matched next
  · -- a container that is complete has a tree
    obtain ⟨next, hnext⟩ := hmatched
    obtain ⟨opening, body, closing, -, htr⟩ := (sound (n + 1)).container kind (Prod.ext hnext rfl)
    have hplaces := (Tree.container kind opening body closing).places o p hp
    rw [← htr] at hplaces
    exact ⟨_, hplaces⟩
  · have hend : ∀ next, (reads (n + 1) (containerRule kind) (.text o cs)).1 ≠ .matched next :=
      fun next h => hmatched ⟨next, h⟩
    rw [reads_container] at hend ⊢
    refine legal_andThen ((silent_open n kind _).legal p) fun c tr h q hq => ?_
    obtain ⟨_, r, -, -, rfl, rfl⟩ := ((marks_open kind).lexes n).word h
    obtain rfl := Option.some.inj hq
    rw [h, andThen_matched] at hend
    refine .append (congrArg (Option.bind · some) (step_opens hp)) ?_
    have hbody (o : Nat) (cs : List Char) :
        Legal (tests n (.optTable (bodyRule kind)) (.text o cs)).2 (p.inside kind) := by
      rw [tests_optTable]
      exact legal_orElse (ih.body (within_inside kind p) o cs) fun _ _ q _ => ⟨q, rfl⟩
    refine legal_andThen (hbody _ r) fun d tr h q hq => ?_
    -- the end is missing, and so is its action
    refine legal_noted ((silent_close n kind d).legal q) fun next tr' h' _ _ => absurd ?_ (hend next)
    rw [h, andThen_matched, noted, h', andThen_matched]
    rfl

end Step

theorem lawful (n : Nat) : Lawful n := by
  induction n with
  | zero => exact ⟨fun _ _ _ => ⟨_, rfl⟩, fun _ _ _ => ⟨_, rfl⟩, fun _ _ _ => ⟨_, rfl⟩, fun _ _ _ => ⟨_, rfl⟩,
      fun _ _ _ _ _ => ⟨_, rfl⟩⟩
  | succ n ih => exact ⟨ih.value_step, ih.entry_step, ih.next_step, ih.body_step, fun kind => ih.container_step kind⟩

/-- Every action of a reading comes where it may, whatever the text. -/
theorem legal_reading (options : Options) (text : String) : Legal (reading options text).2 {} := by
  have hvalue (o : Nat) (cs : List Char) := (lawful (5 * options.maxDepth + 6)).value (p := {}) (Or.inl rfl) o cs
  have hsilent {a : Action} (ha : a ∈ silent) (m : Match) (q : Place) : Legal [(a, m)] q :=
    AllSilent.legal (by simpa [AllSilent] using ha) q
  have hblanks (here : Cursor) : AllSilent (tests (5 * options.maxDepth + 6) anyBlanks here).2 :=
    AllSilent.closed.tests AllSilent.keeps _ (by decide) here
  have hreading : reading options text = _ := reads_jsonText (5 * options.maxDepth + 6) (.text 0 text.toList)
  rw [hreading]
  refine .append (congrArg (Option.bind · some) (step_of_silent (by decide) _)) ?_
  refine legal_word (lexes_blanks _) (hblanks _) fun o r => ?_
  refine legal_fork (hvalue o r) (fun d tr _ q _ => ?_) fun tr _ q _ => hsilent (by decide) _ q
  refine legal_andThen ((hblanks d).legal q) fun e tr _ q _ => hsilent (by decide) _ q

end TableJson.Grammar
