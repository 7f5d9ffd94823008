import TableJson.Proofs.Grammar.Completeness
import TableJson.Proofs.Grammar.Reporting

/-!
# Spots — on the way to a number

A session that is handed the actions of a document comes to those of each number in it (`Tree.comes`), if all that
stands before the number is admitted and the consumer takes its events.

* `Passes`: some actions are taken, and do to a session what a front says.
* `Comes`: among the actions of a text are those of the number at a spot, and the ones before them pass.
-/

namespace TableJson.Grammar

open Machine Utf8

/-- What stands before a place is admitted, inside `depth` containers. -/
def Front.Admitted (options : Options) (depth : Nat) (f : Front) : Prop :=
  Admits options (depth + f.depth) f.literals f.strings

theorem admitted_append {options : Options} {depth : Nat} {f g : Front} :
    (f ++ g).Admitted options depth ↔ f.Admitted options depth ∧ g.Admitted options (depth + f.opened) := by
  have hdepth : depth + (f ++ g).depth = max (depth + f.depth) (depth + f.opened + g.depth) := by
    rw [Nat.add_assoc, Nat.add_max_add_left]
    rfl
  rw [Front.Admitted, hdepth]
  exact admits_append

section Spots

variable {σ : Type} (consume : Consumer σ) (options : Options) (total : Nat)

/-- The session `t` is what becomes of `s` by all that a front holds, with the consumer and the name that are then
pending. -/
structure Session.Passed (s t : Session σ) (f : Front) (c : σ) (name : String) : Prop where
  consumer : t.consumer = c
  memberName : t.memberName = name
  depth : t.depth = s.depth + f.opened
  failure : t.failure = s.failure
  ended : t.ended = s.ended

/-- A session with the name `name` pending takes the actions `tr`, if what the front holds is admitted and the consumer
takes its events.  Then the name `next` is pending. -/
def Passes (tr : List (Action × Match)) (f : Front) (name next : String) : Prop :=
  ∀ (s : Session σ) (c : σ), s.memberName = name → f.Admitted options s.depth →
    consume.feed f.events s.consumer = (c, true) →
    ∃ t, feed (Session.act consume options total) tr s = (t, true) ∧ s.Passed t f c next

/-- Among the actions `tr` of the text `cs`, which starts at the offset `o`, are those of the number at the spot, and
the ones before them pass. -/
def Comes (tr : List (Action × Match)) (o : Nat) (cs : List Char) (name : String) (spot : Spot) : Prop :=
  ∃ before m after rest, tr = before ++ (spot.literal.trace (o + size spot.front.text) ++ (.numberValue, m) :: after) ∧
    cs = spot.front.text ++ (spot.literal.text ++ rest) ∧
    Passes consume options total before spot.front name spot.name

variable {consume options total}
variable {tr tr' : List (Action × Match)} {o : Nat} {cs ds : List Char} {f g : Front} {name next last : String}
  {spot : Spot}

/-! ## Passing -/

theorem Passes.nil (cs : List Char) (name : String) : Passes consume options total [] { text := cs } name name := by
  intro s c hname _ hfeed
  exact ⟨s, rfl, (Prod.mk.inj hfeed).1, hname, rfl, rfl, rfl⟩

theorem Passes.append (hf : Passes consume options total tr f name next)
    (hg : Passes consume options total tr' g next last) :
    Passes consume options total (tr ++ tr') (f ++ g) name last := by
  intro s c hname hadmitted hfeed
  obtain ⟨hadmitted, hadmitted'⟩ := admitted_append.1 hadmitted
  have hevents : consume.feed (f.events ++ g.events) s.consumer = (c, true) := hfeed
  rw [Consumer.feed_append] at hevents
  rcases hfirst : consume.feed f.events s.consumer with ⟨c', _ | _⟩
  · rw [hfirst] at hevents
    cases (Prod.mk.inj hevents).2
  · rw [hfirst] at hevents
    obtain ⟨t, ht, hs⟩ := hf s c' hname hadmitted hfirst
    obtain ⟨u, hu, ht'⟩ := hg t c hs.memberName (hs.depth ▸ hadmitted') (hs.consumer ▸ hevents)
    refine ⟨u, ?_, ht'.consumer, ht'.memberName, ?_, ht'.failure.trans hs.failure, ht'.ended.trans hs.ended⟩
    · rw [feed_append, ht]
      exact hu
    · rw [ht'.depth, hs.depth, Nat.add_assoc]
      rfl

/-- What fits is taken, if the consumer takes its events. -/
theorem Reports.take {es : List Event} {fits : Prop} {s : Session σ} {final : σ → NumberParts → Session σ} {c : σ}
    (h : Reports consume options total tr es fits s final) (hfits : fits)
    (hfeed : consume.feed es s.consumer = (c, true)) :
    ∃ number, feed (Session.act consume options total) tr s = (final c number, true) := by
  rcases h with ⟨c', number, -, hes, htr⟩ | ⟨-, hes⟩
  · rw [hfeed] at hes
    obtain ⟨rfl, -⟩ := Prod.mk.inj hes
    exact ⟨number, htr⟩
  · have hrefused := hes hfits
    rw [hfeed] at hrefused
    cases hrefused

theorem passes_begin (m : Match) (cs : List Char) :
    Passes consume options total [(.beginJson, m)] { text := cs, events := [.beginJson] } "" "" := by
  intro s c hname _ hfeed
  have hbegin : Reports consume options total [(.beginJson, m)] [.beginJson] True s
      (fun c number => { s with consumer := c, number }) :=
    .deliver rfl rfl fun _ => rfl
  obtain ⟨number, htaken⟩ := hbegin.take trivial hfeed
  exact ⟨_, htaken, rfl, hname, rfl, rfl, rfl⟩

theorem passes_sign (m : Match) (name : String) :
    Passes consume options total [(.numberSign, m)] {} name name := by
  intro s c hname _ hfeed
  exact ⟨{ s with number := { s.number with sign := m } }, rfl, (Prod.mk.inj hfeed).1, hname, rfl, rfl, rfl⟩

theorem passes_open (kind : ContainerKind) (opening : Around) (name : String) (m m' : Match) :
    Passes consume options total [(.numberSign, m), (Action.opens kind, m')] (opening.front kind name) name "" := by
  have hopen : Passes consume options total [(Action.opens kind, m')] (opening.front kind name) name "" := by
    intro s c hname hadmitted hfeed
    rw [← hname] at hfeed
    obtain ⟨number, htaken⟩ := (reports_open hadmitted.depth_le m').take trivial hfeed
    exact ⟨_, htaken, consumer_inside .., memberName_inside .., depth_inside .., failure_inside ..,
      by cases kind <;> rfl⟩
  exact (passes_sign m name).append hopen

theorem passes_name (q : Quoted) (o : Nat) (cs : List Char) :
    Passes consume options total [(.beginMember, ⟨o, encode q.text⟩)] { text := cs, strings := [q] } "" q.value := by
  intro s c hname hadmitted hfeed
  have htext : decode? options ⟨o, encode q.text⟩ = some q.value :=
    (decode?_eq_some_iff options q o q.value).2
      ⟨hadmitted.paired.imp_right fun h => h q (List.mem_singleton_self q), rfl⟩
  refine ⟨{ s with memberName := q.value }, ?_, (Prod.mk.inj hfeed).1, rfl, rfl, rfl, rfl⟩
  simp only [feed, Session.act, htext]

theorem passes_entry {kind : ContainerKind} (label : Label kind) (t : Tree) (o o' : Nat) :
    Passes consume options total (label.trace o t.text (t.trace o')) (label.front ++ t.front label.name) "" "" := by
  intro s c hname hadmitted hfeed
  have hadmits : Admits options (s.depth + t.depth) t.literals (label.strings ++ t.strings) := by
    have hdepth : (label.front ++ t.front label.name).depth = t.depth := by
      change max 0 (0 + t.depth) = t.depth
      omega
    rw [Front.Admitted, hdepth] at hadmitted
    exact hadmitted
  have hreports : Reports consume options total (label.trace o t.text (t.trace o')) _ _ s _ :=
    reports_entry (fun s o => t.reports s o) label o o' s (Nat.le_trans (Nat.le_add_right ..) hadmits.depth_le) hname
  obtain ⟨number, htaken⟩ := hreports.take hadmits hfeed
  exact ⟨_, htaken, rfl, rfl, rfl, rfl, rfl⟩

/-! ## Coming to a number -/

/-- The number itself. -/
theorem comes_number (l : Literal) (o : Nat) (name : String) :
    Comes consume options total ((Tree.number l).trace o) o l.text name { name, literal := l } :=
  ⟨[], _, [], [], rfl, (List.append_nil _).symm, .nil [] name⟩

/-- With more after it. -/
theorem Comes.left (h : Comes consume options total tr o cs name spot) (tr' : List (Action × Match))
    (ds : List Char) : Comes consume options total (tr ++ tr') o (cs ++ ds) name spot := by
  obtain ⟨before, m, after, rest, rfl, rfl, hpasses⟩ := h
  exact ⟨before, m, after ++ tr', rest ++ ds, by simp, by simp, hpasses⟩

/-- With more before it. -/
theorem Comes.after (hf : Passes consume options total tr f name next)
    (h : Comes consume options total tr' (o + size f.text) cs next spot) :
    Comes consume options total (tr ++ tr') o (f.text ++ cs) name (spot.after f) := by
  obtain ⟨before, m, after, rest, rfl, rfl, hpasses⟩ := h
  refine ⟨tr ++ before, m, after, rest, ?_, ?_, hf.append hpasses⟩
  · change _ = (tr ++ before) ++ (spot.literal.trace (o + size (f.text ++ spot.front.text)) ++ (.numberValue, m) :: after)
    rw [List.append_assoc, size_append, Nat.add_assoc]
  · change f.text ++ (spot.front.text ++ (spot.literal.text ++ rest)) =
      (f.text ++ spot.front.text) ++ (spot.literal.text ++ rest)
    rw [List.append_assoc]

/-- The numbers of an entry of a container and of the entries after it. -/
theorem comes_entries {kind : ContainerKind} {label : Label kind} {t : Tree} {more : List Spot} (o : Nat)
    (ht : ∀ (o : Nat), ∀ spot ∈ t.spots label.name,
      Comes consume options total (t.trace o) o t.text label.name spot)
    (hmore : ∀ spot ∈ more, Comes consume options total tr (o + size (label.text ++ t.text)) cs "" spot) :
    ∀ spot ∈ label.spots (t.front label.name) (t.spots label.name) more,
      Comes consume options total (label.trace o t.text (t.trace (o + size label.text)) ++ tr) o
        (label.text ++ (t.text ++ cs)) "" spot := by
  intro spot hspot
  rw [← List.append_assoc]
  rcases List.mem_append.1 hspot with hspot | hspot
  · obtain ⟨spot, hmem, rfl⟩ := List.mem_map.1 hspot
    have hvalue := ht (o + size label.text) spot hmem
    cases label with
    | item => exact (Comes.after (.nil [] "") hvalue).left tr cs
    | member name colon =>
      have hmember := Comes.after (passes_name name o (Label.member name colon).text) hvalue
      have hended := hmember.left [(.endMember, ⟨o + size (Label.member name colon).text, encode t.text⟩)] []
      rw [List.append_nil] at hended
      exact hended.left tr cs
  · obtain ⟨spot, hmem, rfl⟩ := List.mem_map.1 hspot
    exact .after (passes_entry label t o (o + size label.text)) (hmore spot hmem)

mutual

/-- A session that is handed the actions of a tree comes to each of its numbers. -/
theorem Tree.comes : ∀ (t : Tree) (name : String) (o : Nat), ∀ spot ∈ t.spots name,
    Comes consume options total (t.trace o) o t.text name spot
  | .null, _, _, _, hspot => absurd hspot List.not_mem_nil
  | .boolean _, _, _, _, hspot => absurd hspot List.not_mem_nil
  | .string _, _, _, _, hspot => absurd hspot List.not_mem_nil
  | .number l, name, o, spot, hspot => by
    rw [List.mem_singleton.1 hspot]
    exact comes_number l o name
  | .container kind opening body closing, name, o, spot, hspot => by
    obtain ⟨spot, hmem, rfl⟩ := List.mem_map.1 hspot
    have hbody := Body.comes body (o + size (opening.text (openChar kind))) spot hmem
    exact .after (passes_open kind opening name _ _) (hbody.left _ _)

@[inherit_doc Tree.comes]
theorem Body.comes : ∀ {kind : ContainerKind} (body : Body kind) (o : Nat), ∀ spot ∈ body.spots,
    Comes consume options total (body.trace o) o body.text "" spot
  | _, .empty _, _, _, hspot => absurd hspot List.not_mem_nil
  | _, .entries label first rest, o, spot, hspot =>
    comes_entries o (Tree.comes first label.name) (Rest.comes rest _) spot hspot

@[inherit_doc Tree.comes]
theorem Rest.comes : ∀ {kind : ContainerKind} (rest : Rest kind) (o : Nat), ∀ spot ∈ rest.spots,
    Comes consume options total (rest.trace o) o rest.text "" spot
  | _, .nil _, _, _, hspot => absurd hspot List.not_mem_nil
  | _, .cons comma label entry rest, o, spot, hspot => by
    obtain ⟨spot, hmem, rfl⟩ := List.mem_map.1 hspot
    have hentries :=
      comes_entries (o + size (comma.text ',')) (Tree.comes entry label.name) (Rest.comes rest _) spot hmem
    have hcomma := Comes.after (.nil (comma.text ',') "") hentries
    simpa only [Rest.trace, Rest.text, size_append, Nat.add_assoc, List.append_assoc, List.nil_append] using hcomma

end

/-- A session that is handed the actions of a document comes to each of its numbers. -/
theorem Document.comes (d : Document) :
    ∀ spot ∈ d.spots, Comes consume options total d.trace 0 d.text "" spot := by
  intro spot hspot
  obtain ⟨spot, hmem, rfl⟩ := List.mem_map.1 hspot
  have htree : Comes consume options total (d.tree.trace (0 + size d.before.chars)) (0 + size d.before.chars)
      d.tree.text "" spot :=
    d.tree.comes "" _ spot hmem
  have hall := Comes.after (passes_begin ⟨0, []⟩ d.before.chars)
    (htree.left [(.successEndJson, ⟨size d.text, []⟩)] d.after.chars)
  rwa [Nat.zero_add] at hall

end Spots

/-! ## All numbers, and where they are -/

section Places

theorem map_literal_after (f : Front) (spots : List Spot) :
    (spots.map (.after f)).map Spot.literal = spots.map Spot.literal :=
  List.map_map

theorem map_literal_spots {kind : ContainerKind} (label : Label kind) (entry : Front) (inner rest : List Spot) :
    (label.spots entry inner rest).map Spot.literal = inner.map Spot.literal ++ rest.map Spot.literal := by
  rw [Label.spots, List.map_append, map_literal_after, map_literal_after]

mutual

/-- No number is left out. -/
theorem Tree.map_literal : ∀ (t : Tree) (name : String), (t.spots name).map Spot.literal = t.literals
  | .null, _ => rfl
  | .boolean _, _ => rfl
  | .string _, _ => rfl
  | .number _, _ => rfl
  | .container _ _ body _, _ => (map_literal_after ..).trans (Body.map_literal body)

@[inherit_doc Tree.map_literal]
theorem Body.map_literal : ∀ {kind : ContainerKind} (body : Body kind), body.spots.map Spot.literal = body.literals
  | _, .empty _ => rfl
  | _, .entries label first rest => by
    rw [Body.spots, map_literal_spots, Tree.map_literal first, Rest.map_literal rest, Body.literals]

@[inherit_doc Tree.map_literal]
theorem Rest.map_literal : ∀ {kind : ContainerKind} (rest : Rest kind), rest.spots.map Spot.literal = rest.literals
  | _, .nil _ => rfl
  | _, .cons comma label entry rest => by
    rw [Rest.spots, map_literal_after, map_literal_spots, Tree.map_literal entry, Rest.map_literal rest, Rest.literals]

end

theorem Document.map_literal (d : Document) : d.spots.map Spot.literal = d.tree.literals :=
  (map_literal_after ..).trans (d.tree.map_literal "")

/-- A text is cut in one way only before a character that is not blank, if what is cut off is known but for blanks. -/
theorem eq_of_bare_eq {cs ds as bs : List Char} (h : cs ++ as = ds ++ bs) (hbare : bare cs = bare ds)
    (has : Stops isBlank as) (hbs : Stops isBlank bs) : cs = ds := by
  -- between two cuts there would be blanks only, and no blank starts there
  have hnothing {cs more tail : List Char} (hbare : bare cs = bare (cs ++ more))
      (hstops : Stops isBlank (more ++ tail)) : more = [] := by
    cases more with
    | nil => rfl
    | cons c more =>
      have hkept : bare (c :: more) = c :: bare more := List.filter_cons_of_pos (by rw [hstops c rfl]; rfl)
      have hlength := congrArg List.length hbare
      rw [bare_append, hkept, List.length_append, List.length_cons] at hlength
      omega
  rcases List.append_eq_append_iff.1 h with ⟨more, rfl, rfl⟩ | ⟨more, rfl, rfl⟩
  · rw [hnothing hbare has, List.append_nil]
  · rw [hnothing hbare.symm hbs, List.append_nil]

/-- A number stands in the text where its spot says. -/
theorem Document.text_of_mem_spots {d : Document} {spot : Spot} (h : spot ∈ d.spots) :
    ∃ rest, d.text = spot.front.text ++ (spot.literal.text ++ rest) := by
  have hcomes : Comes Consumer.indifferent {} 0 d.trace 0 d.text "" spot := d.comes spot h
  obtain ⟨-, -, -, rest, -, htext, -⟩ := hcomes
  exact ⟨rest, htext⟩

/-- Documents of one text that are alike have their numbers in the same places. -/
theorem mem_spots_of_alike {d e : Document} (htext : e.text = d.text) (halike : e.tree.Alike d.tree) {spot : Spot}
    (hspot : spot ∈ d.spots) : spot ∈ e.spots := by
  have hbare : e.spots.map Spot.bare = d.spots.map Spot.bare := by
    have hfront : (Front.mk e.before.chars [.beginJson] 0 0 [] []).bare =
        (Front.mk d.before.chars [.beginJson] 0 0 [] []).bare := by
      simp only [Front.bare, bare_blanks]
    rw [Document.spots, Document.spots, map_bare_after, map_bare_after, hfront, halike.spots]
  obtain ⟨spot', hspot', heq⟩ : ∃ spot' ∈ e.spots, spot'.bare = spot.bare := by
    have hmem : spot.bare ∈ e.spots.map Spot.bare := by
      rw [hbare]
      exact List.mem_map_of_mem hspot
    exact List.mem_map.1 hmem
  obtain ⟨rest, hd⟩ := d.text_of_mem_spots hspot
  obtain ⟨rest', he⟩ := e.text_of_mem_spots hspot'
  obtain ⟨front, name, l⟩ := spot
  obtain ⟨front', name', l'⟩ := spot'
  obtain ⟨hfront, rfl, rfl⟩ := Spot.mk.inj heq
  have hblank (r : List Char) : Stops isBlank (l'.text ++ r) := l'.stops rfl (fun _ => not_blank_of_digit) r
  have hcut : front'.text = front.text :=
    eq_of_bare_eq (he.symm.trans (htext.trans hd)) (congrArg Front.text hfront) (hblank rest') (hblank rest)
  have heq : front' = front := by
    obtain ⟨cs, events, depth, opened, literals, strings⟩ := front
    obtain ⟨cs', events', depth', opened', literals', strings'⟩ := front'
    obtain ⟨-, rfl, rfl, rfl, rfl, rfl⟩ := Front.mk.inj hfront
    obtain rfl : cs' = cs := hcut
    rfl
  rwa [← heq]

end Places

end TableJson.Grammar
