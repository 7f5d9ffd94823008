import TableJson.Proofs.Grammar.Numbers
import TableJson.Proofs.Grammar.Strings
import TableJson.Proofs.Grammar.Tree

/-!
# Reporting — the events of a tree

A session that is handed the trace of a tree reports the events of the tree, unless the tree does not fit the options or
the consumer refuses an event (`Tree.reports`).

* `Fits`: containers nest no deeper than they may, every literal is representable, and no surrogate is unpaired unless
  it may be replaced.
* `Reports` relates what a session does to what a consumer does: both go on to the end, or both are stopped.
-/

namespace TableJson

/-- Hands events to a consumer one after another, until one is refused. -/
def Consumer.feed {σ : Type} (consume : Consumer σ) : List Event → σ → σ × Bool
  | [], c => (c, true)
  | e :: es, c =>
    match consume e c with
    | (c, true) => feed consume es c
    | (c, false) => (c, false)

theorem Consumer.feed_append {σ : Type} (consume : Consumer σ) (es fs : List Event) (c : σ) :
    consume.feed (es ++ fs) c =
      match consume.feed es c with
      | (c, true) => consume.feed fs c
      | refused => refused := by
  induction es generalizing c with
  | nil => rfl
  | cons e es ih =>
    simp only [List.cons_append, feed]
    rcases consume e c with ⟨c', _ | _⟩
    · rfl
    · exact ih _

namespace Grammar

open Machine Utf8

/-! ## What the options admit -/

/-- Containers down to a depth, literals and strings that a reading takes. -/
structure Admits (options : Options) (depth : Nat) (literals : List Literal) (strings : List Quoted) : Prop where
  depth_le : depth ≤ options.maxDepth
  representable : ∀ n ∈ literals, n.Representable
  paired : options.replaceInvalidSurrogates = true ∨ ∀ s ∈ strings, s.Paired

theorem admits_nothing {options : Options} {d : Nat} (h : d ≤ options.maxDepth) : Admits options d [] [] :=
  ⟨h, fun _ hn => absurd hn List.not_mem_nil, Or.inr fun _ hs => absurd hs List.not_mem_nil⟩

theorem admits_append {options : Options} {d e : Nat} {ls ms : List Literal} {ss ts : List Quoted} :
    Admits options (max d e) (ls ++ ms) (ss ++ ts) ↔ Admits options d ls ss ∧ Admits options e ms ts := by
  constructor
  · rintro ⟨hd, hl, hs⟩
    refine ⟨⟨by omega, fun n hn => hl n (List.mem_append_left _ hn), hs.imp_right fun h s hs => ?_⟩,
      ⟨by omega, fun n hn => hl n (List.mem_append_right _ hn), hs.imp_right fun h s hs => ?_⟩⟩
    · exact h s (List.mem_append_left _ hs)
    · exact h s (List.mem_append_right _ hs)
  · rintro ⟨⟨hd, hl, hs⟩, ⟨he, hm, ht⟩⟩
    refine ⟨by omega, fun n hn => ?_, ?_⟩
    · exact (List.mem_append.1 hn).elim (hl n) (hm n)
    · rcases hs with hs | hs
      · exact Or.inl hs
      · exact ht.imp_right fun ht s h => (List.mem_append.1 h).elim (hs s) (ht s)

/-- The tree may be read inside `depth` containers. -/
def Tree.Fits (options : Options) (depth : Nat) (t : Tree) : Prop :=
  Admits options (depth + t.depth) t.literals t.strings

@[inherit_doc Tree.Fits]
def Body.Fits (options : Options) (depth : Nat) {kind : ContainerKind} (body : Body kind) : Prop :=
  Admits options (depth + body.depth) body.literals body.strings

@[inherit_doc Tree.Fits]
def Rest.Fits (options : Options) (depth : Nat) {kind : ContainerKind} (rest : Rest kind) : Prop :=
  Admits options (depth + rest.depth) rest.literals rest.strings

section Fits

variable {options : Options} {d : Nat}

theorem admits_name {ls : List Literal} {q : Quoted} {ss : List Quoted} :
    Admits options d ls (q :: ss) ↔ (options.replaceInvalidSurrogates = true ∨ q.Paired) ∧ Admits options d ls ss := by
  constructor
  · rintro ⟨hd, hl, hs⟩
    exact ⟨hs.imp_right fun h => h q (List.mem_cons_self ..),
      hd, hl, hs.imp_right fun h s hs => h s (List.mem_cons_of_mem _ hs)⟩
  · rintro ⟨hq, hd, hl, hs⟩
    refine ⟨hd, hl, ?_⟩
    rcases hq with hq | hq
    · exact Or.inl hq
    · exact hs.imp_right fun hs s hmem => (List.mem_cons.1 hmem).elim (fun he => he ▸ hq) (hs s)

theorem fits_string (hd : d ≤ options.maxDepth) {q : Quoted} :
    (Tree.string q).Fits options d ↔ (options.replaceInvalidSurrogates = true ∨ q.Paired) :=
  admits_name.trans (and_iff_left (admits_nothing hd))

theorem fits_number (hd : d ≤ options.maxDepth) {l : Literal} : (Tree.number l).Fits options d ↔ l.Representable := by
  constructor
  · exact fun h => h.representable l (List.mem_singleton_self l)
  · refine fun h => ⟨hd, fun n hn => ?_, Or.inr fun s hs => absurd hs List.not_mem_nil⟩
    rwa [List.mem_singleton.1 hn]

theorem fits_container {kind : ContainerKind} {opening closing : Around} {body : Body kind} :
    (Tree.container kind opening body closing).Fits options d ↔ body.Fits options (d + 1) := by
  rw [Body.Fits, Nat.add_assoc, Nat.add_comm 1]
  rfl

theorem fits_entries {kind : ContainerKind} {t : Tree} {rest : Rest kind} {strings : List Quoted} :
    Admits options (d + max t.depth rest.depth) (t.literals ++ rest.literals) (strings ++ (t.strings ++ rest.strings)) ↔
      Admits options (d + t.depth) t.literals (strings ++ t.strings) ∧ rest.Fits options d := by
  rw [← Nat.add_max_add_left, ← List.append_assoc, admits_append]
  rfl

end Fits

/-! ## Sessions and consumers -/

section Reports

variable {σ : Type} (consume : Consumer σ) (options : Options) (size : Nat)

/-- The session after the actions `tr` corresponds to the consumer after the events `es`: if `fits` holds and all events
are taken, so are all actions, and the session is `final` of what the consumer is then; otherwise an action is
refused. -/
def Reports (tr : List (Action × Match)) (es : List Event) (fits : Prop) (s : Session σ)
    (final : σ → NumberParts → Session σ) : Prop :=
  (∃ c number, fits ∧ consume.feed es s.consumer = (c, true) ∧
      feed (Session.act consume options size) tr s = (final c number, true)) ∨
    ((feed (Session.act consume options size) tr s).2 = false ∧ (fits → (consume.feed es s.consumer).2 = false))

/-- What a value leaves behind. -/
def Session.settled (s : Session σ) (c : σ) (number : NumberParts) : Session σ :=
  { s with consumer := c, memberName := "", number }

variable {consume options size}
variable {tr tr' : List (Action × Match)} {es es' : List Event} {fits fits' : Prop} {s : Session σ}
  {final final' : σ → NumberParts → Session σ} {a : Action} {m : Match} {e : Event}

theorem Reports.imp (h : Reports consume options size tr es fits s final) (hfits : fits ↔ fits') :
    Reports consume options size tr es fits' s final := by
  rcases h with ⟨c, number, hf, hes, htr⟩ | ⟨htr, hes⟩
  · exact Or.inl ⟨c, number, hfits.1 hf, hes, htr⟩
  · exact Or.inr ⟨htr, fun hf => hes (hfits.2 hf)⟩

theorem Reports.append (h : Reports consume options size tr es fits s final)
    (hfinal : ∀ c number, (final c number).consumer = c)
    (h' : ∀ c number, Reports consume options size tr' es' fits' (final c number) final') :
    Reports consume options size (tr ++ tr') (es ++ es') (fits ∧ fits') s final' := by
  rw [Reports, Machine.feed_append, Consumer.feed_append]
  rcases h with ⟨c, number, hf, hes, htr⟩ | ⟨htr, hes⟩
  · rw [hes, htr]
    rcases h' c number with ⟨c', number', hf', hes', htr'⟩ | ⟨htr', hes'⟩
    · rw [hfinal] at hes'
      exact Or.inl ⟨c', number', ⟨hf, hf'⟩, hes', htr'⟩
    · rw [hfinal] at hes'
      exact Or.inr ⟨htr', fun hf => hes' hf.2⟩
  · obtain ⟨s', hs'⟩ : ∃ s', feed (Session.act consume options size) tr s = (s', false) := ⟨_, Prod.ext rfl htr⟩
    rw [hs']
    refine Or.inr ⟨rfl, fun hf => ?_⟩
    have hrefused := hes hf.1
    rcases hfeed : consume.feed es s.consumer with ⟨c, _ | _⟩
    · rfl
    · rw [hfeed] at hrefused
      simp at hrefused

theorem Reports.nil (hfinal : final s.consumer s.number = s) : Reports consume options size [] [] True s final :=
  Or.inl ⟨s.consumer, s.number, trivial, rfl, by rw [hfinal]; rfl⟩

/-- An action that reports nothing. -/
theorem Reports.silent (number : NumberParts)
    (h : Session.act consume options size a m s = (final s.consumer number, true)) :
    Reports consume options size [(a, m)] [] True s final := by
  refine Or.inl ⟨s.consumer, number, trivial, rfl, ?_⟩
  simp only [feed, h]

/-- An action that reports one event. -/
theorem Reports.deliver {t : Session σ} (h : Session.act consume options size a m s = t.deliver consume e)
    (hconsumer : t.consumer = s.consumer) (hfinal : ∀ c, { t with consumer := c } = final c t.number) :
    Reports consume options size [(a, m)] [e] True s final := by
  rw [Reports]
  simp only [feed, Consumer.feed, h, Session.deliver, hconsumer]
  rcases consume e s.consumer with ⟨c, _ | _⟩
  · exact Or.inr ⟨rfl, fun _ => rfl⟩
  · exact Or.inl ⟨c, t.number, trivial, rfl, by rw [← hfinal]⟩

/-- An action that is refused whatever the consumer says. -/
theorem Reports.refuse (h : (Session.act consume options size a m s).2 = false) (hfits : ¬ fits) :
    Reports consume options size ((a, m) :: tr) es fits s final := by
  refine Or.inr ⟨?_, fun hf => absurd hf hfits⟩
  rw [feed]
  rcases hact : Session.act consume options size a m s with ⟨s', _ | _⟩
  · rfl
  · rw [hact] at h
    simp at h

end Reports

/-! ## Trees -/

section Trees

variable {σ : Type} {consume : Consumer σ} {options : Options} {size : Nat} {s : Session σ}

theorem fail_refuses (code : ErrorCode) (offset : Option Nat) (s : Session σ) : (s.fail code offset).2 = false := by
  unfold Session.fail
  cases s.failure <;> rfl

/-- A consumer that takes everything takes the start of the document. -/
theorem feed_begin (hconsume : ∀ e c, (consume e c).2 = true) (m : Match) (tr : List (Action × Match)) (c : σ) :
    feed (Session.act consume options size) ((.beginJson, m) :: tr) { consumer := c } =
      feed (Session.act consume options size) tr { consumer := (consume .beginJson c).1 } := by
  simp only [feed, Session.act, Session.deliver, hconsume]

theorem reports_sign {m : Match} :
    Reports consume options size [(.numberSign, m)] [] True s (fun c number => { s with consumer := c, number }) :=
  .silent { s.number with sign := m } rfl

theorem reports_scalar {a : Action} {m : Match} {v : Scalar}
    (h : Session.act consume options size a m s = s.deliverScalar consume v) :
    Reports consume options size [(a, m)] [.scalar s.memberName v] True s s.settled :=
  .deliver h rfl fun _ => rfl

theorem reports_string (hd : s.depth ≤ options.maxDepth) (q : Quoted) (o : Nat) :
    Reports consume options size [(.stringValue, ⟨o, encode q.text⟩)] [.scalar s.memberName (.string q.value)]
      ((Tree.string q).Fits options s.depth) s s.settled := by
  have hfits := fits_string hd (q := q)
  cases hq : decode? options ⟨o, encode q.text⟩ with
  | none =>
    refine .refuse ?_ fun h => ?_
    · simp only [Session.act, hq]
      exact fail_refuses _ _ _
    · rw [(decode?_eq_some_iff options q o q.value).2 ⟨hfits.1 h, rfl⟩] at hq
      simp at hq
  | some text =>
    obtain ⟨h, rfl⟩ := (decode?_eq_some_iff options q o text).1 hq
    refine (reports_scalar ?_).imp (iff_of_true trivial (hfits.2 h))
    simp only [Session.act, hq]

theorem reports_number (hd : s.depth ≤ options.maxDepth) (l : Literal) (o : Nat) (m : Match) :
    Reports consume options size (l.trace o ++ [(.numberValue, m)]) [.scalar s.memberName l.scalar]
      ((Tree.number l).Fits options s.depth) s s.settled := by
  have hfits := fits_number hd (l := l)
  have hparts : Reports consume options size (l.trace o) [] True s
      (fun c _ => { s with consumer := c, number := l.parts o }) :=
    Or.inl ⟨s.consumer, s.number, trivial, rfl, rfl⟩
  have hvalue (c : σ) : Reports consume options size [(.numberValue, m)] [.scalar s.memberName l.scalar]
      l.Representable { s with consumer := c, number := l.parts o } s.settled := by
    cases hl : (l.parts o).scalar? with
    | none =>
      refine .refuse ?_ fun h => ?_
      · simp only [Session.act, Session.deliverNumber, hl]
        exact fail_refuses _ _ _
      · rw [(scalar?_eq_some_iff l o l.scalar).2 ⟨h, rfl⟩] at hl
        simp at hl
    | some v =>
      obtain ⟨h, rfl⟩ := (scalar?_eq_some_iff l o v).1 hl
      have hact : Session.act consume options size .numberValue m { s with consumer := c, number := l.parts o } =
          Session.deliverScalar consume l.scalar { s with consumer := c, number := l.parts o } := by
        simp only [Session.act, Session.deliverNumber, hl]
      exact (Reports.deliver hact rfl fun _ => rfl).imp (iff_of_true trivial h)
  exact (hparts.append (fun _ _ => rfl) fun c _ => hvalue c).imp (by rw [true_and, hfits])

/-- The session inside of a container. -/
def Session.inside (s : Session σ) (kind : ContainerKind) (c : σ) (number : NumberParts) : Session σ :=
  match kind with
  | .object =>
    { s with
      consumer := c
      depth := s.depth + 1
      memberName := ""
      objects := s.memberName :: s.objects
      number }
  | .array =>
    { s with
      consumer := c
      depth := s.depth + 1
      memberName := ""
      arrays := s.memberName :: s.arrays
      number }

variable {kind : ContainerKind}

theorem reports_open (h : s.depth < options.maxDepth) (m : Match) :
    Reports consume options size [(Action.opens kind, m)] [.opened kind s.memberName] True s (s.inside kind) := by
  cases kind with
  | object =>
    refine .deliver (t := s.inside .object s.consumer s.number) ?_ rfl fun _ => rfl
    simp only [Action.opens, Session.act, Session.enter, if_neg (Nat.not_le.2 h)]
    rfl
  | array =>
    refine .deliver (t := s.inside .array s.consumer s.number) ?_ rfl fun _ => rfl
    simp only [Action.opens, Session.act, Session.enter, if_neg (Nat.not_le.2 h)]
    rfl

theorem open_refuses (h : options.maxDepth ≤ s.depth) (m : Match) :
    (Session.act consume options size (Action.opens kind) m s).2 = false := by
  cases kind <;>
  · simp only [Action.opens, Session.act, Session.enter, if_pos h]
    exact fail_refuses _ _ _

theorem reports_close (m : Match) (c d : σ) (number number' : NumberParts) :
    Reports consume options size [(Action.closes kind, m)] [.closed kind s.memberName] True
      ((s.inside kind c number).settled d number') s.settled := by
  cases kind with
  | object => exact .deliver rfl rfl fun _ => rfl
  | array => exact .deliver rfl rfl fun _ => rfl

section Inside

variable (s) (kind) (c : σ) (number : NumberParts)

@[simp] theorem consumer_inside : (s.inside kind c number).consumer = c := by cases kind <;> rfl

@[simp] theorem depth_inside : (s.inside kind c number).depth = s.depth + 1 := by cases kind <;> rfl

@[simp] theorem memberName_inside : (s.inside kind c number).memberName = "" := by cases kind <;> rfl

@[simp] theorem failure_inside : (s.inside kind c number).failure = s.failure := by cases kind <;> rfl

end Inside

/-- What is known of the entries of a container carries over to the container. -/
theorem reports_container {body : Body kind}
    (h : ∀ (s : Session σ) (o : Nat), s.depth ≤ options.maxDepth → s.memberName = "" →
      Reports consume options size (body.trace o) body.events (body.Fits options s.depth) s s.settled)
    (opening closing : Around) (o : Nat) (s : Session σ) :
    Reports consume options size ((Tree.container kind opening body closing).trace o)
      ((Tree.container kind opening body closing).events s.memberName)
      ((Tree.container kind opening body closing).Fits options s.depth) s s.settled := by
  have hfits : (Tree.container kind opening body closing).Fits options s.depth ↔ body.Fits options (s.depth + 1) :=
    fits_container
  have hcontainer (t : Session σ) (hdepth : t.depth = s.depth) (m m' : Match) (o' : Nat) :
      Reports consume options size ((Action.opens kind, m) :: (body.trace o' ++ [(Action.closes kind, m')]))
        (.opened kind t.memberName :: (body.events ++ [.closed kind t.memberName]))
        ((Tree.container kind opening body closing).Fits options s.depth) t t.settled := by
    by_cases hd : t.depth < options.maxDepth
    · have hinside (c : σ) (number : NumberParts) :
          Reports consume options size (body.trace o' ++ [(Action.closes kind, m')])
            (body.events ++ [.closed kind t.memberName]) (body.Fits options (t.depth + 1)) (t.inside kind c number)
            t.settled := by
        have hdepth : (t.inside kind c number).depth = t.depth + 1 := depth_inside t kind c number
        have hbody := h (t.inside kind c number) o' (hdepth ▸ hd) (memberName_inside ..)
        rw [hdepth] at hbody
        exact (hbody.append (fun _ _ => rfl) fun d number' => reports_close m' c d number number').imp
          (by rw [and_true])
      have := (reports_open hd m).append (consumer_inside t kind) hinside
      exact this.imp (by rw [hfits, true_and, hdepth])
    · refine .refuse (open_refuses (Nat.not_lt.1 hd) m) fun hf => hd ?_
      have := hf.depth_le
      simp only [Tree.depth] at this
      omega
  exact (reports_sign.append (fun _ _ => rfl) fun c number => hcontainer { s with consumer := c, number } rfl _ _ _).imp
    (by rw [true_and])

/-- What is known of a value carries over to an entry of a container. -/
theorem reports_entry {t : Tree}
    (h : ∀ (s : Session σ) (o : Nat), s.depth ≤ options.maxDepth →
      Reports consume options size (t.trace o) (t.events s.memberName) (t.Fits options s.depth) s s.settled)
    (label : Label kind) (o o' : Nat) (s : Session σ) (hd : s.depth ≤ options.maxDepth) (hname : s.memberName = "") :
    Reports consume options size (label.trace o t.text (t.trace o')) (t.events label.name)
      (Admits options (s.depth + t.depth) t.literals (label.strings ++ t.strings)) s s.settled := by
  cases label with
  | item =>
    have := h s o' hd
    rwa [hname] at this
  | member name colon =>
    have hfits : Admits options (s.depth + t.depth) t.literals (name :: t.strings) ↔
        (options.replaceInvalidSurrogates = true ∨ name.Paired) ∧ t.Fits options s.depth := admits_name
    cases hq : decode? options ⟨o, encode name.text⟩ with
    | none =>
      refine .refuse ?_ fun h => ?_
      · simp only [Session.act, hq]
        exact fail_refuses _ _ _
      · rw [(decode?_eq_some_iff options name o name.value).2 ⟨(hfits.1 h).1, rfl⟩] at hq
        simp at hq
    | some text =>
      obtain ⟨hpaired, rfl⟩ := (decode?_eq_some_iff options name o text).1 hq
      have hbegin : Reports consume options size [(.beginMember, ⟨o, encode name.text⟩)] [] True s
          (fun c number => { s with consumer := c, memberName := name.value, number }) :=
        .silent s.number (by simp only [Session.act, hq])
      have hentry (c : σ) (number : NumberParts) (m : Match) :
          Reports consume options size (t.trace o' ++ [(.endMember, m)]) (t.events name.value) (t.Fits options s.depth)
            { s with consumer := c, memberName := name.value, number } s.settled := by
        have ht := h { s with consumer := c, memberName := name.value, number } o' hd
        have hend (d : σ) (number' : NumberParts) :
            Reports consume options size [(.endMember, m)] [] True (s.settled d number') s.settled :=
          .silent number' rfl
        have := ht.append (fun _ _ => rfl) hend
        rw [List.append_nil] at this
        exact this.imp (by rw [and_true])
      refine (hbegin.append (fun _ _ => rfl) fun c number => hentry c number _).imp ?_
      rw [true_and, Label.strings, List.singleton_append, hfits]
      exact ⟨fun h => ⟨hpaired, h⟩, fun h => h.2⟩

mutual

/-- A session that is handed the trace of a tree reports the events of the tree. -/
theorem Tree.reports : ∀ (t : Tree) (s : Session σ) (o : Nat), s.depth ≤ options.maxDepth →
    Reports consume options size (t.trace o) (t.events s.memberName) (t.Fits options s.depth) s s.settled
  | .null, s, o, hd => (reports_scalar rfl).imp (iff_of_true trivial (admits_nothing hd))
  | .boolean b, s, o, hd => by
    have hfits : True ↔ (Tree.boolean b).Fits options s.depth := iff_of_true trivial (admits_nothing hd)
    cases b
    · exact (reports_scalar rfl).imp hfits
    · exact (reports_scalar rfl).imp hfits
  | .number l, s, o, hd => reports_number hd l o _
  | .string q, s, o, hd =>
    (reports_sign.append (fun _ _ => rfl) fun c number =>
      reports_string (s := { s with consumer := c, number }) hd q o).imp (by rw [true_and])
  | .container _ opening body closing, s, o, _ => reports_container (Body.reports body) opening closing o s

theorem Body.reports : ∀ {kind : ContainerKind} (body : Body kind) (s : Session σ) (o : Nat),
    s.depth ≤ options.maxDepth → s.memberName = "" →
    Reports consume options size (body.trace o) body.events (body.Fits options s.depth) s s.settled
  | .array, .empty _, s, o, hd, hname =>
    (Reports.silent { s.number with sign := ⟨o, []⟩ } (by simp only [Session.act, Session.settled, ← hname])).imp
      (iff_of_true trivial (admits_nothing hd))
  | .object, .empty _, s, o, hd, hname =>
    (Reports.nil (by simp only [Session.settled, ← hname])).imp (iff_of_true trivial (admits_nothing hd))
  | _, .entries label first rest, s, o, hd, hname =>
    ((reports_entry (Tree.reports first) label o _ s hd hname).append (fun _ _ => rfl) fun c number =>
      Rest.reports rest (s.settled c number) _ hd rfl).imp fits_entries.symm

theorem Rest.reports : ∀ {kind : ContainerKind} (rest : Rest kind) (s : Session σ) (o : Nat),
    s.depth ≤ options.maxDepth → s.memberName = "" →
    Reports consume options size (rest.trace o) rest.events (rest.Fits options s.depth) s s.settled
  | _, .nil _, s, o, hd, hname =>
    (Reports.nil (by simp only [Session.settled, ← hname])).imp (iff_of_true trivial (admits_nothing hd))
  | _, .cons comma label entry rest, s, o, hd, hname =>
    ((reports_entry (Tree.reports entry) label _ _ s hd hname).append (fun _ _ => rfl) fun c number =>
      Rest.reports rest (s.settled c number) _ hd rfl).imp fits_entries.symm

end

end Trees

end Grammar

end TableJson
