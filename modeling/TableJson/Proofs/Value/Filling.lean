import TableJson.Proofs.Grammar.Faithful
import TableJson.Proofs.Grammar.Places
import TableJson.Value.Read

/-!
# Filling — the builder takes whatever is reported

The builder refuses a second top-level value, and breaks off at an end of a container with nothing open.  Neither
happens in a reading, whatever the text: the actions come where they may, and the builder at a `Place` takes the event
of any action that may come there (`Builder.At`, `act_fills`).

So a reading into a builder goes as with any other consumer that takes everything (`consumer_independence`).
-/

namespace TableJson

open Grammar Machine

/-! ## Builders at a place -/

/-- The builder has a frame for each open container, and a root only when the value of the document is complete. -/
structure Builder.At (p : Place) (b : Builder) : Prop where
  stack : b.stack.length = p.opened.length
  root : b.root ≠ none → p.opened = [] ∧ p.due = false

/-- The builder takes an event at the place `p`, and is at the place `q` then. -/
def TakesEvent (p q : Place) (e : Event) : Prop :=
  ∀ b : Builder, b.At p → ∃ b' : Builder, b.feed e = .ok (b', true) ∧ b'.At q

section Builders

variable {b : Builder} {p : Place}

theorem Builder.At.root_eq_none (h : b.At p) (hp : p.Takes) : b.root = none := by
  refine Decidable.byContradiction fun hroot => ?_
  obtain ⟨hopened, hdue⟩ := h.root hroot
  rcases hp with hp | hp
  · simp [hdue] at hp
  · simp [hopened] at hp

/-- A value is attached to the innermost frame, or becomes the root if there is none. -/
theorem Builder.At.attach {stack : List Frame} {opened : List ContainerKind} {root : Option Value}
    (hstack : stack.length = opened.length) (hroot : root = none) (name : String) (v : Value) :
    ∃ b' : Builder, Builder.attach name v ⟨stack, root⟩ = (b', true) ∧ b'.At ⟨opened, false⟩ := by
  subst hroot
  cases stack with
  | nil => exact ⟨_, rfl, hstack, fun _ => ⟨List.length_eq_zero_iff.1 hstack.symm, rfl⟩⟩
  | cons frame stack => exact ⟨_, rfl, hstack, fun h => absurd rfl h⟩

theorem takes_scalar (hp : p.Takes) (name : String) (v : Scalar) : TakesEvent p p.settled (.scalar name v) := by
  intro b h
  obtain ⟨b', hattach, hb'⟩ := Builder.At.attach h.stack (h.root_eq_none hp) name v.toValue
  exact ⟨b', congrArg Except.ok hattach, hb'⟩

theorem takes_opened (hp : p.Takes) (kind : ContainerKind) (name : String) :
    TakesEvent p (p.inside kind) (.opened kind name) := by
  intro b h
  have hroot := h.root_eq_none hp
  refine ⟨{ b with stack := { name, container := .empty kind } :: b.stack }, ?_, ?_, fun hne => absurd hroot hne⟩
  · rw [Builder.feed, Builder.enter, hroot]
    simp
  · exact congrArg (· + 1) h.stack

theorem takes_closed {kind : ContainerKind} (hp : p.Within kind) (name : String) :
    TakesEvent p ⟨p.opened.tail, false⟩ (.closed kind name) := by
  rintro ⟨stack, root⟩ h
  obtain ⟨rest, hopened⟩ : ∃ rest, p.opened = kind :: rest := List.head?_eq_some_iff.1 hp.1
  have hroot : root = none := by
    refine Decidable.byContradiction fun hne => ?_
    rw [(h.root hne).1] at hopened
    simp at hopened
  have hstack := h.stack
  rw [hopened] at hstack ⊢
  cases stack with
  | nil => simp at hstack
  | cons frame stack =>
    obtain ⟨b', hattach, hb'⟩ :=
      Builder.At.attach (Nat.succ.inj hstack) hroot frame.name frame.container.toValue
    exact ⟨b', congrArg Except.ok hattach, hb'⟩

/-- The name of a member changes nothing. -/
theorem Builder.At.named {kind : ContainerKind} (h : b.At p) (hp : p.Within kind) : b.At p.named := by
  refine ⟨h.stack, fun hroot => ?_⟩
  have hopened := hp.1
  rw [(h.root hroot).1] at hopened
  simp at hopened

theorem takes_beginJson (p : Place) : TakesEvent p p .beginJson := fun b h => ⟨b, rfl, h⟩

theorem takes_endJson (p : Place) (success : Bool) : TakesEvent p p (.endJson success) := fun b h => ⟨b, rfl, h⟩

end Builders

/-! ## Sessions that fill a builder -/

/-- What a builder keeps, with its log. -/
abbrev Filling := Except Violation Builder × Log

/-- A builder has taken every event so far. -/
structure Filled (c : Filling) : Prop where
  builder : ∃ b, c.1 = .ok b
  taken : ∀ q ∈ c.2, q.2 = true

/-- What an action makes of a session that fills a builder: the builder is at the place `p`, or the session has refused
the action, but not because of the builder. -/
def Fills (p : Place) : Session Filling × Bool → Prop
  | (s, true) => (∃ b : Builder, s.consumer.1 = .ok b ∧ b.At p) ∧ Filled s.consumer
  | (s, false) => Filled s.consumer

section Sessions

variable {p q : Place} {s t : Session Filling} {options : Options} {size : Nat}

theorem Fills.filled {r : Session Filling × Bool} (h : Fills p r) : Filled r.1.consumer := by
  rcases r with ⟨s, _ | _⟩
  · exact h
  · exact h.2

/-- A session that keeps the builder keeps its place. -/
theorem Fills.update (h : Fills p (s, true)) (hconsumer : t.consumer = s.consumer) : Fills p (t, true) := by
  rw [Fills, hconsumer]
  exact h

theorem deliver_fills {e : Event} (he : TakesEvent p q e) (h : Fills p (s, true)) :
    Fills q (s.deliver Builder.consumer.logged e) := by
  obtain ⟨⟨b, hb, hat⟩, hfilled⟩ := h
  obtain ⟨b', hfeed, hat'⟩ := he b hat
  have hanswer : Builder.consumer e s.consumer.1 = (.ok b', true) := by
    simp only [hb, Builder.consumer, hfeed]
  have hlogged : Builder.consumer.logged e s.consumer = ((.ok b', s.consumer.2 ++ [(e, true)]), true) := by
    rw [Consumer.logged, hanswer]
  rw [Session.deliver, hlogged]
  refine ⟨⟨b', rfl, hat'⟩, ⟨b', rfl⟩, fun r hr => ?_⟩
  rcases List.mem_append.1 hr with hr | hr
  · exact hfilled.taken r hr
  · rw [List.mem_singleton.1 hr]

theorem fail_fills (code : ErrorCode) (offset : Option Nat) (h : Fills p (s, true)) : Fills q (s.fail code offset) := by
  unfold Session.fail
  cases s.failure <;> exact h.2

theorem endInFailure_fills (code : ErrorCode) (offset : Option Nat) (h : Fills p (s, true)) :
    Fills p (s.endInFailure Builder.consumer.logged code offset) := by
  refine deliver_fills (takes_endJson p false) (h.update ?_)
  exact fail_consumer code offset { s with ended := true }

theorem enter_fills (hp : p.Takes) (kind : ContainerKind) (offset : Nat) (h : Fills p (s, true)) :
    Fills (p.inside kind) (s.enter Builder.consumer.logged options kind offset) := by
  unfold Session.enter
  split
  · exact fail_fills _ _ h
  · refine deliver_fills (takes_opened hp kind _) (h.update ?_)
    cases kind <;> rfl

theorem leave_fills {kind : ContainerKind} (hp : p.Within kind) (h : Fills p (s, true)) :
    Fills ⟨p.opened.tail, false⟩ (s.leave Builder.consumer.logged kind) := by
  cases kind with
  | object => exact deliver_fills (takes_closed hp _) (h.update rfl)
  | array => exact deliver_fills (takes_closed hp _) (h.update rfl)

theorem scalar_fills (hp : p.Takes) (v : Scalar) (h : Fills p (s, true)) :
    Fills p.settled (s.deliverScalar Builder.consumer.logged v) :=
  deliver_fills (takes_scalar hp _ v) (h.update rfl)

/-- The builder takes the event of an action that may come where it is. -/
theorem act_fills {a : Action} (ha : p.step a = some q) (m : Match) (h : Fills p (s, true)) :
    Fills q (Session.act Builder.consumer.logged options size a m s) := by
  have hsilent (he : p.step a = some p) : q = p := Option.some.inj (ha.symm.trans he)
  have hmoves {P : Prop} [Decidable P] {r : Place} (he : p.step a = if P then some r else none) : P ∧ q = r := by
    obtain ⟨hP, hr⟩ := Option.ite_none_right_eq_some.1 (he.symm.trans ha)
    exact ⟨hP, (Option.some.inj hr).symm⟩
  cases a with
  | beginJson =>
    obtain rfl := hsilent rfl
    exact deliver_fills (takes_beginJson q) h
  | successEndJson =>
    obtain rfl := hsilent rfl
    simp only [Session.act]
    split
    · exact (endInFailure_fills .excessSource (some m.stop) h).filled
    · exact deliver_fills (takes_endJson q true) (h.update rfl)
  | failedEndJson =>
    obtain rfl := hsilent rfl
    exact endInFailure_fills _ _ h
  | malformedNumber =>
    obtain rfl := hsilent rfl
    exact h.update (fail_consumer _ _ s)
  | falseValue =>
    obtain ⟨hp, rfl⟩ := hmoves rfl
    exact scalar_fills hp _ h
  | nullValue =>
    obtain ⟨hp, rfl⟩ := hmoves rfl
    exact scalar_fills hp _ h
  | trueValue =>
    obtain ⟨hp, rfl⟩ := hmoves rfl
    exact scalar_fills hp _ h
  | numberValue =>
    obtain ⟨hp, rfl⟩ := hmoves rfl
    simp only [Session.act, Session.deliverNumber]
    cases s.number.scalar? with
    | none => exact fail_fills _ _ (h.update rfl)
    | some v => exact scalar_fills hp v h
  | stringValue =>
    obtain ⟨hp, rfl⟩ := hmoves rfl
    simp only [Session.act]
    cases decode? options m with
    | none => exact fail_fills _ _ h
    | some text => exact scalar_fills hp _ h
  | beginMember =>
    obtain ⟨hp, rfl⟩ := hmoves rfl
    simp only [Session.act]
    cases decode? options m with
    | none => exact fail_fills _ _ h
    | some name =>
      obtain ⟨⟨b, hb, hat⟩, hfilled⟩ := h
      exact ⟨⟨b, hb, hat.named hp⟩, hfilled⟩
  | beginObject =>
    obtain ⟨hp, rfl⟩ := hmoves rfl
    exact enter_fills hp _ _ h
  | beginArray =>
    obtain ⟨hp, rfl⟩ := hmoves rfl
    exact enter_fills hp _ _ h
  | endObject =>
    obtain ⟨hp, rfl⟩ := hmoves rfl
    exact leave_fills hp h
  | endArray =>
    obtain ⟨hp, rfl⟩ := hmoves rfl
    exact leave_fills hp h
  | _ =>
    obtain rfl := hsilent rfl
    exact h.update rfl

theorem feed_fills {tr : List (Action × Match)} (htr : Place.follow tr p = some q) (h : Fills p (s, true)) :
    Fills q (feed (Session.act Builder.consumer.logged options size) tr s) := by
  induction tr generalizing p s with
  | nil =>
    obtain rfl := Option.some.inj htr
    exact h
  | cons r tr ih =>
    obtain ⟨a, m⟩ := r
    obtain ⟨p', ha, htr⟩ := Option.bind_eq_some_iff.1 htr
    have hact : Fills p' (Session.act Builder.consumer.logged options size a m s) := act_fills ha m h
    rw [feed]
    revert hact
    rcases Session.act Builder.consumer.logged options size a m s with ⟨s', _ | _⟩
    · exact fun hrefused => hrefused
    · exact fun hfills => ih htr hfills

end Sessions

/-! ## Readings -/

/-- The builder takes the end of a document, too. -/
theorem Filled.ends {c : Filling} (h : Filled c) (success : Bool) :
    Filled (Builder.consumer.logged (.endJson success) c).1 := by
  obtain ⟨builder, log⟩ := c
  obtain ⟨⟨b, rfl⟩, htaken⟩ := h
  refine ⟨⟨b, rfl⟩, fun q hq => ?_⟩
  rcases List.mem_append.1 hq with hq | hq
  · exact htaken q hq
  · rw [List.mem_singleton.1 hq]
    rfl

theorem filled_walkText {c : Filling} (h : Fills {} (({ consumer := c } : Session Filling), true)) (options : Options)
    (text : String) : Filled (walkText Builder.consumer.logged options text c).2.context.consumer := by
  obtain ⟨q, hq⟩ := legal_reading options text
  have hfills : Fills q (feed (Session.act Builder.consumer.logged options text.utf8ByteSize) (reading options text).2
      { consumer := c }) := feed_fills hq h
  rcases hfeed : feed (Session.act Builder.consumer.logged options text.utf8ByteSize) (reading options text).2
      { consumer := c }
    with ⟨s, _ | _⟩
  · rw [hfeed] at hfills
    obtain ⟨-, hcontext⟩ := walkText_of_refusal hfeed
    rw [hcontext]
    exact hfills
  · rw [hfeed] at hfills
    obtain ⟨-, hcontext⟩ := walkText_of_feed hfeed
    rw [hcontext]
    exact hfills.filled

theorem filled_read {c : Filling} (h : Fills {} (({ consumer := c } : Session Filling), true)) (options : Options)
    (text : String) : Filled (Grammar.read Builder.consumer.logged options text c).consumer := by
  have hwalk := filled_walkText h options text
  unfold Grammar.read
  revert hwalk
  rcases walkText Builder.consumer.logged options text c with ⟨outcome, state⟩
  dsimp only
  intro hwalk
  cases Failure.ofOutcome text.utf8ByteSize state.context.failure outcome with
  | none => exact hwalk
  | some failure =>
    dsimp only
    split
    · exact hwalk
    · exact hwalk.ends false

/-- The builder takes whatever a reading reports to it. -/
theorem builder_takes (options : Options) (text : String) :
    ∀ p ∈ heard Builder.consumer options text (.ok {}), p.2 = true := by
  have hstart : Fills {} (({ consumer := (.ok {}, []) } : Session Filling), true) :=
    ⟨⟨{}, rfl, rfl, fun h => absurd rfl h⟩, ⟨{}, rfl⟩, fun _ h => absurd h List.not_mem_nil⟩
  exact (filled_read hstart options text).taken

/-- Reading a value comes to what checking the text comes to. -/
theorem Value.read_map_eq_validate (options : Options) (text : String) :
    (Value.read options text).map (fun _ => ()) = validate options text := by
  rw [← (heard_of_taken Builder.consumer options text (.ok {}) (builder_takes options text)).2, Value.read]
  rcases Grammar.read Builder.consumer options text (.ok {}) with ⟨consumer, e | ⟨⟩, failure, halt⟩
  · rfl
  · cases consumer <;> rfl

/-- A reading is not aborted by a consumer that takes everything. -/
theorem code_ne_aborted {σ : Type} {consume : Consumer σ} {options : Options} {text : String} {c : σ}
    (h : ∀ p ∈ heard consume options text c, p.2 = true) {e : ParseError}
    (he : (Grammar.read consume options text c).result = .error e) : e.code ≠ .aborted := by
  have hprotocol := (conduct_read consume options text c).protocol
  rw [← (read_logged consume options text c []).2, he] at hprotocol
  obtain ⟨success, answer, hlast, hcompleted, -, hfailed⟩ := hprotocol.ended fun p hp _ => h p hp
  have hanswer : answer = true := h _ (List.mem_of_getLast? hlast)
  cases success with
  | true => exact absurd (hcompleted rfl hanswer) (by simp)
  | false =>
    obtain ⟨error, heq, hcode⟩ := hfailed rfl
    rw [Except.error.inj heq]
    exact hcode

/-- Consumers that take everything hear the same and make the same of a text; the builder is one of them.  A consumer
that refuses the event after the first `n` hears of these events and of that one. -/
theorem consumer_independence (options : Options) (text : String) :
    (∀ (σ ρ : Type) (consume : Consumer σ) (consume' : Consumer ρ) (c : σ) (c' : ρ),
      (∀ p ∈ heard consume options text c, p.2 = true) → (∀ p ∈ heard consume' options text c', p.2 = true) →
        (heard consume options text c).map Prod.fst = (heard consume' options text c').map Prod.fst ∧
          (Grammar.read consume options text c).result = (Grammar.read consume' options text c').result) ∧
      (∀ p ∈ heard Builder.consumer options text (.ok {}), p.2 = true) ∧
      (Value.read options text).map (fun _ => ()) = validate options text ∧
      (∀ error, Value.read options text = .error error → error.code ≠ .aborted) ∧
      ∀ (σ ρ : Type) (consume : Consumer σ) (consume' : Consumer ρ) (c : σ) (c' : ρ) (n : Nat),
        (∀ i ≤ n, ∀ p, (heard consume options text c)[i]? = some p → (p.2 = true ↔ i < n)) →
        (∀ p ∈ heard consume' options text c', p.2 = true) →
        (heard consume options text c).map Prod.fst = ((heard consume' options text c').map Prod.fst).take (n + 1) := by
  refine ⟨?_, builder_takes options text, Value.read_map_eq_validate options text, ?_, ?_⟩
  · intro σ ρ consume consume' c c' h h'
    obtain ⟨hevents, hresult⟩ := heard_of_taken consume options text c h
    obtain ⟨hevents', hresult'⟩ := heard_of_taken consume' options text c' h'
    exact ⟨hevents.trans hevents'.symm, hresult.trans hresult'.symm⟩
  · intro error herror
    refine code_ne_aborted (builder_takes options text) ?_
    rw [(heard_of_taken Builder.consumer options text (.ok {}) (builder_takes options text)).2,
      ← Value.read_map_eq_validate, herror]
    rfl
  · intro σ ρ consume consume' c c' n h h'
    rw [heard_take consume options text c h, (heard_of_taken consume' options text c' h').1]

/-- A recorder takes events up to its limit, and refuses the one that reaches it. -/
theorem recorder_answers (options : Options) (text : String) (n : Nat) :
    ∀ i ≤ n, ∀ p, (heard (.recorder (some (n + 1))) options text [])[i]? = some p → (p.2 = true ↔ i < n) := by
  have hlogged (e : Event) (kept : List Event) : (Consumer.recorder (some (n + 1))).logged e
      (kept, kept.reverse.mapIdx fun i e => (e, decide (i + 1 < n + 1))) =
      (((Consumer.recorder (some (n + 1)) e kept).1,
          (Consumer.recorder (some (n + 1)) e kept).1.reverse.mapIdx fun i e => (e, decide (i + 1 < n + 1))),
        (Consumer.recorder (some (n + 1)) e kept).2) := by
    simp [Consumer.logged, Consumer.recorder]
  obtain ⟨hconsumer, -⟩ := read_map
    (f := fun kept : List Event => (kept, kept.reverse.mapIdx fun i e => (e, decide (i + 1 < n + 1))))
    hlogged options text []
  have hheard := congrArg Prod.snd hconsumer
  intro i _ p hp
  rw [heard,
    show (Grammar.read (Consumer.recorder (some (n + 1))).logged options text ([], [])).consumer.2 = _ from hheard,
    List.getElem?_mapIdx, Option.map_eq_some_iff] at hp
  obtain ⟨e, -, rfl⟩ := hp
  simp

theorem consumer_independence_null :
    (heard (.recorder (some 2)) {} "null" []).map Prod.fst = [.beginJson, .scalar "" .null] := by
  have hd : (⟨.none, .null, .none⟩ : Document).text = String.toList "null" := rfl
  have haccepted : validate {} "null" = .ok () :=
    (validate_eq_ok_iff _ _).2 ⟨_, hd, admits_nothing (Nat.zero_le _)⟩
  obtain ⟨-, htaken, -, -, htake⟩ := consumer_independence {} "null"
  rw [htake _ _ (.recorder (some 2)) Builder.consumer [] (.ok {}) 1 (recorder_answers {} "null" 1) htaken,
    (heard_of_taken Builder.consumer {} "null" (.ok {}) htaken).1, reported_eq_events haccepted hd]
  rfl

end TableJson
