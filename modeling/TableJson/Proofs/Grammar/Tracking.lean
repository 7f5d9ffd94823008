import TableJson.Proofs.Event.Outline
import TableJson.Proofs.Grammar.Independence
import TableJson.Proofs.Grammar.Places

/-!
# Tracking — sessions at a place

Every action of a reading comes where it may (`legal_reading`).  So a session can be told from the place it is at: the
names it keeps are those of the open containers, their number is its depth, and a member name is pending only where the
value of a member is due.

* `Tracks p s o`: the session `s` is at the place `p`, and what it has reported leads to the outline `o`.
* `act_tracks`: an action that may come leads on, or is refused; either way the outline goes along with what has been
  reported.
* `follow_heard`: the outline goes along with all that a consumer hears, of whatever text.
-/

namespace TableJson

/-- The names of the open containers of a kind, innermost first. -/
def Outline.names (kind : ContainerKind) (o : Outline) : List String :=
  (o.opened.filter fun container => container.kind = kind).map Opening.name

namespace Grammar

open Machine

section Sessions

variable {σ : Type} {consume : Consumer σ} {options : Options} {size : Nat} {p q : Place} {s t : Session (σ × Log)}
  {o o' : Outline}

/-- The outline goes along with what has been reported. -/
def Outlines (s : Session (σ × Log)) (o : Outline) : Prop := Outline.follow (s.consumer.2.map Prod.fst) {} = some o

/-- The session is at the place `p`, and what it has reported leads to the outline `o`. -/
structure Tracks (options : Options) (p : Place) (s : Session (σ × Log)) (o : Outline) : Prop where
  log : Outlines s o
  kinds : p.opened = o.opened.map Opening.kind
  begun : o.begun = (!p.due || !p.opened.isEmpty)
  objects : s.objects = o.names .object
  arrays : s.arrays = o.names .array
  depth : s.depth = o.opened.length
  limit : s.depth ≤ options.maxDepth
  name : s.memberName ≠ "" → p.due = true ∧ p.opened.head? = some .object

/-- What an action makes of a session: it is at the place `p`, or it has refused the action. -/
def Tracked (options : Options) (p : Place) : Session (σ × Log) × Bool → Prop
  | (s, true) => ∃ o, Tracks options p s o
  | (s, false) => ∃ o, Outlines s o

theorem Tracked.outlines {r : Session (σ × Log) × Bool} (h : Tracked options p r) : ∃ o, Outlines r.1 o := by
  rcases r with ⟨s, _ | _⟩
  · exact h
  · exact h.imp fun _ => Tracks.log

/-! ## Steps -/

theorem Outlines.step (h : Outlines s o) {e : Event} (he : o.step e = some o') (consume : Consumer σ) :
    Outlines (s.deliver consume.logged e).1 o' := by
  have hlog : (s.deliver consume.logged e).1.consumer.2.map Prod.fst = s.consumer.2.map Prod.fst ++ [e] :=
    List.map_append
  rw [Outlines, hlog, Outline.follow_append, show Outline.follow (s.consumer.2.map Prod.fst) {} = some o from h,
    Option.bind_some, Outline.follow, he]
  rfl

theorem deliver_tracks {e : Event} (hlog : Outlines s o) (he : o.step e = some o')
    (h : ∀ c : σ × Log, Outlines { s with consumer := c } o' → Tracks options p { s with consumer := c } o') :
    Tracked options p (s.deliver consume.logged e) := by
  have hstep := hlog.step he consume
  rw [Session.deliver] at hstep ⊢
  rcases (consume.logged e s.consumer).2 with _ | _
  · exact ⟨o', hstep⟩
  · exact ⟨o', h _ hstep⟩

theorem fail_tracks (hlog : Outlines s o) (code : ErrorCode) (offset : Option Nat) :
    Tracked options p (s.fail code offset) := by
  unfold Session.fail
  cases s.failure with
  | none => exact ⟨o, hlog⟩
  | some failure => exact ⟨o, hlog⟩

/-- A failure that is only kept changes nothing else. -/
theorem Tracks.keep (h : Tracks options p s o) (code : ErrorCode) (offset : Option Nat) :
    Tracks options p (s.fail code offset).1 o := by
  unfold Session.fail
  cases s.failure with
  | none => exact ⟨h.log, h.kinds, h.begun, h.objects, h.arrays, h.depth, h.limit, h.name⟩
  | some failure => exact h

/-- The end of the document changes nothing else, either. -/
theorem end_tracks (h : Tracks options p s o) (success : Bool) :
    Tracked options p (s.deliver consume.logged (.endJson success)) :=
  deliver_tracks h.log rfl fun _ hlog => ⟨hlog, h.kinds, h.begun, h.objects, h.arrays, h.depth, h.limit, h.name⟩

theorem Tracks.ended (h : Tracks options p s o) : Tracks options p { s with ended := true } o :=
  ⟨h.log, h.kinds, h.begun, h.objects, h.arrays, h.depth, h.limit, h.name⟩

theorem Tracks.numbered (h : Tracks options p s o) (number : NumberParts) : Tracks options p { s with number } o :=
  ⟨h.log, h.kinds, h.begun, h.objects, h.arrays, h.depth, h.limit, h.name⟩

theorem Tracks.unnamed (h : Tracks options p s o) : Tracks options p { s with memberName := "" } o :=
  ⟨h.log, h.kinds, h.begun, h.objects, h.arrays, h.depth, h.limit, fun hname => absurd rfl hname⟩

/-- Where a value may come, the outline takes it under the pending name. -/
theorem Tracks.takes (h : Tracks options p s o) (hp : p.Takes) : o.Takes s.memberName := by
  have hhead : p.opened.head? = o.opened.head?.map Opening.kind := by rw [h.kinds, List.head?_map]
  refine ⟨fun hopened => ?_, fun houtside => ?_⟩
  · have hnil : p.opened = [] := by rw [h.kinds, hopened, List.map_nil]
    have hdue : p.due = true := hp.resolve_right (by simp [hnil])
    rw [h.begun, hdue, hnil]
    rfl
  · refine Decidable.byContradiction fun hname => houtside ?_
    rw [← hhead]
    exact (h.name hname).2

theorem scalar_tracks (h : Tracks options p s o) (hp : p.Takes) (v : Scalar) :
    Tracked options p.settled (s.deliverScalar consume.logged v) :=
  deliver_tracks h.unnamed.log (Outline.step_scalar_iff.2 ⟨h.takes hp, rfl⟩) fun _ hlog =>
    ⟨hlog, h.kinds, rfl, h.objects, h.arrays, h.depth, h.limit, fun hname => absurd rfl hname⟩

theorem enter_tracks (h : Tracks options p s o) (hp : p.Takes) (kind : ContainerKind) (offset : Nat) :
    Tracked options (p.inside kind) (s.enter consume.logged options kind offset) := by
  unfold Session.enter
  by_cases hd : options.maxDepth ≤ s.depth
  · rw [if_pos hd]
    exact fail_tracks h.log _ _
  · rw [if_neg hd]
    have hopened : o.step (.opened kind s.memberName) = some ⟨⟨kind, s.memberName⟩ :: o.opened, true⟩ :=
      Outline.step_opened_iff.2 ⟨h.takes hp, rfl⟩
    have hkinds : (p.inside kind).opened = (⟨kind, s.memberName⟩ :: o.opened).map Opening.kind :=
      congrArg (kind :: ·) h.kinds
    have hdepth : s.depth + 1 = (⟨kind, s.memberName⟩ :: o.opened : List Opening).length := congrArg (· + 1) h.depth
    cases kind with
    | object =>
      refine deliver_tracks h.log hopened fun c hlog =>
        ⟨hlog, hkinds, rfl, ?_, h.arrays, hdepth, Nat.not_le.1 hd, fun hname => absurd rfl hname⟩
      exact congrArg (s.memberName :: ·) h.objects
    | array =>
      refine deliver_tracks h.log hopened fun c hlog =>
        ⟨hlog, hkinds, rfl, h.objects, ?_, hdepth, Nat.not_le.1 hd, fun hname => absurd rfl hname⟩
      exact congrArg (s.memberName :: ·) h.arrays

/-- Inside of a container the outline has it open, with the name that the session keeps for it. -/
theorem Tracks.innermost (h : Tracks options p s o) {kind : ContainerKind} (hp : p.Within kind) :
    ∃ name rest, o.opened = ⟨kind, name⟩ :: rest ∧ p.opened.tail = rest.map Opening.kind := by
  have hhead := hp.1
  rw [h.kinds, List.head?_map, Option.map_eq_some_iff] at hhead
  obtain ⟨⟨kind', name⟩, hopened, rfl⟩ := hhead
  obtain ⟨rest, hrest⟩ := List.head?_eq_some_iff.1 hopened
  exact ⟨name, rest, hrest, by rw [h.kinds, hrest]; rfl⟩

theorem leave_tracks (h : Tracks options p s o) {kind : ContainerKind} (hp : p.Within kind) :
    Tracked options ⟨p.opened.tail, false⟩ (s.leave consume.logged kind) := by
  obtain ⟨name, rest, hopened, htail⟩ := h.innermost hp
  have hstep : o.step (.closed kind name) = some { o with opened := rest } :=
    Outline.step_closed_iff.2 ⟨rest, hopened, rfl⟩
  have hbegun : o.begun = true := by rw [h.begun, hp.2]; rfl
  have hdepth : s.depth - 1 = rest.length := by
    have := h.depth
    rw [hopened, List.length_cons] at this
    omega
  have hlimit : s.depth - 1 ≤ options.maxDepth := Nat.le_trans (Nat.sub_le ..) h.limit
  have hname : s.memberName ≠ "" → False := fun hne => by
    have hdue := (h.name hne).1
    rw [hp.2] at hdue
    exact absurd hdue (by simp)
  cases kind with
  | object =>
    have hobjects : s.objects = name :: Outline.names .object { o with opened := rest } := by
      rw [h.objects, Outline.names, hopened]
      rfl
    have harrays : s.arrays = Outline.names .array { o with opened := rest } := by
      rw [h.arrays, Outline.names, hopened]
      rfl
    rw [Session.leave, hobjects]
    exact deliver_tracks h.log hstep fun _ hlog =>
      ⟨hlog, htail, hbegun, rfl, harrays, hdepth, hlimit, fun hne => absurd hne hname⟩
  | array =>
    have hobjects : s.objects = Outline.names .object { o with opened := rest } := by
      rw [h.objects, Outline.names, hopened]
      rfl
    have harrays : s.arrays = name :: Outline.names .array { o with opened := rest } := by
      rw [h.arrays, Outline.names, hopened]
      rfl
    rw [Session.leave, harrays]
    exact deliver_tracks h.log hstep fun _ hlog =>
      ⟨hlog, htail, hbegun, hobjects, rfl, hdepth, hlimit, fun hne => absurd hne hname⟩

/-- An action that may come leads the session on, or is refused. -/
theorem act_tracks {a : Action} (ha : p.step a = some q) (m : Match) (h : Tracks options p s o) :
    Tracked options q (Session.act consume.logged options size a m s) := by
  have hsilent (he : p.step a = some p) : q = p := Option.some.inj (ha.symm.trans he)
  have hmoves {P : Prop} [Decidable P] {r : Place} (he : p.step a = if P then some r else none) : P ∧ q = r := by
    obtain ⟨hP, hr⟩ := Option.ite_none_right_eq_some.1 (he.symm.trans ha)
    exact ⟨hP, (Option.some.inj hr).symm⟩
  cases a with
  | beginJson =>
    obtain rfl := hsilent rfl
    exact deliver_tracks h.log rfl fun _ hlog =>
      ⟨hlog, h.kinds, h.begun, h.objects, h.arrays, h.depth, h.limit, h.name⟩
  | successEndJson =>
    obtain rfl := hsilent rfl
    simp only [Session.act]
    split
    · have hend : Tracked options q (s.endInFailure consume.logged .excessSource (some m.stop)) :=
        end_tracks (h.ended.keep _ _) false
      exact hend.outlines
    · exact end_tracks h.ended true
  | failedEndJson =>
    obtain rfl := hsilent rfl
    exact end_tracks (h.ended.keep _ _) false
  | malformedNumber =>
    obtain rfl := hsilent rfl
    exact ⟨o, h.keep _ _⟩
  | falseValue =>
    obtain ⟨hp, rfl⟩ := hmoves rfl
    exact scalar_tracks h hp _
  | nullValue =>
    obtain ⟨hp, rfl⟩ := hmoves rfl
    exact scalar_tracks h hp _
  | trueValue =>
    obtain ⟨hp, rfl⟩ := hmoves rfl
    exact scalar_tracks h hp _
  | numberValue =>
    obtain ⟨hp, rfl⟩ := hmoves rfl
    simp only [Session.act, Session.deliverNumber]
    cases s.number.scalar? with
    | none => exact fail_tracks h.unnamed.log _ _
    | some v => exact scalar_tracks h hp v
  | stringValue =>
    obtain ⟨hp, rfl⟩ := hmoves rfl
    simp only [Session.act]
    cases decode? options m with
    | none => exact fail_tracks h.log _ _
    | some text => exact scalar_tracks h hp _
  | beginMember =>
    obtain ⟨hp, rfl⟩ := hmoves rfl
    simp only [Session.act]
    cases decode? options m with
    | none => exact fail_tracks h.log _ _
    | some name =>
      have hbegun : o.begun = (!p.named.due || !p.opened.isEmpty) := by
        obtain ⟨rest, hrest⟩ := List.head?_eq_some_iff.1 hp.1
        rw [h.begun, hp.2, hrest]
        rfl
      exact ⟨o, h.log, h.kinds, hbegun, h.objects, h.arrays, h.depth, h.limit, fun _ => ⟨rfl, hp.1⟩⟩
  | endMember =>
    obtain rfl := hsilent rfl
    exact ⟨o, h.unnamed⟩
  | beginObject =>
    obtain ⟨hp, rfl⟩ := hmoves rfl
    exact enter_tracks h hp _ _
  | beginArray =>
    obtain ⟨hp, rfl⟩ := hmoves rfl
    exact enter_tracks h hp _ _
  | endObject =>
    obtain ⟨hp, rfl⟩ := hmoves rfl
    exact leave_tracks h hp
  | endArray =>
    obtain ⟨hp, rfl⟩ := hmoves rfl
    exact leave_tracks h hp
  | _ =>
    obtain rfl := hsilent rfl
    exact ⟨o, h.numbered _⟩

theorem feed_tracks {tr : List (Action × Match)} (htr : Place.follow tr p = some q) (h : Tracks options p s o) :
    Tracked options q (feed (Session.act consume.logged options size) tr s) := by
  induction tr generalizing p s o with
  | nil =>
    obtain rfl := Option.some.inj htr
    exact ⟨o, h⟩
  | cons r tr ih =>
    obtain ⟨a, m⟩ := r
    obtain ⟨p', ha, htr⟩ := Option.bind_eq_some_iff.1 htr
    have hact : Tracked options p' (Session.act consume.logged options size a m s) := act_tracks ha m h
    rw [feed]
    revert hact
    rcases Session.act consume.logged options size a m s with ⟨s', _ | _⟩
    · exact fun hrefused => hrefused
    · rintro ⟨o', htracks⟩
      exact ih htr htracks

theorem tracks_start (options : Options) (c : σ) : Tracks options {} ({ consumer := (c, []) } : Session (σ × Log)) {} :=
  ⟨rfl, rfl, rfl, rfl, rfl, rfl, Nat.zero_le _, fun hname => absurd rfl hname⟩

end Sessions

/-! ## Readings -/

section Readings

variable {σ : Type} (consume : Consumer σ) (options : Options) (text : String) (c : σ)

theorem outlines_walkText : ∃ o, Outlines (walkText consume.logged options text (c, [])).2.context o := by
  obtain ⟨q, hq⟩ := legal_reading options text
  have htracked : Tracked options q (feed (Session.act consume.logged options text.utf8ByteSize)
      (reading options text).2 { consumer := (c, []) }) := feed_tracks hq (tracks_start options c)
  obtain ⟨o, ho⟩ := htracked.outlines
  refine ⟨o, ?_⟩
  rcases hfeed : feed (Session.act consume.logged options text.utf8ByteSize) (reading options text).2
      { consumer := (c, []) }
    with ⟨s, _ | _⟩
  · rw [hfeed] at ho
    rw [(walkText_of_refusal hfeed).2]
    exact ho
  · rw [hfeed] at ho
    rw [(walkText_of_feed hfeed).2]
    exact ho

/-- The outline goes along with all that a consumer hears. -/
theorem follow_heard : ∃ o, Outline.follow ((heard consume options text c).map Prod.fst) {} = some o := by
  obtain ⟨o, ho⟩ := outlines_walkText consume options text c
  refine ⟨o, ?_⟩
  unfold heard read
  revert ho
  rcases walkText consume.logged options text (c, []) with ⟨outcome, state⟩
  dsimp only
  intro ho
  cases Failure.ofOutcome text.utf8ByteSize state.context.failure outcome with
  | none => exact ho
  | some failure =>
    dsimp only
    split
    · exact ho
    · exact ho.step (e := .endJson false) rfl consume

end Readings

end Grammar

end TableJson
