import TableJson.Proofs.Builder.Composing

/-!
# Using — a builder whatever it is handed

Events may come to a builder in any order, and it may be handed more of them after it has refused one or has broken off
over one.  `Builder.call` is one event with the builder that it leaves in each of these cases, and `Builder.used` goes
through a list of them.

The events so far say what has become of a new builder (`accounts_used`): they told of nothing, or there are containers
that have begun and not ended (`Pending`), or a value was completed at top level, and then the builder has come to rest
with it.  What may be relied on after any use follows from that (`kept_used`).
-/

namespace TableJson.Builder

/-! ## One event after another -/

/-- One event: the builder that it leaves, and the answer or the violation.  The end of a container takes the innermost
frame off before it looks whether there was one. -/
def call (e : Event) (b : Builder) : Builder × Except Violation Bool :=
  match e with
  | .beginJson | .endJson _ => (b, .ok true)
  | .opened kind name => ((b.enter kind name).1, .ok (b.enter kind name).2)
  | .scalar name v => ((b.attach name v.toValue).1, .ok (b.attach name v.toValue).2)
  | .closed _ _ =>
    let popped := { b with stack := b.stack.tail }
    match b.stack.head? with
    | none => (popped, .error .nothingOpen)
    | some frame =>
      ((popped.attach frame.name frame.container.toValue).1, .ok (popped.attach frame.name frame.container.toValue).2)

/-- The builder after events, whatever it has made of each of them. -/
def used (es : List Event) (b : Builder) : Builder := es.foldl (fun b e => (b.call e).1) b

variable {b b' : Builder} {e : Event} {es fs : List Event} {stack : List Frame} {v : Value}

/-- Taking an event is a call that comes to an answer. -/
theorem feed_eq_call (e : Event) (b : Builder) :
    b.feed e =
      match b.call e with
      | (b', .ok answer) => .ok (b', answer)
      | (_, .error violation) => .error violation := by
  obtain ⟨stack, root⟩ := b
  cases e with
  | closed kind name => cases stack <;> rfl
  | _ => rfl

theorem call_of_consumer (h : Builder.consumer e (.ok b) = (.ok b', true)) : b.call e = (b', .ok true) := by
  rcases hcall : b.call e with ⟨next, violation | answer⟩
  · simp [Builder.consumer, feed_eq_call, hcall] at h
  · simp only [Builder.consumer, feed_eq_call, hcall] at h
    obtain ⟨hnext, rfl⟩ := Prod.mk.inj h
    rw [Except.ok.inj hnext]

theorem used_append : used (es ++ fs) b = used fs (used es b) := List.foldl_append

/-- Events that are all taken lead a builder to the same place. -/
theorem used_of_feed (h : Builder.consumer.feed es (.ok b) = (.ok b', true)) : used es b = b' := by
  induction es generalizing b with
  | nil => exact Except.ok.inj (congrArg Prod.fst h)
  | cons e es ih =>
    rw [Consumer.feed] at h
    rcases hstep : Builder.consumer e (.ok b) with ⟨_ | mid, _ | _⟩
    · simp [hstep] at h
    · -- a violation is never an answer
      unfold Builder.consumer at hstep
      dsimp only at hstep
      split at hstep <;> simp at hstep
    · simp [hstep] at h
    · rw [hstep] at h
      rw [used, List.foldl_cons, call_of_consumer hstep]
      exact ih h

/-! ## Builders at rest -/

/-- A builder with its root is left as it is by every event. -/
theorem call_of_root (e : Event) (v : Value) : (call e ⟨[], some v⟩).1 = ⟨[], some v⟩ := by
  cases e <;> rfl

theorem used_of_root (es : List Event) (v : Value) : used es ⟨[], some v⟩ = ⟨[], some v⟩ := by
  induction es with
  | nil => rfl
  | cons e es ih => rw [used, List.foldl_cons, call_of_root]; exact ih

/-- A new builder is left as it is until a value starts. -/
theorem call_of_idle (he : e.starts? = none) : (call e {}).1 = {} := by
  cases e with
  | scalar name v => simp [Event.starts?] at he
  | opened kind name => simp [Event.starts?] at he
  | _ => rfl

theorem used_of_idle (h : Idle es) : used es {} = {} := by
  induction es with
  | nil => rfl
  | cons e es ih =>
    rw [used, List.foldl_cons, call_of_idle (h e (List.mem_cons_self ..))]
    exact ih fun f hf => h f (List.mem_cons_of_mem _ hf)

/-- The first value that is told of at top level is the root. -/
theorem used_of_completes (h : Completes es v) : used es {} = ⟨[], some v⟩ := by
  obtain ⟨name, before, telling, after, rfl, hidle, htells⟩ := h
  have hfeed : Builder.consumer.feed telling (.ok {}) = (.ok (attachAll [(name, v)] {}), true) :=
    feed_of_tells htells (hasRoom_of_open (Or.inr rfl) name v)
  rw [used_append, used_of_idle hidle, used_append, used_of_feed hfeed]
  exact used_of_root after v

/-! ## What has become of a new builder -/

/-- Containers that have begun and not ended, innermost first, with what they hold so far. -/
inductive Pending : List Event → List Frame → Prop
  | outside {es : List Event} (h : Idle es) : Pending es []
  | inside {before inner : List Event} {entries : List (String × Value)} {stack : List Frame} (kind : ContainerKind)
    (name : String) (houter : Pending before stack) (hinner : Tells inner entries) :
    Pending (before ++ .opened kind name :: inner) (⟨name, Grammar.attachAll entries (.empty kind)⟩ :: stack)

/-- How a builder stands that some events were handed to. -/
inductive Accounts : List Event → Builder → Prop
  | pending {es : List Event} {stack : List Frame} (h : Pending es stack) : Accounts es ⟨stack, none⟩
  | complete {es : List Event} {v : Value} (h : Completes es v) : Accounts es ⟨[], some v⟩

/-- A value is told of to the end, after what is pending. -/
theorem Pending.value {name : String} (h : Pending es stack) (htells : Tells fs [(name, v)]) :
    Accounts (es ++ fs) (attach name v ⟨stack, none⟩).1 := by
  cases h with
  | outside hidle => exact .complete ⟨name, es, fs, [], by rw [List.append_nil], hidle, htells⟩
  | @inside before inner entries stack kind outer houter hinner =>
    have hentries := hinner.append htells
    rw [List.append_assoc, List.cons_append]
    have hframe : (Grammar.attachAll entries (.empty kind)).attach name v =
        Grammar.attachAll (entries ++ [(name, v)]) (.empty kind) := by
      simp [Grammar.attachAll]
    show Accounts _ ⟨⟨outer, (Grammar.attachAll entries (.empty kind)).attach name v⟩ :: stack, none⟩
    rw [hframe]
    exact .pending (.inside kind outer houter hentries)

theorem Pending.silent (h : Pending es stack) (he : e.isSilent = true) : Pending (es ++ [e]) stack := by
  cases h with
  | outside hidle =>
    refine .outside (idle_concat hidle ?_)
    cases e <;> simp [Event.isSilent, Event.starts?] at he ⊢
  | inside kind name houter hinner =>
    rw [List.append_assoc, List.cons_append]
    exact .inside kind name houter (hinner.concat_silent he)

/-- One more event, whatever it is. -/
theorem Accounts.step (h : Accounts es b) (e : Event) : Accounts (es ++ [e]) (b.call e).1 := by
  cases h with
  | complete h =>
    rw [call_of_root]
    exact .complete (h.append [e])
  | @pending stack h =>
    cases e with
    | beginJson => exact .pending (h.silent rfl)
    | endJson success => exact .pending (h.silent rfl)
    | scalar name v => exact h.value (.scalar name v .nil)
    | opened kind name =>
      have hopened : call (.opened kind name) ⟨stack, none⟩ = (⟨⟨name, .empty kind⟩ :: stack, none⟩, .ok true) := by
        simp [call, enter]
      rw [hopened]
      exact .pending (.inside kind name h .nil)
    | closed closing last =>
      cases h with
      | outside hidle => exact .pending (.outside (idle_concat hidle rfl))
      | @inside before inner entries stack kind name houter hinner =>
        rw [List.append_assoc, List.cons_append]
        have hvalue := houter.value (Tells.single kind closing name last hinner)
        rwa [← toValue_attachAll_empty] at hvalue

/-- More events, one after another. -/
theorem Accounts.run (h : Accounts es b) (fs : List Event) : Accounts (es ++ fs) (used fs b) := by
  induction fs generalizing es b with
  | nil => rwa [List.append_nil]
  | cons e fs ih =>
    rw [List.append_cons]
    exact ih (h.step e)

/-- However it was used, the events account for what a new builder has become. -/
theorem accounts_used (es : List Event) : Accounts es (used es {}) :=
  Accounts.run (.pending (.outside fun _ h => absurd h List.not_mem_nil)) es

theorem root_used_iff (es : List Event) (v : Value) : (used es {}).root = some v ↔ Completes es v := by
  constructor
  · intro h
    have haccounts := accounts_used es
    revert h haccounts
    generalize used es {} = b
    rintro h (hpending | hcomplete)
    · simp at h
    · rwa [Option.some.inj h] at hcomplete
  · intro h
    rw [used_of_completes h]

/-! ## What may be relied on -/

/-- What holds of a builder that the events were handed to. -/
structure Kept (es : List Event) (b : Builder) : Prop where
  /-- With a root nothing is open. -/
  rooted : b.root ≠ none → b.stack = []
  /-- A root stays, whatever comes. -/
  stays (v : Value) (hroot : b.root = some v) (fs : List Event) : (b.used fs).root = some v
  /-- The end of a container is a violation exactly where none is open, and then changes nothing; elsewhere it is
  taken. -/
  closes (kind : ContainerKind) (name : String) :
    (b.stack = [] ∧ b.call (.closed kind name) = (b, .error .nothingOpen)) ∨
      (b.stack ≠ [] ∧ (b.call (.closed kind name)).2 = .ok true)
  /-- No other event is a violation. -/
  answers (e : Event) (he : ∀ kind name, e ≠ .closed kind name) : ∃ answer, (b.call e).2 = .ok answer
  /-- What is refused is the start of a second value at top level, and nothing else. -/
  refuses (e : Event) : (b.call e).2 = .ok false ↔ e.starts? ≠ none ∧ ∃ v, Completes es v
  /-- A refusal changes nothing. -/
  refused (e : Event) (he : (b.call e).2 = .ok false) : (b.call e).1 = b
  /-- The value built is the first one that was completed at top level. -/
  completed (v : Value) (hv : Completes es v) : b.finish = v
  /-- Without one it is null. -/
  unfinished (hnone : ∀ v, ¬ Completes es v) : b.finish = .null

/-- A builder with its root refuses what starts a value, and answers no end of a container. -/
theorem answer_of_root (e : Event) (v : Value) :
    (call e ⟨[], some v⟩).2 =
      match e with
      | .closed _ _ => .error .nothingOpen
      | .opened _ _ | .scalar _ _ => .ok false
      | .beginJson | .endJson _ => .ok true := by
  cases e <;> rfl

/-- A builder without a root refuses nothing, and breaks off only over an end where nothing is open. -/
theorem answer_of_pending (e : Event) (stack : List Frame) :
    (call e ⟨stack, none⟩).2 =
      match e, stack with
      | .closed _ _, [] => .error .nothingOpen
      | _, _ => .ok true := by
  cases e with
  | opened kind name => cases stack <;> rfl
  | scalar name v => cases stack <;> rfl
  | closed kind name => rcases stack with _ | ⟨frame, _ | ⟨outer, stack⟩⟩ <;> rfl
  | _ => rfl

theorem kept_of_root {v : Value} (h : Completes es v) : Kept es ⟨[], some v⟩ where
  rooted _ := rfl
  stays w hroot fs := by rw [used_of_root]; exact hroot
  closes kind name := Or.inl ⟨rfl, rfl⟩
  answers e he := by
    cases e with
    | closed kind name => exact absurd rfl (he kind name)
    | _ => exact ⟨_, answer_of_root _ v⟩
  refuses e := by
    rw [answer_of_root]
    have hv : ∃ v, Completes es v := ⟨v, h⟩
    cases e <;> simp [Event.starts?, hv]
  refused e _ := call_of_root e v
  completed w hw := by
    have hroot := used_of_completes h
    rw [used_of_completes hw] at hroot
    exact (Option.some.inj (congrArg Builder.root hroot)).symm
  unfinished hnone := absurd h (hnone v)

theorem kept_of_pending (h : used es {} = ⟨stack, none⟩) : Kept es ⟨stack, none⟩ := by
  have hnone (v : Value) : ¬ Completes es v := fun hv => by
    have hroot := (root_used_iff es v).2 hv
    rw [h] at hroot
    simp at hroot
  have hanswer (e : Event) : (call e ⟨stack, none⟩).2 ≠ .ok false := by
    rw [answer_of_pending]
    split <;> simp
  exact {
    rooted := fun hroot => absurd rfl hroot
    stays := fun v hroot => by simp at hroot
    closes := fun kind name => by
      cases stack with
      | nil => exact Or.inl ⟨rfl, rfl⟩
      | cons frame stack => exact Or.inr ⟨List.cons_ne_nil _ _, answer_of_pending _ _⟩
    answers := fun e he => by
      rw [answer_of_pending]
      split
      · exact absurd rfl (he _ _)
      · exact ⟨true, rfl⟩
    refuses := fun e => ⟨fun he => absurd he (hanswer e), fun he => absurd he.2.choose_spec (hnone _)⟩
    refused := fun e he => absurd he (hanswer e)
    completed := fun v hv => absurd hv (hnone v)
    unfinished := fun _ => rfl }

/-- A new builder keeps to this whatever it is handed, in whatever order, refusals and violations among it. -/
theorem kept_used (es : List Event) : Kept es (used es {}) := by
  have haccounts := accounts_used es
  rcases hb : used es {} with ⟨stack, root⟩
  rw [hb] at haccounts
  cases haccounts with
  | complete h => exact kept_of_root h
  | pending h => exact kept_of_pending hb

end TableJson.Builder
