import TableJson.Builder
import TableJson.Proofs.Grammar.Tracking

/-!
# Bracketing — what is reported of any text

Whatever the text, the options and the consumer, the events that are reported before the end of the document are those
that some document begins with; an end of a container is never reported without its start.  So the builder, in whatever
state it was, never has to close a container where none is open (`heard_wellBracketed`).

* `Consumer.after`, `Consumer.answers`: what becomes of a consumer over events, one after another, and what it answers
  to them; a reading does nothing else with it (`read_of_heard`).
* `survives`: a builder takes or refuses events that an outline goes along with, but does not break off.
-/

namespace TableJson

open Grammar

/-! ## Consumers and what they hear -/

namespace Consumer

variable {σ : Type} (consume : Consumer σ)

/-- What a consumer has become after events, one after another. -/
def after (es : List Event) (c : σ) : σ := es.foldl (fun c e => (consume e c).1) c

/-- The events with the answers to them. -/
def answers : List Event → σ → Log
  | [], _ => []
  | e :: es, c => (e, (consume e c).2) :: answers es (consume e c).1

/-- The consumer that keeps the events it is handed, and answers as the other one does that was `c` at first. -/
def retold (c : σ) : Consumer (List Event) := fun e es => (es ++ [e], (consume e (consume.after es c)).2)

variable (es : List Event) (e : Event) (c : σ)

theorem after_concat : consume.after (es ++ [e]) c = (consume e (consume.after es c)).1 := by
  simp [after]

theorem answers_concat :
    consume.answers (es ++ [e]) c = consume.answers es c ++ [(e, (consume e (consume.after es c)).2)] := by
  induction es generalizing c with
  | nil => rfl
  | cons f es ih => exact congrArg _ (ih _)

theorem map_fst_answers : (consume.answers es c).map Prod.fst = es := by
  induction es generalizing c with
  | nil => rfl
  | cons e es ih => exact congrArg (e :: ·) (ih _)

end Consumer

/-- A reading hands events to the consumer one after another, and does nothing else with it. -/
theorem read_of_heard {σ : Type} (consume : Consumer σ) (options : Options) (text : String) (c : σ) :
    ∃ events, heard consume options text c = consume.answers events c ∧
      (read consume options text c).consumer = consume.after events c := by
  have hlogged (e : Event) (es : List Event) : consume.logged e (consume.after es c, consume.answers es c) =
      ((consume.after (consume.retold c e es).1 c, consume.answers (consume.retold c e es).1 c),
        (consume.retold c e es).2) := by
    simp only [Consumer.retold, Consumer.logged, Consumer.after_concat, Consumer.answers_concat]
  obtain ⟨hconsumer, -⟩ :=
    read_map (f := fun es => (consume.after es c, consume.answers es c)) hlogged options text []
  refine ⟨_, congrArg Prod.snd hconsumer, ?_⟩
  exact (read_logged consume options text c []).1.trans (congrArg Prod.fst hconsumer)

/-! ## Builders -/

section Builders

variable {b : Builder} {o o' : Outline} {e : Event} {es : List Event}

/-- A builder with a frame for each open container takes or refuses what may come, and goes on to have one. -/
theorem feed_of_step (h : o.step e = some o') (hframes : o.opened.length ≤ b.stack.length) :
    ∃ b' answer, b.feed e = .ok (b', answer) ∧ (answer = true → o'.opened.length ≤ b'.stack.length) := by
  obtain ⟨stack, root⟩ := b
  cases e with
  | scalar name v =>
    obtain ⟨-, rfl⟩ := Outline.step_scalar_iff.1 h
    rcases stack with _ | ⟨frame, stack⟩
    · cases root with
      | none => exact ⟨_, true, rfl, fun _ => hframes⟩
      | some root => exact ⟨_, false, rfl, fun hanswer => absurd hanswer (by simp)⟩
    · exact ⟨_, true, rfl, fun _ => hframes⟩
  | opened kind name =>
    obtain ⟨-, rfl⟩ := Outline.step_opened_iff.1 h
    simp only [Builder.feed, Builder.enter]
    split
    · exact ⟨_, false, rfl, fun hanswer => absurd hanswer (by simp)⟩
    · exact ⟨_, true, rfl, fun _ => Nat.succ_le_succ hframes⟩
  | closed kind name =>
    obtain ⟨rest, hrest, rfl⟩ := Outline.step_closed_iff.1 h
    rw [hrest] at hframes
    rcases stack with _ | ⟨frame, _ | ⟨outer, stack⟩⟩
    · simp at hframes
    · cases root with
      | none => exact ⟨_, true, rfl, fun _ => Nat.le_of_succ_le_succ hframes⟩
      | some root => exact ⟨_, false, rfl, fun hanswer => absurd hanswer (by simp)⟩
    · exact ⟨_, true, rfl, fun _ => Nat.le_of_succ_le_succ hframes⟩
  | _ =>
    obtain rfl := Option.some.inj h
    exact ⟨_, true, rfl, fun _ => hframes⟩

/-- A builder does not break off over events that an outline goes along with, if it refuses none but the last. -/
theorem survives (h : Outline.follow es o = some o') (hframes : o.opened.length ≤ b.stack.length)
    (htaken : ∀ q ∈ (Builder.consumer.answers es (.ok b)).dropLast, q.2 = true) :
    ∃ b', Builder.consumer.after es (.ok b) = .ok b' := by
  induction es generalizing o b with
  | nil => exact ⟨b, rfl⟩
  | cons e es ih =>
    obtain ⟨mid, hstep, hrest⟩ := Option.bind_eq_some_iff.1 h
    obtain ⟨b', answer, hfeed, hkept⟩ := feed_of_step hstep hframes
    have hanswer : Builder.consumer e (.ok b) = (.ok b', answer) := by
      simp only [Builder.consumer, hfeed]
    rw [Consumer.after, List.foldl_cons, hanswer]
    rw [Consumer.answers, hanswer] at htaken
    cases es with
    | nil => exact ⟨b', rfl⟩
    | cons f es =>
      -- the event before another one was taken
      rw [List.dropLast_cons_of_ne_nil (by simp [Consumer.answers])] at htaken
      have htrue : answer = true := htaken _ (List.mem_cons_self ..)
      exact ih hrest (hkept htrue) fun q hq => htaken q (List.mem_cons_of_mem _ hq)

end Builders

/-! ## Readings -/

/-- The events before the end of the document. -/
def beforeEnd (events : List Event) : List Event := events.takeWhile fun e => !e.isEnd

/-- What is heard before the end of a document is well-bracketed, whatever the text and the consumer; and no builder
breaks off over a text. -/
theorem heard_wellBracketed (options : Options) (text : String) :
    (∀ (σ : Type) (consume : Consumer σ) (c : σ),
      WellBracketed (beforeEnd ((heard consume options text c).map Prod.fst))) ∧
      ∀ b : Builder, ∃ b', (Grammar.read Builder.consumer options text (.ok b)).consumer = .ok b' := by
  constructor
  · intro σ consume c
    obtain ⟨o, ho⟩ := follow_heard consume options text c
    obtain ⟨answer, rest, hlog, hrest⟩ := (conduct_read consume options text c).protocol.begins
    rw [show heard consume options text c = (.beginJson, answer) :: rest from hlog, List.map_cons] at ho ⊢
    -- what is gone along with to its end is gone along with up to there
    obtain ⟨after, hafter⟩ : beforeEnd (rest.map Prod.fst) <+: rest.map Prod.fst := List.takeWhile_prefix _
    have hfollow : Outline.follow (rest.map Prod.fst) {} = some o := ho
    rw [← hafter, Outline.follow_append] at hfollow
    obtain ⟨o', ho', -⟩ := Option.bind_eq_some_iff.1 hfollow
    have hinner : ∀ e ∈ beforeEnd (rest.map Prod.fst), e ≠ .beginJson ∧ e.isEnd = false := by
      intro e he
      obtain ⟨q, hq, rfl⟩ := List.mem_map.1 ((List.takeWhile_prefix _).subset he)
      exact ⟨hrest q hq, by simpa using List.all_eq_true.1 List.all_takeWhile _ he⟩
    exact wellBracketed_of_follow ho' hinner
  · intro b
    obtain ⟨events, hheard, hconsumer⟩ := read_of_heard Builder.consumer options text (.ok b)
    obtain ⟨o, ho⟩ := follow_heard Builder.consumer options text (.ok b)
    rw [hheard, Consumer.map_fst_answers] at ho
    rw [hconsumer]
    refine survives ho (Nat.zero_le _) ?_
    rw [← hheard]
    exact (conduct_read Builder.consumer options text (.ok b)).taken

end TableJson
