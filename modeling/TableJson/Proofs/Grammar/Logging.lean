import TableJson.Grammar.Read
import TableJson.Proofs.Machine.Watching

/-!
# Logging — watching a consumer

A consumer that also keeps a log of its events and answers reads as the consumer itself does (`read_logged`).

A walk asks its context for nothing but answers.  So if the states of one context are mapped to those of another, and
the answers agree, both walks go the same way (`run_map`, `read_map`).
-/

namespace TableJson

/-- The events that a consumer was handed, each with its answer. -/
abbrev Log := List (Event × Bool)

/-- The consumer that keeps a log beside what it keeps anyway. -/
def Consumer.logged {σ : Type} (consume : Consumer σ) : Consumer (σ × Log) := fun e (c, log) =>
  let answer := consume e c
  ((answer.1, log ++ [(e, answer.2)]), answer.2)

/-! ## Sessions -/

namespace Grammar

open Machine

variable {σ ρ : Type} {consume : Consumer σ} {consume' : Consumer ρ} {f : σ → ρ}

/-- The session with another consumer. -/
def Session.map (f : σ → ρ) (s : Session σ) : Session ρ := { s with consumer := f s.consumer }

section Map

variable (h : ∀ e c, consume' e (f c) = (f (consume e c).1, (consume e c).2))

include h

theorem deliver_map (e : Event) (s : Session σ) :
    (s.map f).deliver consume' e = ((s.deliver consume e).1.map f, (s.deliver consume e).2) := by
  simp only [Session.deliver, Session.map, h]

omit h in
theorem fail_map (code : ErrorCode) (offset : Option Nat) (s : Session σ) :
    (s.map f).fail code offset = ((s.fail code offset).1.map f, (s.fail code offset).2) := by
  unfold Session.fail
  rw [show (s.map f).failure = s.failure from rfl]
  cases s.failure <;> rfl

theorem endInFailure_map (code : ErrorCode) (offset : Option Nat) (s : Session σ) :
    (s.map f).endInFailure consume' code offset =
      ((s.endInFailure consume code offset).1.map f, (s.endInFailure consume code offset).2) := by
  have hfail := fail_map (f := f) code offset { s with ended := true }
  unfold Session.endInFailure
  rw [← deliver_map h]
  exact congrArg (fun t => Session.deliver consume' (.endJson false) t.1) hfail

theorem deliverScalar_map (v : Scalar) (s : Session σ) :
    (s.map f).deliverScalar consume' v = ((s.deliverScalar consume v).1.map f, (s.deliverScalar consume v).2) :=
  deliver_map h _ { s with memberName := "" }

theorem enter_map (options : Options) (kind : ContainerKind) (start : Nat) (s : Session σ) :
    (s.map f).enter consume' options kind start =
      ((s.enter consume options kind start).1.map f, (s.enter consume options kind start).2) := by
  unfold Session.enter
  rw [show (s.map f).depth = s.depth from rfl]
  split
  · exact fail_map ..
  · cases kind with
    | object =>
      exact deliver_map h _ { s with depth := s.depth + 1, memberName := "", objects := s.memberName :: s.objects }
    | array =>
      exact deliver_map h _ { s with depth := s.depth + 1, memberName := "", arrays := s.memberName :: s.arrays }

theorem act_map (options : Options) (size : Nat) (a : Action) (m : Match) (s : Session σ) :
    Session.act consume' options size a m (s.map f) =
      ((Session.act consume options size a m s).1.map f, (Session.act consume options size a m s).2) := by
  cases a with
  | beginJson => exact deliver_map h _ s
  | successEndJson =>
    simp only [Session.act]
    split
    · rw [endInFailure_map h]
    · exact deliver_map h _ { s with ended := true }
  | failedEndJson => exact endInFailure_map h _ _ s
  | falseValue => exact deliverScalar_map h _ _
  | nullValue => exact deliverScalar_map h _ _
  | trueValue => exact deliverScalar_map h _ _
  | numberValue =>
    simp only [Session.act, Session.deliverNumber, Session.map]
    cases s.number.scalar? with
    | none => exact fail_map _ _ { s with memberName := "" }
    | some v => exact deliverScalar_map h v _
  | malformedNumber =>
    simp only [Session.act]
    rw [fail_map]
  | stringValue =>
    simp only [Session.act]
    cases decode? options m with
    | none => exact fail_map _ _ s
    | some text => exact deliverScalar_map h _ _
  | beginMember =>
    simp only [Session.act]
    cases decode? options m with
    | none => exact fail_map _ _ s
    | some name => rfl
  | beginObject => exact enter_map h _ _ _ s
  | beginArray => exact enter_map h _ _ _ s
  | endObject => exact deliver_map h _ { s with depth := s.depth - 1, objects := s.objects.tail }
  | endArray => exact deliver_map h _ { s with depth := s.depth - 1, arrays := s.arrays.tail }
  | _ => rfl

/-- Consumers that answer alike make the same of a text. -/
theorem read_map (options : Options) (text : String) (c : σ) :
    (read consume' options text (f c)).consumer = f (read consume options text c).consumer ∧
      (read consume' options text (f c)).result = (read consume options text c).result := by
  have hwalk : walkText consume' options text (f c) =
      ((walkText consume options text c).1, (walkText consume options text c).2.map (Session.map f)) :=
    run_map (act_map h options _) rows rowsPerTable (nesting options) .jsonText _ { context := { consumer := c } }
  unfold read
  rw [hwalk]
  rcases walkText consume options text c with ⟨outcome, state⟩
  dsimp only [State.map, Session.map]
  cases Failure.ofOutcome text.utf8ByteSize state.context.failure outcome with
  | none => exact ⟨rfl, rfl⟩
  | some failure =>
    dsimp only
    rw [h]
    split <;> exact ⟨rfl, rfl⟩

end Map

/-- A log changes neither what a consumer keeps nor what a reading comes to. -/
theorem read_logged (consume : Consumer σ) (options : Options) (text : String) (c : σ) (log : Log) :
    (read consume options text c).consumer = (read consume.logged options text (c, log)).consumer.1 ∧
      (read consume options text c).result = (read consume.logged options text (c, log)).result :=
  read_map (f := Prod.fst) (fun _ _ => rfl) options text (c, log)

end Grammar

end TableJson
