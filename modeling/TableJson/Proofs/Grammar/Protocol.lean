import TableJson.Proofs.Grammar.Inner
import TableJson.Proofs.Grammar.Logging

/-!
# Protocol — what a consumer may rely on

Whatever the text and whatever a consumer answers, it hears of the start of the document first and once, and of its
end at most once and last.  A refusal ends the reading at once; what a reading comes to can be told from the last
event and its answer (`read_follows_protocol`).

* `Running`, `Stopped`: what an inner action makes of a session, if it is taken and if it is refused.
* `Closing`: what the end of a walk makes of the reading.
* `Verdict`, `Conduct`: what the last event decides, and how a reading goes until then.
-/

namespace TableJson

/-- An event that neither begins nor ends a document. -/
def Event.Inner (e : Event) : Prop := e ≠ .beginJson ∧ ∀ success, e ≠ .endJson success

/-- Inner events, all of which were taken. -/
def Log.Taken (log : Log) : Prop := ∀ p ∈ log, p.1.Inner ∧ p.2 = true

theorem Log.Taken.nil : Log.Taken [] := fun _ h => absurd h List.not_mem_nil

theorem Log.Taken.concat {log : Log} (h : log.Taken) {e : Event} (he : e.Inner) : Log.Taken (log ++ [(e, true)]) := by
  intro p hp
  rcases List.mem_append.1 hp with hp | hp
  · exact h p hp
  · rw [List.mem_singleton.1 hp]
    exact ⟨he, rfl⟩

/-- What a log tells of the result of a reading. -/
structure Protocol (log : Log) (result : Except ParseError Unit) : Prop where
  begins : ∃ answer rest, log = (.beginJson, answer) :: rest ∧ ∀ p ∈ rest, p.1 ≠ .beginJson
  /-- The end is reported at most once, and last. -/
  ends : ∀ i success answer, log[i]? = some (.endJson success, answer) → i + 1 = log.length
  /-- A refusal of another event is the last that happens. -/
  refused : ∀ i e, log[i]? = some (e, false) → (∀ success, e ≠ .endJson success) →
    i + 1 = log.length ∧ ∃ error, result = .error error ∧ error.code = .aborted
  /-- If no other event is refused, the end is reported, and decides. -/
  ended : (∀ p ∈ log, (∀ success, p.1 ≠ .endJson success) → p.2 = true) →
    ∃ success answer, log.getLast? = some (.endJson success, answer) ∧
      (success = true → answer = true → result = .ok ()) ∧
      (success = true → answer = false → ∃ error, result = .error error ∧ error.code = .aborted) ∧
      (success = false → ∃ error, result = .error error ∧ error.code ≠ .aborted)
  succeeded : result = .ok () ↔ (.endJson true, true) ∈ log

namespace Grammar

open Machine

/-- What a reading comes to by the last event and its answer. -/
inductive Verdict : Event → Bool → Except ParseError Unit → Prop
  | refused {e : Event} {error : ParseError} (he : ∀ success, e ≠ .endJson success) (hcode : error.code = .aborted) :
    Verdict e false (.error error)
  | completed : Verdict (.endJson true) true (.ok ())
  | withheld {error : ParseError} (hcode : error.code = .aborted) : Verdict (.endJson true) false (.error error)
  | failed {error : ParseError} (answer : Bool) (hcode : error.code ≠ .aborted) :
    Verdict (.endJson false) answer (.error error)

/-- How a reading goes, as its log and its result: it starts, inner events are taken, and one event decides. -/
inductive Conduct : Log → Except ParseError Unit → Prop
  | unheard {result : Except ParseError Unit} (h : Verdict .beginJson false result) :
      Conduct [(.beginJson, false)] result
  | heard {log : Log} {e : Event} {answer : Bool} {result : Except ParseError Unit} (htaken : log.Taken)
    (he : e ≠ .beginJson) (h : Verdict e answer result) : Conduct ((.beginJson, true) :: log ++ [(e, answer)]) result

section Sessions

variable {σ : Type} {consume : Consumer σ} {options : Options} {size : Nat} {s t : Session (σ × Log)}

/-- A session that goes on. -/
structure Running (s : Session (σ × Log)) : Prop where
  failure : s.failure = none
  ended : s.ended = false
  log : ∃ log : Log, log.Taken ∧ s.consumer.2 = (.beginJson, true) :: log

/-- A session that has refused an inner action: because the consumer did, or by itself. -/
inductive Stopped (s : Session (σ × Log)) : Prop
  | byConsumer (log : Log) (e : Event) (hfailure : s.failure = none) (hended : s.ended = false) (htaken : log.Taken)
    (he : e.Inner) (hlog : s.consumer.2 = (.beginJson, true) :: log ++ [(e, false)])
  | bySession (log : Log) (failure : Failure) (hfailure : s.failure = some failure) (hended : s.ended = false)
    (hcode : failure.code ≠ .aborted) (htaken : log.Taken) (hlog : s.consumer.2 = (.beginJson, true) :: log)

/-- What an inner action does to a running session. -/
def Steps : Session (σ × Log) × Bool → Prop
  | (s, true) => Running s
  | (s, false) => Stopped s

/-! ## Steps -/

theorem Running.update (hs : Running s) (hconsumer : t.consumer = s.consumer) (hfailure : t.failure = s.failure)
    (hended : t.ended = s.ended) : Running t := by
  obtain ⟨log, htaken, hlog⟩ := hs.log
  exact ⟨hfailure.trans hs.failure, hended.trans hs.ended, log, htaken, by rw [hconsumer, hlog]⟩

theorem deliver_steps (hs : Running s) {e : Event} (he : e.Inner) : Steps (s.deliver consume.logged e) := by
  obtain ⟨log, htaken, hlog⟩ := hs.log
  rw [Session.deliver]
  have hlogged : (consume.logged e s.consumer).1.2 =
      (.beginJson, true) :: log ++ [(e, (consume.logged e s.consumer).2)] := by
    rw [← hlog]
    rfl
  cases hanswer : (consume.logged e s.consumer).2 with
  | false => exact .byConsumer log e hs.failure hs.ended htaken he (by rw [hlogged, hanswer])
  | true => exact ⟨hs.failure, hs.ended, log ++ [(e, true)], htaken.concat he, by rw [hlogged, hanswer]; rfl⟩

theorem fail_steps (hs : Running s) (code : ErrorCode) (hcode : code ≠ .aborted) (offset : Option Nat) :
    Steps (s.fail code offset) := by
  obtain ⟨log, htaken, hlog⟩ := hs.log
  rw [Session.fail, hs.failure]
  exact .bySession log ⟨code, offset⟩ rfl hs.ended hcode htaken hlog

theorem scalar_steps (hs : Running s) (v : Scalar) : Steps (s.deliverScalar consume.logged v) :=
  deliver_steps (s := { s with memberName := "" }) (e := .scalar s.memberName v) (hs.update rfl rfl rfl)
    ⟨by simp, by simp⟩

theorem enter_steps (hs : Running s) (kind : ContainerKind) (offset : Nat) :
    Steps (s.enter consume.logged options kind offset) := by
  unfold Session.enter
  split
  · exact fail_steps hs .tooDeep (by decide) _
  · refine deliver_steps ?_ ⟨by simp, by simp⟩
    cases kind <;> exact hs.update rfl rfl rfl

theorem leave_steps (hs : Running s) (kind : ContainerKind) : Steps (s.leave consume.logged kind) := by
  cases kind with
  | object =>
    exact deliver_steps (s := { s with depth := s.depth - 1, objects := s.objects.tail })
      (e := .closed .object (s.objects.headD "")) (hs.update rfl rfl rfl) ⟨by simp, by simp⟩
  | array =>
    exact deliver_steps (s := { s with depth := s.depth - 1, arrays := s.arrays.tail })
      (e := .closed .array (s.arrays.headD "")) (hs.update rfl rfl rfl) ⟨by simp, by simp⟩

/-- An inner action is taken, and the session goes on, or it is refused. -/
theorem act_steps (hs : Running s) {a : Action} (ha : a.Inner) (m : Match) :
    Steps (Session.act consume.logged options size a m s) := by
  cases a with
  | beginJson => exact absurd rfl ha.1
  | successEndJson => exact absurd rfl ha.2.1
  | failedEndJson => exact absurd rfl ha.2.2.1
  | malformedNumber => exact absurd rfl ha.2.2.2
  | falseValue => exact scalar_steps hs _
  | nullValue => exact scalar_steps hs _
  | trueValue => exact scalar_steps hs _
  | numberValue =>
    simp only [Session.act, Session.deliverNumber]
    cases s.number.scalar? with
    | none => exact fail_steps (s := { s with memberName := "" }) (hs.update rfl rfl rfl) .badNumber (by decide) _
    | some v => exact scalar_steps hs v
  | stringValue =>
    simp only [Session.act]
    cases decode? options m with
    | none => exact fail_steps hs .badNumber (by decide) _
    | some text => exact scalar_steps hs _
  | beginMember =>
    simp only [Session.act]
    cases decode? options m with
    | none => exact fail_steps hs .badNumber (by decide) _
    | some name => exact hs.update rfl rfl rfl
  | beginObject => exact enter_steps hs _ _
  | beginArray => exact enter_steps hs _ _
  | endObject => exact leave_steps hs .object
  | endArray => exact leave_steps hs .array
  | _ => exact hs.update rfl rfl rfl

theorem feed_steps {tr : List (Action × Match)} (htr : AllInner tr) (hs : Running s) :
    Steps (feed (Session.act consume.logged options size) tr s) := by
  induction tr generalizing s with
  | nil => exact hs
  | cons p tr ih =>
    obtain ⟨a, m⟩ := p
    have hact : Steps (Session.act consume.logged options size a m s) := act_steps hs (htr _ (List.mem_cons_self ..)) m
    rw [feed]
    revert hact
    rcases Session.act consume.logged options size a m s with ⟨s', _ | _⟩
    · exact fun hstopped => hstopped
    · exact fun hrunning => ih (fun p hp => htr p (List.mem_cons_of_mem _ hp)) hrunning

/-! ## Ends -/

/-- The log in the end: a consumer that neither knows nor wanted it is told of the failure. -/
def finalLog (consume : Consumer σ) (code : ErrorCode) (s : Session (σ × Log)) : Log :=
  if s.ended || code == .aborted then s.consumer.2 else (consume.logged (.endJson false) s.consumer).1.2

theorem finalLog_aborted : finalLog consume .aborted s = s.consumer.2 := by
  rw [finalLog, if_pos (by simp)]

theorem finalLog_ended {code : ErrorCode} (h : s.ended = true) : finalLog consume code s = s.consumer.2 := by
  rw [finalLog, if_pos (by simp [h])]

theorem finalLog_open (consume : Consumer σ) {code : ErrorCode} (h : s.ended = false) (hcode : code ≠ .aborted) :
    ∃ answer, finalLog consume code s = s.consumer.2 ++ [(.endJson false, answer)] := by
  rw [finalLog, if_neg (by simp [h, hcode])]
  exact ⟨_, rfl⟩

/-- What the end of a walk makes of the reading. -/
def Closing (consume : Consumer σ) (size : Nat) (o : Outcome) (s : Session (σ × Log)) : Prop :=
  match Failure.ofOutcome size s.failure o with
  | none => Conduct s.consumer.2 (.ok ())
  | some failure => ∀ error : ParseError, error.code = failure.code →
    Conduct (finalLog consume failure.code s) (.error error)

theorem conduct_of_closing {text : String} {c : σ × Log} {o : Outcome}
    (hend : (walkText consume.logged options text c).1 = o)
    (hcontext : (walkText consume.logged options text c).2.context = s) (h : Closing consume text.utf8ByteSize o s) :
    Conduct (read consume.logged options text c).consumer.2 (read consume.logged options text c).result := by
  unfold read
  rcases hwalk : walkText consume.logged options text c with ⟨o', state⟩
  rw [hwalk] at hend hcontext
  subst hend hcontext
  unfold Closing at h
  dsimp only at h ⊢
  cases hfailure : Failure.ofOutcome text.utf8ByteSize state.context.failure o' with
  | none =>
    rw [hfailure] at h
    exact h
  | some failure =>
    rw [hfailure] at h
    dsimp only
    rw [apply_ite Prod.snd]
    exact h (ParseError.locate failure.code text (failure.offset.getD state.furthest)) rfl

theorem Stopped.closing (hs : Stopped s) (stop : Nat) : Closing consume size (.halted (.aborted stop)) s := by
  cases hs with
  | byConsumer log e hfailure hended htaken he hlog =>
    rw [Closing, hfailure]
    intro error hcode
    rw [Option.getD, finalLog_aborted, hlog]
    exact .heard htaken he.1 (.refused he.2 hcode)
  | bySession log failure hfailure hended hcode htaken hlog =>
    rw [Closing, hfailure]
    intro error herror
    obtain ⟨answer, hfinal⟩ := finalLog_open consume hended hcode
    rw [Option.getD, hfinal, hlog]
    exact .heard htaken (by simp) (.failed answer (herror ▸ hcode))

/-- Unless the document is complete, a session that still goes on closes with a failure. -/
theorem Running.closing (hs : Running s) {o : Outcome} (ho : o = .mismatch ∨ o = .exhausted) :
    Closing consume size o s := by
  obtain ⟨log, htaken, hlog⟩ := hs.log
  obtain ⟨answer, hfinal⟩ := finalLog_open consume hs.ended (show ErrorCode.badJson ≠ .aborted by decide)
  have hfailed : ∀ error : ParseError, error.code = .badJson →
      Conduct (finalLog consume .badJson s) (.error error) := by
    intro error herror
    rw [hfinal, hlog]
    exact .heard htaken (by simp) (.failed answer (by simp [herror]))
  rcases ho with rfl | rfl
  · exact hfailed
  · exact hfailed

/-- What a walk makes of the reading, if it would end as `o` and hands over its actions as told. -/
def Closes (consume : Consumer σ) (size : Nat) (o : Outcome) : Session (σ × Log) × Bool → Prop
  | (s, true) => Closing consume size o s
  | (s, false) => ∀ stop, Closing consume size (.halted (.aborted stop)) s

/-- Inner actions, and one more that closes the reading. -/
theorem closes_append {o : Outcome} {tr : List (Action × Match)} (htr : AllInner tr) (hs : Running s)
    {a : Action} {m : Match}
    (h : ∀ s, Running s → Closes consume size o (Session.act consume.logged options size a m s)) :
    Closes consume size o (feed (Session.act consume.logged options size) (tr ++ [(a, m)]) s) := by
  have hsteps : Steps (feed (Session.act consume.logged options size) tr s) := feed_steps htr hs
  rw [feed_append]
  revert hsteps
  rcases feed (Session.act consume.logged options size) tr s with ⟨s', _ | _⟩
  · exact fun hstopped => hstopped.closing
  · intro hrunning
    have hlast := h s' hrunning
    simp only [feed]
    revert hlast
    rcases Session.act consume.logged options size a m s' with ⟨s'', _ | _⟩ <;> exact fun hlast => hlast

theorem endInFailure_closing (hs : Running s) {code : ErrorCode} (hcode : code ≠ .aborted) (offset : Option Nat)
    {o : Outcome} (ho : Failure.ofOutcome size (some ⟨code, offset⟩) o = some ⟨code, offset⟩) :
    Closing consume size o (s.endInFailure consume.logged code offset).1 := by
  obtain ⟨log, htaken, hlog⟩ := hs.log
  rw [Session.endInFailure, Session.fail, hs.failure, Closing, Session.deliver]
  dsimp only
  rw [ho]
  intro error herror
  rw [finalLog_ended rfl]
  simp only [Consumer.logged, hlog]
  exact .heard htaken (by simp) (.failed _ (by rwa [herror]))

/-- The end of the document where it is, and what a consumer says to it. -/
theorem success_closes (hs : Running s) (next : Cursor) (hoffset : next.offset ≤ size) :
    Closes consume size (.matched next)
      (Session.act consume.logged options size .successEndJson (.between next next) s) := by
  have hstop : (Match.between next next).stop = next.offset := by simp [Match.stop, Match.between]
  rw [Session.act, hstop]
  by_cases hlt : next.offset < size
  · rw [if_pos hlt]
    exact fun stop => endInFailure_closing hs (by decide) _ rfl
  · rw [if_neg hlt]
    obtain ⟨log, htaken, hlog⟩ := hs.log
    have hlogged : (consume.logged (.endJson true) s.consumer).1.2 =
        (.beginJson, true) :: log ++ [(.endJson true, (consume.logged (.endJson true) s.consumer).2)] := by
      rw [← hlog]
      rfl
    rw [Session.deliver]
    cases hanswer : (consume.logged (.endJson true) s.consumer).2 with
    | false =>
      intro stop
      rw [Closing, hs.failure]
      intro error herror
      rw [Option.getD, finalLog_aborted, hlogged, hanswer]
      exact .heard htaken (by simp) (.withheld herror)
    | true =>
      have hend : Failure.ofOutcome size s.failure (.matched next) = none :=
        ofOutcome_eq_none.2 ⟨next, rfl, by omega⟩
      rw [Closes, Closing, hend, hlogged, hanswer]
      exact .heard htaken (by simp) .completed

theorem closes_of_both {o : Outcome} {r : Session (σ × Log) × Bool} (h : Closing consume size o r.1)
    (h' : ∀ stop, Closing consume size (.halted (.aborted stop)) r.1) : Closes consume size o r := by
  rcases r with ⟨s, _ | _⟩
  · exact h'
  · exact h

theorem Course.closes {x : Machine.Scan (Action × Match)} (hx : Course x) (hs : Running s)
    (hoffset : ∀ next, x.1 = .matched next → next.offset ≤ size) :
    Closes consume size x.1 (feed (Session.act consume.logged options size) x.2 s) := by
  cases hx with
  | success next hinner => exact closes_append hinner hs fun s hs => success_closes hs next (hoffset next rfl)
  | failure row offset m hinner =>
    refine closes_append hinner hs fun s hs => ?_
    exact closes_of_both (endInFailure_closing hs (by decide) _ rfl) fun stop =>
      endInFailure_closing hs (by decide) _ rfl
  | malformed row offset m hinner =>
    refine closes_append hinner hs fun s hs => ?_
    obtain ⟨log, htaken, hlog⟩ := hs.log
    rw [Session.act, Session.fail, hs.failure]
    intro error herror
    obtain ⟨answer, hfinal⟩ := finalLog_open consume
      (s := { s with failure := some ⟨.badNumber, some m.start⟩ }) hs.ended
      (show ErrorCode.badNumber ≠ .aborted by decide)
    rw [Option.getD, hfinal, hlog]
    exact .heard htaken (by simp) (.failed answer (by simp [herror]))
  | @unfinished o tr ho hinner =>
    have hsteps : Steps (feed (Session.act consume.logged options size) tr s) := feed_steps hinner hs
    dsimp only
    revert hsteps
    rcases feed (Session.act consume.logged options size) tr s with ⟨s', _ | _⟩
    · exact fun hstopped => hstopped.closing
    · exact fun hrunning => hrunning.closing ho

theorem conduct_read (consume : Consumer σ) (options : Options) (text : String) (c : σ) :
    Conduct (read consume.logged options text (c, [])).consumer.2
      (read consume.logged options text (c, [])).result := by
  obtain ⟨m, x, hreading, hcourse⟩ := reading_course options text
  have hout : (reading options text).1 = x.1 := by rw [hreading]; rfl
  have htrace : (reading options text).2 = (.beginJson, m) :: x.2 := by rw [hreading]; rfl
  have hoffset (next : Cursor) (h : x.1 = .matched next) : next.offset ≤ text.utf8ByteSize :=
    offset_le_of_reading (hout.trans h)
  -- what the whole trace makes of the session
  have hcloses : Closes consume text.utf8ByteSize (reading options text).1
      (feed (Session.act consume.logged options text.utf8ByteSize) (reading options text).2
        { consumer := (c, []) }) := by
    rw [hout, htrace, feed, Session.act, Session.deliver]
    rcases hanswer : consume .beginJson c with ⟨c', _ | _⟩
    · simp only [Consumer.logged, hanswer, List.nil_append]
      intro stop error herror
      change Conduct (finalLog consume .aborted _) _
      rw [finalLog_aborted]
      exact .unheard (.refused (by simp) herror)
    · simp only [Consumer.logged, hanswer, List.nil_append]
      exact hcourse.closes ⟨rfl, rfl, [], .nil, rfl⟩ hoffset
  rcases hfeed : feed (Session.act consume.logged options text.utf8ByteSize) (reading options text).2
      { consumer := (c, []) }
    with ⟨s, _ | _⟩
  · obtain ⟨⟨stop, hend⟩, hcontext⟩ := walkText_of_refusal hfeed
    rw [hfeed] at hcloses
    exact conduct_of_closing hend hcontext (hcloses stop)
  · obtain ⟨hend, hcontext⟩ := walkText_of_feed hfeed
    rw [hfeed] at hcloses
    exact conduct_of_closing hend hcontext hcloses

end Sessions

/-! ## What the log tells -/

section Logs

variable {log : Log} {e : Event} {answer : Bool} {result : Except ParseError Unit}

theorem getElem?_concat_eq_some {init : Log} {p q : Event × Bool} {i : Nat} (h : (init ++ [q])[i]? = some p) :
    p ∈ init ∨ i + 1 = (init ++ [q]).length ∧ p = q := by
  rw [List.getElem?_append] at h
  split at h
  · exact Or.inl (List.mem_of_getElem? h)
  · have hlt : i - init.length < [q].length := (List.getElem?_eq_some_iff.1 h).1
    have hi : i - init.length = 0 := by simpa using hlt
    rw [hi] at h
    refine Or.inr ⟨?_, (Option.some.inj h).symm⟩
    rw [List.length_append, List.length_singleton]
    omega

/-- Only the last event may be the end of the document or may have been refused. -/
theorem protocol_of_verdict (init : Log)
    (hbegins : ∃ a rest, init ++ [(e, answer)] = (.beginJson, a) :: rest ∧ ∀ p ∈ rest, p.1 ≠ .beginJson)
    (hinit : ∀ p ∈ init, (∀ success, p.1 ≠ .endJson success) ∧ p.2 = true) (h : Verdict e answer result) :
    Protocol (init ++ [(e, answer)]) result where
  begins := hbegins
  ends i success answer' hi := by
    rcases getElem?_concat_eq_some hi with hmem | ⟨hlast, -⟩
    · exact absurd rfl ((hinit _ hmem).1 success)
    · exact hlast
  refused i e' hi he' := by
    rcases getElem?_concat_eq_some hi with hmem | ⟨hlast, heq⟩
    · exact absurd (hinit _ hmem).2 (by simp)
    · obtain ⟨rfl, rfl⟩ := Prod.mk.inj heq
      cases h with
      | refused he hcode => exact ⟨hlast, _, rfl, hcode⟩
      | withheld => exact absurd rfl (he' true)
      | failed => exact absurd rfl (he' false)
  ended hall := by
    have hlast := hall (e, answer) (List.mem_append_right _ (List.mem_singleton_self _))
    rw [List.getLast?_concat]
    cases h with
    | refused he hcode => exact absurd (hlast he) (by simp)
    | completed => exact ⟨true, true, rfl, fun _ _ => rfl, by simp, by simp⟩
    | withheld hcode => exact ⟨true, false, rfl, by simp, fun _ _ => ⟨_, rfl, hcode⟩, by simp⟩
    | failed answer hcode => exact ⟨false, answer, rfl, by simp, by simp, fun _ => ⟨_, rfl, hcode⟩⟩
  succeeded := by
    have hmem : (Event.endJson true, true) ∈ init ++ [(e, answer)] ↔ (e, answer) = (.endJson true, true) := by
      rw [List.mem_append, List.mem_singleton, eq_comm, or_iff_right]
      exact fun hmem => (hinit _ hmem).1 true rfl
    rw [hmem]
    cases h with
    | refused he hcode => simp
    | completed => simp
    | withheld hcode => simp
    | failed answer hcode => simp

theorem Conduct.protocol (h : Conduct log result) : Protocol log result := by
  cases h with
  | unheard h => exact protocol_of_verdict [] ⟨_, [], rfl, by simp⟩ (by simp) h
  | @heard log e answer _ htaken he h =>
    refine protocol_of_verdict ((.beginJson, true) :: log) ⟨true, log ++ [(e, answer)], rfl, ?_⟩ ?_ h
    · intro p hp
      rcases List.mem_append.1 hp with hp | hp
      · exact (htaken p hp).1.1
      · rwa [List.mem_singleton.1 hp]
    · intro p hp
      rcases List.mem_cons.1 hp with rfl | hp
      · exact ⟨by simp, rfl⟩
      · exact ⟨(htaken p hp).1.2, (htaken p hp).2⟩

end Logs

/-- Whatever the text and the consumer, a reading keeps to the protocol; keeping a log changes nothing. -/
theorem read_follows_protocol {σ : Type} (consume : Consumer σ) (options : Options) (text : String) (c : σ) :
    let logged := read consume.logged options text (c, [])
    (read consume options text c).consumer = logged.consumer.1 ∧
      (read consume options text c).result = logged.result ∧ Protocol logged.consumer.2 logged.result := by
  obtain ⟨hconsumer, hresult⟩ := read_logged consume options text c []
  exact ⟨hconsumer, hresult, (conduct_read consume options text c).protocol⟩

end Grammar

end TableJson
