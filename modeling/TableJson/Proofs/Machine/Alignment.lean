import TableJson.Machine.Recorder
import TableJson.Proofs.Machine.Rounds
import TableJson.Proofs.Machine.Text
import TableJson.Proofs.Machine.Watching

/-!
# Alignment — runs stay within the input, at whole characters

Tables may be cyclic, the input may be any bytes, and texts are compared byte by byte.  Still a run only ever goes on
after whole characters, and never looks beyond the end of the input.

* `Cursor.Reads`: from one position to the other lead whole characters of the input.
* `Move.Sound`: a walk looks at offsets of the input, and hands over what stands between two positions that it has read
  up to.  Each way of putting a scan together keeps that (`kept_sound`).
* `handing_within`, `matched_within`, `furthest_within`: one run, from any state of the machine.
* `runs_within`: several runs of one machine.
-/

namespace TableJson.Machine

open Utf8

variable {τ α σ : Type}

/-! ## Whole characters -/

/-- Whole characters lead from one position to the other. -/
def Cursor.Reads (here next : Cursor) : Prop :=
  ∃ cs, here.rest = encode cs ++ next.rest ∧ next.offset = here.offset + size cs

namespace Cursor.Reads

variable {here mid next : Cursor}

theorem refl (here : Cursor) : here.Reads here := ⟨[], rfl, rfl⟩

theorem trans (h : here.Reads mid) (h' : mid.Reads next) : here.Reads next := by
  obtain ⟨cs, hcs, ho⟩ := h
  obtain ⟨ds, hds, ho'⟩ := h'
  refine ⟨cs ++ ds, ?_, ?_⟩
  · rw [hcs, hds, encode_append, List.append_assoc]
  · rw [ho', ho, size_append, Nat.add_assoc]

theorem of_char? {p : Char → Bool} (h : here.char? p = some next) : here.Reads next := by
  obtain ⟨c, hrest, ho⟩ := eq_of_char? h
  exact ⟨[c], by simpa using hrest, by simpa using ho⟩

/-- A text that has been compared throughout has been read. -/
theorem of_word {text : String} (h : commonLength here.rest (encode text.toList) = (encode text.toList).length) :
    here.Reads (here.advance (commonLength here.rest (encode text.toList))) := by
  obtain ⟨rest, hrest⟩ := commonLength_eq_iff.1 h
  refine ⟨text.toList, ?_, by rw [h]; rfl⟩
  rw [h, Cursor.advance, ← hrest, List.drop_left]

/-- What lies ahead of a position ends where the input does. -/
theorem ends (h : here.Reads next) : next.offset + next.rest.length = here.offset + here.rest.length := by
  obtain ⟨cs, hcs, ho⟩ := h
  rw [hcs, ho, List.length_append, length_encode, Nat.add_assoc]

end Cursor.Reads

/-! ## Sound moves -/

/-- What a walk may do that starts `here`: look at offsets up to the end of the input, and hand over what it has read
between two positions. -/
inductive Move.Sound (here : Cursor) : Move α → Prop
  | look {k : Nat} (h : k ≤ here.offset + here.rest.length) : Sound here (.look k)
  | hand {a : α} {first last : Cursor} (h : here.Reads first) (h' : first.Reads last) :
      Sound here (.hand a (.between first last) last.offset)

theorem Move.Sound.mono {here mid : Cursor} {m : Move α} (hmid : here.Reads mid) (h : m.Sound mid) :
    m.Sound here := by
  cases h with
  | look h => exact .look (by rw [← hmid.ends]; exact h)
  | hand h h' => exact .hand (hmid.trans h) h'

/-- A scan that starts `here` reads up to where it matches, and its moves are sound. -/
structure Scan.Sound (here : Cursor) (x : Scan (Move α)) : Prop where
  reads : ∀ next, x.1 = .matched next → here.Reads next
  moves : ∀ m ∈ x.2, m.Sound here

namespace Scan.Sound

variable {here next : Cursor} {ms : List (Move α)} {x g : Scan (Move α)} {f : Cursor → Scan (Move α)}

theorem after (hmoves : ∀ m ∈ ms, m.Sound here) (hnext : here.Reads next) (h : x.Sound next) :
    Sound here (x.after ms) where
  reads there hthere := hnext.trans (h.reads there hthere)
  moves m hm := by
    rcases List.mem_append.1 hm with hm | hm
    · exact hmoves m hm
    · exact (h.moves m hm).mono hnext

theorem fork (hx : x.Sound here) (hf : ∀ next ms, x = (.matched next, ms) → (f next).Sound next) (hg : g.Sound here) :
    (x.fork f g).Sound here := by
  rcases x with ⟨next | _ | _ | _, ms⟩
  · exact after hx.moves (hx.reads next rfl) (hf next ms rfl)
  · exact after hx.moves (.refl here) hg
  · exact hx
  · exact hx

end Scan.Sound

/-- Each way of putting a scan together keeps its moves sound. -/
theorem kept_sound (program : Program τ α) (steps : Nat) :
    Kept program steps (fun _ => True) fun here x => x.Sound here where
  opens _ _ _ := trivial
  done here o _ hhere := ⟨fun next hnext => hhere next hnext ▸ .refl here, by simp⟩
  char p here := by
    refine ⟨fun next hnext => .of_char? (scanChar_eq_matched.1 hnext), fun m hm => ?_⟩
    obtain rfl := List.mem_singleton.1 hm
    exact .look (Nat.le_add_right ..)
  word call text here := by
    refine ⟨fun next hnext => ?_, fun m hm => ?_⟩
    · simp only [Matcher.scan] at hnext
      split at hnext
      · rename_i hcommon
        obtain rfl := Outcome.matched.inj hnext
        exact .of_word hcommon
      · simp at hnext
    · obtain rfl := List.mem_singleton.1 hm
      exact .look (Nat.add_le_add_left (commonLength_le _ _) _)
  fork hx hf hg := hx.fork hf hg
  row {_ _ row here next ms o} _ _ _ h hends := by
    have hnext := h.reads next rfl
    refine ⟨fun there hthere => ?_, fun m hm => ?_⟩
    · cases hends with
      | goes => exact Outcome.matched.inj hthere ▸ hnext
      | rejects => simp at hthere
    · rcases List.mem_append.1 hm with hm | hm
      · exact h.moves m hm
      · rw [Row.moves] at hm
        cases ha : row.action with
        | none => simp [ha] at hm
        | some a =>
          rw [ha] at hm
          obtain rfl := List.mem_singleton.1 hm
          exact .hand (.refl here) hnext

theorem scan_sound (program : Program τ α) (steps nest : Nat) (t : τ) (here : Cursor) :
    (scan program steps nest t here).Sound here :=
  (kept_sound program steps).scan nest trivial here

/-! ## Matches within the input -/

/-- The match lies in the input and is what stands there, which is well-formed UTF-8. -/
structure Match.Within (input : List UInt8) (m : Match) : Prop where
  start_le : m.start ≤ m.stop
  stop_le : m.stop ≤ input.length
  bytes_eq : m.bytes = (input.take m.stop).drop m.start
  valid : ∃ cs, decode? m.bytes = some cs

/-- What has been read between two positions. -/
theorem Cursor.Reads.between {here next : Cursor} (h : here.Reads next) :
    ∃ cs, Match.between here next = ⟨here.offset, encode cs⟩ ∧ here.rest = encode cs ++ next.rest ∧
      next.offset = here.offset + size cs := by
  obtain ⟨cs, hcs, ho⟩ := h
  refine ⟨cs, ?_, hcs, ho⟩
  rw [Match.between, ho, Nat.add_sub_cancel_left, hcs, ← length_encode, List.take_left]

theorem Cursor.Reads.within {input : List UInt8} {first last : Cursor} (h : (start input).Reads first)
    (h' : first.Reads last) :
    (Match.between first last).Within input ∧ (Match.between first last).stop = last.offset := by
  obtain ⟨pre, hpre, ho⟩ := h
  obtain ⟨cs, hm, hcs, hlast⟩ := h'.between
  have hstart : first.offset = (encode pre).length := by simpa [start, length_encode] using ho
  have hstop : (⟨first.offset, encode cs⟩ : Match).stop = (encode pre ++ encode cs).length := by
    rw [Match.stop, hstart, List.length_append]
  obtain rfl : input = (encode pre ++ encode cs) ++ last.rest := by
    rw [List.append_assoc, ← hcs]
    exact hpre
  rw [hm]
  refine ⟨⟨Nat.le_add_right .., ?_, ?_, cs, decode?_eq_some_iff.2 rfl⟩, ?_⟩
  · rw [hstop]
    exact (List.prefix_append ..).length_le
  · rw [hstop, List.take_left, hstart, List.drop_left]
  · rw [hlast]
    rfl

theorem Move.Sound.within {input : List UInt8} {a : α} {m : Match} {stop : Nat}
    (h : (Move.hand a m stop).Sound (.start input)) : m.Within input ∧ m.stop = stop := by
  cases h with
  | hand hfirst hlast => exact hfirst.within hlast

/-! ## One run -/

section Runs

variable (program : Program τ α) (act : Context α σ) (steps nest : Nat) (input : List UInt8)

/-- The moves that a context sees are those of the scan. -/
theorem run_furthest (t : τ) (here : Cursor) (s : State σ) :
    (run program act steps nest t here s).2.furthest =
      (replay act (scan program steps nest t here).2 s).1.furthest := by
  rw [run_eq_resume, Scan.resume]
  rcases replay act (scan program steps nest t here).2 s with ⟨s', _ | stop⟩ <;> rfl

theorem furthest_le_replay (ms : List (Move α)) (s : State σ) : s.furthest ≤ (replay act ms s).1.furthest := by
  induction ms generalizing s with
  | nil => exact Nat.le_refl _
  | cons m ms ih =>
    cases m with
    | look offset => exact Nat.le_trans (Nat.le_max_left _ _) (ih (s.reach offset))
    | hand a m stop =>
      rw [replay]
      rcases act a m s.context with ⟨c, _ | _⟩
      · exact Nat.le_refl _
      · exact ih { s with context := c }

/-- The largest offset that has been looked at is the one before, or one of those that the moves look at. -/
theorem replay_furthest_of {P : Nat → Prop} {ms : List (Move α)} {s : State σ} (hs : P s.furthest)
    (hms : ∀ k, .look k ∈ ms → P k) : P (replay act ms s).1.furthest := by
  induction ms generalizing s with
  | nil => exact hs
  | cons m ms ih =>
    have hlater (k : Nat) (hk : .look k ∈ ms) : P k := hms k (List.mem_cons_of_mem _ hk)
    cases m with
    | look offset =>
      refine ih (s := s.reach offset) ?_ hlater
      rcases Nat.le_total s.furthest offset with hle | hle
      · rw [State.reach, Nat.max_eq_right hle]
        exact hms offset (List.mem_cons_self ..)
      · rw [State.reach, Nat.max_eq_left hle]
        exact hs
    | hand a m stop =>
      rw [replay]
      rcases act a m s.context with ⟨c, _ | _⟩
      · exact hs
      · exact ih (s := { s with context := c }) hs hlater

variable {program act steps nest input} {t : τ} {s : State σ}

/-- What a context is handed lies in the input. -/
theorem handing_within {h : Handing α σ} (hmem : h ∈ handings program act steps nest t (.start input) s) :
    h.found.Within input := by
  rw [handings_eq] at hmem
  obtain ⟨before, after, hactions, -⟩ := mem_handed hmem
  have haction : h.event ∈ actions (scan program steps nest t (.start input)).2 :=
    hactions ▸ List.mem_append_right before (List.mem_cons_self ..)
  obtain ⟨stop, hhand⟩ := mem_actions.1 haction
  exact ((scan_sound program steps nest t (.start input)).moves _ hhand).within.1

/-- A table matches whole characters of the input. -/
theorem matched_within {next : Cursor} (h : (run program act steps nest t (.start input) s).1 = .matched next) :
    next.offset ≤ input.length ∧ ∃ cs, decode? (input.take next.offset) = some cs := by
  have hscan := scan_of_matched act (Prod.ext h rfl)
  obtain ⟨hwithin, hstop⟩ :=
    (Cursor.Reads.refl (.start input)).within ((scan_sound program steps nest t (.start input)).reads next hscan)
  exact ⟨hstop ▸ hwithin.stop_le, hwithin.valid⟩

theorem furthest_le_run (here : Cursor) : s.furthest ≤ (run program act steps nest t here s).2.furthest := by
  rw [run_furthest]
  exact furthest_le_replay act _ s

/-- A run does not look beyond the end of the input. -/
theorem furthest_within (hs : s.furthest ≤ input.length) :
    (run program act steps nest t (.start input) s).2.furthest ≤ input.length := by
  rw [run_furthest]
  refine replay_furthest_of act (P := fun k => k ≤ input.length) hs fun k hk => ?_
  cases (scan_sound program steps nest t (.start input)).moves _ hk with
  | look hle => simpa [Cursor.start] using hle

end Runs

/-! ## Several runs of one machine -/

/-- Runs several tables over one input, each from its start, with one context and one largest offset throughout. -/
def runs (program : Program τ α) (act : Context α σ) (steps nest : Nat) (input : List UInt8) :
    List τ → State σ → List (Outcome × State σ)
  | [], _ => []
  | t :: ts, s =>
    let ended := run program act steps nest t (.start input) s
    ended :: runs program act steps nest input ts ended.2

/-- What these runs hand to the context, in order. -/
def runsHandings (program : Program τ α) (act : Context α σ) (steps nest : Nat) (input : List UInt8) :
    List τ → State σ → List (Handing α σ)
  | [], _ => []
  | t :: ts, s =>
    handings program act steps nest t (.start input) s ++
      runsHandings program act steps nest input ts (run program act steps nest t (.start input) s).2

/-- The runs of a recorder are such runs. -/
theorem runAll_eq (program : Program τ α) (refused : Option Nat) (budget : Budget) (input : List UInt8) (ts : List τ)
    (s : State (Recorder α)) :
    runAll program refused budget input ts s =
      runs program (Recorder.context refused) budget.steps budget.nest input ts s := by
  induction ts generalizing s with
  | nil => rfl
  | cons t ts ih => exact congrArg (_ :: ·) (ih _)

section SeveralRuns

variable {program : Program τ α} {act : Context α σ} {steps nest : Nat} {input : List UInt8} {ts : List τ}
  {s : State σ}

theorem exists_of_mem_runs {r : Outcome × State σ} (h : r ∈ runs program act steps nest input ts s) :
    ∃ t s', r = run program act steps nest t (.start input) s' := by
  induction ts generalizing s with
  | nil => exact absurd h List.not_mem_nil
  | cons t ts ih =>
    rcases List.mem_cons.1 h with rfl | h
    · exact ⟨t, s, rfl⟩
    · exact ih h

theorem exists_of_mem_runsHandings {h : Handing α σ} (hmem : h ∈ runsHandings program act steps nest input ts s) :
    ∃ t s', h ∈ handings program act steps nest t (.start input) s' := by
  induction ts generalizing s with
  | nil => exact absurd hmem List.not_mem_nil
  | cons t ts ih =>
    rcases List.mem_append.1 hmem with hmem | hmem
    · exact ⟨t, s, hmem⟩
    · exact ih hmem

theorem furthest_le_runs : ∀ r ∈ runs program act steps nest input ts s, s.furthest ≤ r.2.furthest := by
  induction ts generalizing s with
  | nil => exact fun r hr => absurd hr List.not_mem_nil
  | cons t ts ih =>
    exact List.forall_mem_cons.2 ⟨furthest_le_run _, fun r hr => Nat.le_trans (furthest_le_run _) (ih r hr)⟩

theorem runs_furthest_sorted :
    ((runs program act steps nest input ts s).map fun r => r.2.furthest).Pairwise (· ≤ ·) := by
  induction ts generalizing s with
  | nil => exact .nil
  | cons t ts ih =>
    refine List.pairwise_cons.2 ⟨fun k hk => ?_, ih⟩
    obtain ⟨r, hr, rfl⟩ := List.mem_map.1 hk
    exact furthest_le_runs r hr

theorem runs_furthest_le (hs : s.furthest ≤ input.length) :
    ∀ r ∈ runs program act steps nest input ts s, r.2.furthest ≤ input.length := by
  induction ts generalizing s with
  | nil => exact fun r hr => absurd hr List.not_mem_nil
  | cons t ts ih => exact List.forall_mem_cons.2 ⟨furthest_within hs, ih (furthest_within hs)⟩

end SeveralRuns

section Machine

variable (program : Program τ α) (act : Context α σ) (steps nest : Nat) (input : List UInt8)

/-- Whatever the tables, the context and the input, the runs of one machine stay within the input.  What is handed over
and what is matched is well-formed UTF-8, and the largest offset looked at never decreases. -/
theorem runs_within (ts : List τ) (c : σ) :
    (∀ h ∈ runsHandings program act steps nest input ts { context := c }, h.found.Within input) ∧
      (∀ r ∈ runs program act steps nest input ts { context := c }, ∀ next, r.1 = .matched next →
        next.offset ≤ input.length ∧ ∃ cs, decode? (input.take next.offset) = some cs) ∧
      ((runs program act steps nest input ts { context := c }).map fun r => r.2.furthest).Pairwise (· ≤ ·) ∧
      ∀ r ∈ runs program act steps nest input ts { context := c }, r.2.furthest ≤ input.length := by
  refine ⟨fun h hh => ?_, fun r hr next hnext => ?_, runs_furthest_sorted, runs_furthest_le (Nat.zero_le _)⟩
  · obtain ⟨t, s, hmem⟩ := exists_of_mem_runsHandings hh
    exact handing_within hmem
  · obtain ⟨t, s, rfl⟩ := exists_of_mem_runs hr
    exact matched_within hnext

/-- One Greek letter. -/
def greek : Program Unit Unit := fun _ => [{ matcher := .range 'α' 'ω', status := .accept, action := some () }]

/-- Of a letter of two bytes and a byte that starts no character the letter is handed over. -/
theorem runs_within_greek : (⟨0, [206, 187]⟩ : Match).Within [206, 187, 255] := by
  have hhanded : runsHandings greek (fun _ _ c => (c, true)) 1 1 [206, 187, 255] [()] { context := () } =
      [⟨(), ⟨0, [206, 187]⟩, ()⟩] := by rfl
  exact (runs_within greek (fun _ _ c => (c, true)) 1 1 [206, 187, 255] [()] ()).1 ⟨(), ⟨0, [206, 187]⟩, ()⟩
    (hhanded ▸ List.mem_cons_self ..)

end Machine

end TableJson.Machine
