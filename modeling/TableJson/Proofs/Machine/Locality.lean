import TableJson.Proofs.Machine.Budget
import TableJson.Proofs.Machine.Rounds
import TableJson.Proofs.Machine.Text

/-!
# Locality — a scan knows what it has looked at

Two texts that are the same up to an offset are the same to a scan that looks at nothing from there on: it makes the
same moves and ends in the same way (`scan_follows`).
-/

namespace TableJson.Machine

open Utf8

section Locality

variable {τ α β : Type} (limit : Nat) (xs ys : List Char)

/-- The same position in two texts that go on with `xs` and `ys` from `limit` on. -/
def Cursor.Same (here there : Cursor) : Prop :=
  ∃ o cs, here = .text o (cs ++ xs) ∧ there = .text o (cs ++ ys) ∧ o + size cs = limit

/-- The same end, in two such texts. -/
inductive Outcome.Same : Outcome → Outcome → Prop
  | matched {here there : Cursor} (h : here.Same limit xs ys there) : Same (.matched here) (.matched there)
  | mismatch : Same .mismatch .mismatch
  | halted (h : Halt) : Same (.halted h) (.halted h)
  | exhausted : Same .exhausted .exhausted

/-- What looks at nothing from `limit` on in one text is done in the other text as well. -/
def Scan.Follows (a b : Scan (Move α)) : Prop :=
  (∀ k, .look k ∈ a.2 → k < limit) → b.2 = a.2 ∧ Outcome.Same limit xs ys a.1 b.1

variable {limit xs ys} {here there next next' : Cursor}

theorem Cursor.Same.offset (h : here.Same limit xs ys there) : there.offset = here.offset := by
  obtain ⟨o, cs, rfl, rfl, -⟩ := h
  rfl

/-- What lies between two positions before `limit` is the same. -/
theorem Cursor.Same.between (h : here.Same limit xs ys there) (h' : next.Same limit xs ys next') :
    Match.between there next' = Match.between here next := by
  obtain ⟨o, cs, rfl, rfl, hlimit⟩ := h
  obtain ⟨p, ds, rfl, rfl, hlimit'⟩ := h'
  have hlength : p - o ≤ (encode cs).length := by
    rw [length_encode]
    omega
  simp only [Match.between, Cursor.offset_text, Cursor.rest_text, encode_append,
    List.take_append_of_le_length hlength]

/-- An end without a match is the very same. -/
theorem Outcome.Same.eq {o o' : Outcome} (h : Outcome.Same limit xs ys o o') (ho : ∀ next, o ≠ .matched next) :
    o' = o := by
  cases h with
  | matched h => exact absurd rfl (ho _)
  | _ => rfl

namespace Scan

variable {a b c d : Scan (Move α)} {f f' : Cursor → Scan (Move α)}

theorem follows_end {o o' : Outcome} (h : Outcome.Same limit xs ys o o') :
    Follows limit xs ys ((o, []) : Scan (Move α)) (o', []) := fun _ => ⟨rfl, h⟩

theorem Follows.after (h : Follows limit xs ys a b) (ms : List (Move α)) :
    Follows limit xs ys (a.after ms) (b.after ms) := by
  intro hlooks
  obtain ⟨hmoves, hend⟩ := h fun k hk => hlooks k (List.mem_append_right _ hk)
  exact ⟨congrArg (ms ++ ·) hmoves, hend⟩

theorem Follows.fork (h : Follows limit xs ys a b)
    (hf : ∀ next next' : Cursor, next.Same limit xs ys next' → Follows limit xs ys (f next) (f' next'))
    (hg : Follows limit xs ys c d) : Follows limit xs ys (a.fork f c) (b.fork f' d) := by
  intro hlooks
  obtain ⟨hmoves, hend⟩ := h fun k hk => hlooks k ((prefix_fork a f c).subset hk)
  obtain ⟨o, ms⟩ := a
  obtain ⟨o', ms'⟩ := b
  obtain rfl : ms' = ms := hmoves
  cases hend with
  | matched hnext => exact (hf _ _ hnext).after ms' hlooks
  | mismatch => exact hg.after ms' hlooks
  | halted h => exact ⟨rfl, .halted _⟩
  | exhausted => exact ⟨rfl, .exhausted⟩

end Scan

open Scan

/-! ## Tests -/

theorem scanChar_follows (p : Char → Bool) (h : here.Same limit xs ys there) :
    Follows limit xs ys (scanChar p here : Scan (Move α)) (scanChar p there) := by
  obtain ⟨o, cs, rfl, rfl, hlimit⟩ := h
  intro hlooks
  have ho : o < limit := hlooks o (List.mem_singleton_self _)
  cases cs with
  | nil =>
    rw [size_nil] at hlimit
    omega
  | cons c cs =>
    rw [size_cons] at hlimit
    simp only [scanChar, List.cons_append, Cursor.char?_text_cons, Cursor.offset_text]
    refine ⟨trivial, ?_⟩
    by_cases hp : p c = true
    · rw [if_pos hp, if_pos hp]
      exact .matched ⟨o + c.utf8Size, cs, rfl, rfl, by omega⟩
    · rw [if_neg hp, if_neg hp]
      exact .mismatch

theorem commonLength_append [DecidableEq β] {as bs cs ws : List β} (h : commonLength (as ++ bs) ws < as.length) :
    commonLength (as ++ cs) ws = commonLength (as ++ bs) ws := by
  induction as generalizing ws with
  | nil => simp at h
  | cons a as ih =>
    cases ws with
    | nil => rfl
    | cons w ws =>
      rw [List.cons_append, List.cons_append, commonLength, commonLength]
      by_cases haw : a = w
      · rw [List.cons_append, commonLength, if_pos haw, List.length_cons] at h
        rw [if_pos haw, if_pos haw, ih (Nat.lt_of_succ_lt_succ h)]
      · rw [if_neg haw, if_neg haw]

theorem Cursor.advance_text (o : Nat) (cs ds : List Char) :
    (Cursor.text o (cs ++ ds)).advance (encode cs).length = .text (o + size cs) ds := by
  simp [Cursor.advance, Cursor.text, size]

theorem seq_follows (call : τ → Cursor → Scan (Move α)) (word : String) (h : here.Same limit xs ys there) :
    Follows limit xs ys (Matcher.scan call (.seq word) here) (Matcher.scan call (.seq word) there) := by
  obtain ⟨o, cs, rfl, rfl, hlimit⟩ := h
  intro hlooks
  have hlook : o + commonLength (encode (cs ++ xs)) (encode word.toList) < limit := hlooks _ (List.mem_singleton_self _)
  rw [encode_append] at hlook
  have hshort : commonLength (encode cs ++ encode xs) (encode word.toList) < (encode cs).length := by
    rw [length_encode]
    omega
  have hcommon : commonLength (encode cs ++ encode ys) (encode word.toList) =
      commonLength (encode cs ++ encode xs) (encode word.toList) := commonLength_append hshort
  simp only [Matcher.scan, Cursor.rest_text, Cursor.offset_text, encode_append, hcommon]
  refine ⟨trivial, ?_⟩
  by_cases hword : commonLength (encode cs ++ encode xs) (encode word.toList) = (encode word.toList).length
  · -- the word ends before the texts differ
    have hinit : encode word.toList <+: encode cs :=
      List.prefix_of_prefix_length_le (commonLength_eq_iff.1 hword) (List.prefix_append ..) (by omega)
    obtain ⟨rest, rfl⟩ := encode_isPrefix_iff.1 hinit
    rw [if_pos hword, if_pos hword, hword, List.append_assoc, List.append_assoc, Cursor.advance_text,
      Cursor.advance_text]
    refine .matched ⟨_, rest, rfl, rfl, ?_⟩
    rw [size_append] at hlimit
    omega
  · rw [if_neg hword, if_neg hword]
    exact .mismatch

theorem settle_follows (min count : Nat) (h : here.Same limit xs ys there) :
    Follows limit xs ys ((settle min count here, []) : Scan (Move α)) (settle min count there, []) := by
  refine follows_end ?_
  unfold settle
  split
  · exact .matched h
  · exact .mismatch

theorem repeatScan_follows {walk : Cursor → Scan (Move α)}
    (h : ∀ here there : Cursor, here.Same limit xs ys there → Follows limit xs ys (walk here) (walk there))
    (min : Nat) (max : Option Nat) (ahead : List UInt8) (count : Nat) (hsame : here.Same limit xs ys there) :
    Follows limit xs ys (repeatScan min max walk ahead count here) (repeatScan min max walk ahead count there) := by
  induction ahead generalizing count here there with
  | nil =>
    rw [repeatScan_eq, repeatScan_eq]
    split
    · refine (h here there hsame).fork (fun next next' hnext => ?_) (settle_follows min count hsame)
      rw [ite_self, ite_self]
      exact settle_follows min (count + 1) hnext
    · exact settle_follows min count hsame
  | cons b ahead ih =>
    rw [repeatScan_eq, repeatScan_eq]
    split
    · refine (h here there hsame).fork (fun next next' hnext => ?_) (settle_follows min count hsame)
      rw [hnext.offset, hsame.offset]
      split
      · exact settle_follows min (count + 1) hnext
      · exact ih (count + 1) hnext
    · exact settle_follows min count hsame

/-- The bytes that are ahead differ, but both texts leave room for all rounds. -/
theorem repetition_follows {walk : Cursor → Scan (Move α)} (hleads : ∀ here, (walk here).Leads here)
    (h : ∀ here there : Cursor, here.Same limit xs ys there → Follows limit xs ys (walk here) (walk there))
    (min : Nat) (max : Option Nat) (hsame : here.Same limit xs ys there) :
    Follows limit xs ys (repeatScan min max walk here.rest 0 here) (repeatScan min max walk there.rest 0 there) := by
  have hlength : (here.rest ++ there.rest).length = here.rest.length + there.rest.length := List.length_append
  have hrounds (pos : Cursor) (hpos : pos.rest.length ≤ (here.rest ++ there.rest).length) :
      repeatScan min max walk pos.rest 0 pos = repeatScan min max walk (here.rest ++ there.rest) 0 pos :=
    repeatScan_rounds min max hleads (Nat.le_refl _) hpos 0
  rw [hrounds here (by omega), hrounds there (by omega)]
  exact repeatScan_follows h min max _ 0 hsame

theorem test_follows {call : τ → Cursor → Scan (Move α)} (hleads : ∀ t here, (call t here).Leads here)
    (h : ∀ t (here there : Cursor), here.Same limit xs ys there → Follows limit xs ys (call t here) (call t there))
    (m : Matcher τ) (hsame : here.Same limit xs ys there) :
    Follows limit xs ys (m.scan call here) (m.scan call there) := by
  cases m with
  | nothing => exact follows_end (.matched hsame)
  | seq word => exact seq_follows call word hsame
  | oneOf set => exact scanChar_follows _ hsame
  | optOneOf set =>
    exact (scanChar_follows _ hsame).fork (fun _ _ hnext => follows_end (.matched hnext)) (follows_end (.matched hsame))
  | range lo hi => exact scanChar_follows _ hsame
  | table t => exact h t here there hsame
  | optTable t =>
    exact (h t here there hsame).fork (fun _ _ hnext => follows_end (.matched hnext)) (follows_end (.matched hsame))
  | repeatOneOf set min max =>
    exact repetition_follows (scanChar_leads _) (fun _ _ hsame => scanChar_follows _ hsame) min max hsame
  | repeatTable t min max => exact repetition_follows (hleads t) (h t) min max hsame

/-! ## Tables -/

theorem moves_eq (row : Row τ α) (h : here.Same limit xs ys there) (h' : next.Same limit xs ys next') :
    row.moves there next' = row.moves here next := by
  unfold Row.moves
  rw [h.between h', h'.offset]

theorem scanRows_follows {test : Matcher τ → Cursor → Scan (Move α)}
    (h : ∀ m (here there : Cursor), here.Same limit xs ys there → Follows limit xs ys (test m here) (test m there))
    (rows : List (Row τ α)) (steps i : Nat) (hsame : here.Same limit xs ys there) :
    Follows limit xs ys (scanRows test rows steps i here) (scanRows test rows steps i there) := by
  induction steps generalizing i here there with
  | zero => exact follows_end .exhausted
  | succ steps ih =>
    rw [scanRows, scanRows]
    cases rows[i]? with
    | none => exact follows_end .mismatch
    | some row =>
      refine (h row.matcher here there hsame).fork (fun next next' hnext => ?_) ?_
      · rw [moves_eq row hsame hnext]
        refine Follows.after ?_ _
        rcases row.status with _ | _ | _
        · rcases row.onMatch with _ | j
          · exact follows_end (.matched hnext)
          · exact ih j hnext
        · exact follows_end (.matched hnext)
        · dsimp only
          rw [hsame.offset]
          exact follows_end (.halted _)
      · rcases row.onFail with _ | j
        · exact follows_end .mismatch
        · exact ih j hsame

/-- A scan that looks at nothing from `limit` on does the same in every text that is the same up to there. -/
theorem scan_follows (program : Program τ α) (steps nest : Nat) (t : τ) (hsame : here.Same limit xs ys there) :
    Follows limit xs ys (scan program steps nest t here) (scan program steps nest t there) := by
  induction nest generalizing t here there with
  | zero => exact follows_end .exhausted
  | succ nest ih =>
    exact scanRows_follows (fun m _ _ => test_follows (scan_leads program steps nest) (fun t _ _ => ih t) m) (program t)
      steps 0 hsame

end Locality

end TableJson.Machine
