import TableJson.Proofs.Machine.Budget
import TableJson.Proofs.Machine.Text

/-!
# Paths — the words of a table, and where a scan may look

The rows of a table are also a grammar: a `Path` through them goes on or leaves after a match, and goes on after a
mismatch, whatever the other rows would take.  Its words are those that a walk could take, if it never tried another row
first.

A scan takes words of its table only, and looks at nothing beyond what may still become one: what stands before any
offset that it looks at is the start of a word (`scan_spells`).
-/

namespace TableJson.Machine

open Utf8

/-! ## Words -/

/-- One character of a class. -/
def Single (p : Char → Bool) (w : List Char) : Prop := ∃ c, p c = true ∧ w = [c]

/-- Between `min` and `max` words of `Q`. -/
def Repeats (Q : List Char → Prop) (min : Nat) (max : Option Nat) (w : List Char) : Prop :=
  ∃ ws : List (List Char), (∀ v ∈ ws, Q v) ∧ min ≤ ws.length ∧ (∀ m, max = some m → ws.length ≤ m) ∧ w = ws.flatten

/-- A repetition of characters. -/
theorem Repeats.chars {p : Char → Bool} {min : Nat} {max : Option Nat} {w : List Char}
    (h : Repeats (Single p) min max w) :
    (∀ c ∈ w, p c = true) ∧ min ≤ w.length ∧ ∀ m, max = some m → w.length ≤ m := by
  obtain ⟨ws, hws, hmin, hmax, rfl⟩ := h
  have hflatten : (∀ c ∈ ws.flatten, p c = true) ∧ ws.flatten.length = ws.length := by
    clear hmin hmax
    induction ws with
    | nil => exact ⟨fun c hc => absurd hc List.not_mem_nil, rfl⟩
    | cons w ws ih =>
      obtain ⟨⟨c, hc, rfl⟩, hothers⟩ := List.forall_mem_cons.1 hws
      obtain ⟨hall, hlength⟩ := ih hothers
      exact ⟨List.forall_mem_cons.2 ⟨hc, hall⟩, congrArg (· + 1) hlength⟩
  rw [hflatten.2]
  exact ⟨hflatten.1, hmin, hmax⟩

section Words

variable {τ α : Type}

/-- The words of a test, where `P t` are those of the table `t`. -/
def Matcher.Takes (P : τ → List Char → Prop) : Matcher τ → List Char → Prop
  | .nothing, w => w = []
  | .seq text, w => w = text.toList
  | .oneOf set, w => Single (inSet set) w
  | .optOneOf set, w => Single (inSet set) w ∨ w = []
  | .range lo hi, w => Single (fun c => decide (lo ≤ c ∧ c ≤ hi)) w
  | .table t, w => P t w
  | .optTable t, w => P t w ∨ w = []
  | .repeatOneOf set min max, w => Repeats (Single (inSet set)) min max w
  | .repeatTable t min max, w => Repeats (P t) min max w

/-- The words that lead from a row out of the table, where `T m` are the words of the test `m`. -/
inductive Path (T : Matcher τ → List Char → Prop) (rows : List (Row τ α)) : Nat → List Char → Prop
  | leave {i : Nat} {row : Row τ α} {w : List Char} (hrow : rows[i]? = some row)
      (hexit : row.status = .accept ∨ row.status = .normal ∧ row.onMatch = .leave) (hw : T row.matcher w) :
      Path T rows i w
  | go {i j : Nat} {row : Row τ α} {v w : List Char} (hrow : rows[i]? = some row) (hstatus : row.status = .normal)
      (hexit : row.onMatch = .row j) (hv : T row.matcher v) (hw : Path T rows j w) : Path T rows i (v ++ w)
  | miss {i j : Nat} {row : Row τ α} {w : List Char} (hrow : rows[i]? = some row) (hexit : row.onFail = .row j)
      (hw : Path T rows j w) : Path T rows i w

section Inversion

variable {T : Matcher τ → List Char → Prop} {rows : List (Row τ α)} {i j k : Nat} {m : Matcher τ}
  {a : Option α} {w : List Char}

/-- A path leaves the table at its row, goes on after it, or goes past it. -/
theorem Path.through {row : Row τ α} (h : Path T rows i w) (hrow : rows[i]? = some row) :
    (row.status = .accept ∨ row.status = .normal ∧ row.onMatch = .leave) ∧ T row.matcher w ∨
      (∃ j, (row.status = .normal ∧ row.onMatch = .row j) ∧ ∃ v u, w = v ++ u ∧ T row.matcher v ∧ Path T rows j u) ∨
      ∃ j, row.onFail = .row j ∧ Path T rows j w := by
  cases h with
  | leave hrow' hexit hw =>
    obtain rfl := Option.some.inj (hrow.symm.trans hrow')
    exact Or.inl ⟨hexit, hw⟩
  | go hrow' hstatus hexit hv hw =>
    obtain rfl := Option.some.inj (hrow.symm.trans hrow')
    exact Or.inr (Or.inl ⟨_, ⟨hstatus, hexit⟩, _, _, rfl, hv, hw⟩)
  | miss hrow' hexit hw =>
    obtain rfl := Option.some.inj (hrow.symm.trans hrow')
    exact Or.inr (Or.inr ⟨_, hexit, hw⟩)

/-! The same for rows of each shape. -/

theorem Path.go_or_miss (h : Path T rows i w)
    (hrow : rows[i]? = some { matcher := m, onMatch := .row j, onFail := .row k, action := a }) :
    (∃ v u, w = v ++ u ∧ T m v ∧ Path T rows j u) ∨ Path T rows k w := by
  simpa using h.through hrow

theorem Path.goes (h : Path T rows i w) (hrow : rows[i]? = some { matcher := m, onMatch := .row j, action := a }) :
    ∃ v u, w = v ++ u ∧ T m v ∧ Path T rows j u := by
  simpa using h.through hrow

theorem Path.leave_or_miss (h : Path T rows i w)
    (hrow : rows[i]? = some { matcher := m, onFail := .row k, status := .accept, action := a }) :
    T m w ∨ Path T rows k w := by
  simpa using h.through hrow

theorem Path.leaves (h : Path T rows i w) (hrow : rows[i]? = some { matcher := m, status := .accept, action := a }) :
    T m w := by
  simpa using h.through hrow

theorem Path.not_rejected (hrow : rows[i]? = some { matcher := m, status := .reject, action := a }) :
    ¬ Path T rows i w := fun h => by
  simpa using h.through hrow

end Inversion

/-! ## Sensible tables -/

/-- A test that has words, and whose text is spelled with one byte for each character. -/
def Matcher.sensible : Matcher τ → Bool
  | .seq text => text.toList.all fun c => c.utf8Size == 1
  | .oneOf set => !set.toList.isEmpty
  | .optOneOf set => !set.toList.isEmpty
  | .range lo hi => decide (lo ≤ hi)
  | .repeatOneOf set min max => !set.toList.isEmpty && max.all (min ≤ ·)
  | .repeatTable _ min max => max.all (min ≤ ·)
  | _ => true

/-- A match that goes on finds a row that does not reject. -/
def Exit.opens (rows : List (Row τ α)) : Exit → Bool
  | .leave => true
  | .row j => (rows[j]?).any fun row => row.status != .reject

/-- Rows that go forward, with sensible tests; only a mismatch leads to a row that rejects, and that row looks at
nothing. -/
structure Sensible (rows : List (Row τ α)) : Prop where
  forward : Forward rows
  test : ∀ row ∈ rows, row.matcher.sensible = true
  onMatch : ∀ row ∈ rows, row.onMatch.opens rows = true
  reject : ∀ row ∈ rows, row.status = .reject → row.matcher = .nothing

section Sensible

variable {P : τ → List Char → Prop} {T : Matcher τ → List Char → Prop} {rows : List (Row τ α)}

theorem exists_single {set : String} (h : (!set.toList.isEmpty) = true) : ∃ c, inSet set c = true := by
  cases hset : set.toList with
  | nil => simp [hset] at h
  | cons c cs => exact ⟨c, decide_eq_true (by rw [hset]; exact List.mem_cons_self ..)⟩

/-- Enough words of one kind are words of a repetition. -/
theorem exists_repeats {Q : List Char → Prop} (hQ : ∃ v, Q v) {min : Nat} {max : Option Nat}
    (h : max.all (min ≤ ·) = true) : ∃ w, Repeats Q min max w := by
  obtain ⟨v, hv⟩ := hQ
  refine ⟨_, List.replicate min v, ?_, ?_, ?_, rfl⟩
  · intro u hu
    rw [List.eq_of_mem_replicate hu]
    exact hv
  · exact Nat.le_of_eq List.length_replicate.symm
  · rintro m rfl
    rw [List.length_replicate]
    exact of_decide_eq_true h

theorem exists_takes (hP : ∀ t, ∃ w, P t w) {m : Matcher τ} (h : m.sensible = true) : ∃ w, m.Takes P w := by
  cases m with
  | nothing => exact ⟨[], rfl⟩
  | seq text => exact ⟨text.toList, rfl⟩
  | oneOf set =>
    obtain ⟨c, hc⟩ := exists_single h
    exact ⟨[c], c, hc, rfl⟩
  | optOneOf set => exact ⟨[], Or.inr rfl⟩
  | range lo hi => exact ⟨[lo], lo, decide_eq_true ⟨Std.le_refl lo, of_decide_eq_true h⟩, rfl⟩
  | table t => exact hP t
  | optTable t => exact ⟨[], Or.inr rfl⟩
  | repeatOneOf set min max =>
    rw [Matcher.sensible, Bool.and_eq_true] at h
    obtain ⟨c, hc⟩ := exists_single h.1
    exact exists_repeats ⟨[c], c, hc, rfl⟩ h.2
  | repeatTable t min max => exact exists_repeats (hP t) h

/-- From every row that does not reject, each word of its test leads on and out of the table. -/
theorem Sensible.exists_path (h : Sensible rows) (hT : ∀ row ∈ rows, ∃ v, T row.matcher v) (n : Nat) :
    ∀ {i : Nat} {row : Row τ α}, rows.length ≤ i + n → rows[i]? = some row → row.status ≠ .reject →
      ∀ v, T row.matcher v → ∃ u, Path T rows i (v ++ u) := by
  induction n with
  | zero =>
    intro i row hi hrow _
    have hnone : rows[i]? = none := List.getElem?_eq_none hi
    rw [hnone] at hrow
    simp at hrow
  | succ n ih =>
    intro i row hi hrow hstatus v hv
    have hmem : row ∈ rows := List.mem_of_getElem? hrow
    have hforward := (h.forward (row, i) (List.mk_mem_zipIdx_iff_getElem?.2 hrow)).1
    have hopens := h.onMatch row hmem
    have hleave : T row.matcher (v ++ []) := by rwa [List.append_nil]
    cases hs : row.status with
    | accept => exact ⟨[], .leave hrow (Or.inl hs) hleave⟩
    | reject => exact absurd hs hstatus
    | normal =>
      cases hexit : row.onMatch with
      | leave => exact ⟨[], .leave hrow (Or.inr ⟨hs, hexit⟩) hleave⟩
      | row j =>
        rw [hexit] at hforward hopens
        obtain ⟨next, hnext, hstatus'⟩ := (Option.any_eq_true _ _).1 hopens
        obtain ⟨w, hw⟩ := hT next (List.mem_of_getElem? hnext)
        have hj : rows.length ≤ j + n := by
          have := hforward.1
          omega
        obtain ⟨u, hu⟩ := ih hj hnext (bne_iff_ne.1 hstatus') w hw
        exact ⟨w ++ u, .go hrow hs hexit hv hu⟩

end Sensible

end Words

/-! ## Scans that spell -/

section Spelling

variable {τ α : Type} {o : Nat} {cs : List Char} {Q Q' : List Char → Prop} {x g : Scan (Move α)}
  {f : Cursor → Scan (Move α)}

/-- What is taken of the text `cs` at the offset `o` is a word of `Q`, and what stands before any offset that is looked
at is the start of one. -/
structure Scan.Spells (o : Nat) (cs : List Char) (Q : List Char → Prop) (x : Scan (Move α)) : Prop where
  taken {next : Cursor} (h : x.1 = .matched next) : ∃ w r, cs = w ++ r ∧ next = .text (o + size w) r ∧ Q w
  looked {k : Nat} (h : .look k ∈ x.2) : ∃ pre more, pre <+: cs ∧ k = o + size pre ∧ Q (pre ++ more)

namespace Scan.Spells

theorem mono (h : x.Spells o cs Q) (hQ : ∀ w, Q w → Q' w) : x.Spells o cs Q' := by
  refine ⟨fun hx => ?_, fun hk => ?_⟩
  · obtain ⟨w, r, hcs, hnext, hw⟩ := h.taken hx
    exact ⟨w, r, hcs, hnext, hQ w hw⟩
  · obtain ⟨pre, more, hpre, hk, hw⟩ := h.looked hk
    exact ⟨pre, more, hpre, hk, hQ _ hw⟩

theorem matched {next : Cursor} {w r : List Char} (hcs : cs = w ++ r) (hnext : next = .text (o + size w) r) (hw : Q w) :
    Spells o cs Q ((.matched next, []) : Scan (Move α)) := by
  refine ⟨fun h => ?_, fun h => absurd h List.not_mem_nil⟩
  rw [← Outcome.matched.inj h]
  exact ⟨w, r, hcs, hnext, hw⟩

theorem here (h : Q []) : Spells o cs Q ((.matched (.text o cs), []) : Scan (Move α)) := .matched rfl rfl h

theorem unmatched {e : Outcome} (h : ∀ next, e ≠ .matched next) : Spells o cs Q ((e, []) : Scan (Move α)) :=
  ⟨fun hx => absurd hx (h _), fun hk => absurd hk List.not_mem_nil⟩

/-- Actions are no looks. -/
theorem handing (h : x.Spells o cs Q) {ms : List (Move α)} (hms : ∀ k, .look k ∉ ms) : Spells o cs Q (x.after ms) :=
  ⟨h.taken, fun hk => (List.mem_append.1 hk).elim (fun hk => absurd hk (hms _)) h.looked⟩

/-- After a word of `A` the rest makes it a word of `Q`, and every word of `A` may become one. -/
theorem fork {A : List Char → Prop} (hx : x.Spells o cs A) (hA : ∀ w, A w → ∃ u, Q (w ++ u))
    (hf : ∀ w r, cs = w ++ r → A w →
      (f (.text (o + size w) r)).Spells (o + size w) r (fun u => Q (w ++ u)))
    (hg : g.Spells o cs Q) : (x.fork f g).Spells o cs Q := by
  have hlooked {k : Nat} (hk : .look k ∈ x.2) : ∃ pre more, pre <+: cs ∧ k = o + size pre ∧ Q (pre ++ more) := by
    obtain ⟨pre, more, hpre, hk, hw⟩ := hx.looked hk
    obtain ⟨u, hu⟩ := hA _ hw
    exact ⟨pre, more ++ u, hpre, hk, by rwa [← List.append_assoc]⟩
  obtain ⟨e, ms⟩ := x
  cases e with
  | matched next =>
    obtain ⟨w, r, rfl, rfl, hw⟩ := hx.taken rfl
    obtain ⟨htaken, hlooked'⟩ := hf w r rfl hw
    refine ⟨fun h => ?_, fun hk => ?_⟩
    · obtain ⟨u, r', rfl, rfl, hu⟩ := htaken h
      exact ⟨w ++ u, r', (List.append_assoc ..).symm, by rw [size_append, Nat.add_assoc], hu⟩
    · rcases List.mem_append.1 hk with hk | hk
      · exact hlooked hk
      · obtain ⟨pre, more, hpre, hk, hu⟩ := hlooked' hk
        refine ⟨w ++ pre, more, (List.prefix_append_right_inj w).2 hpre, by rw [hk, size_append, Nat.add_assoc], ?_⟩
        rwa [List.append_assoc]
  | mismatch => exact ⟨hg.taken, fun hk => (List.mem_append.1 hk).elim hlooked hg.looked⟩
  | halted halt => exact ⟨fun h => by simp at h, hlooked⟩
  | exhausted => exact ⟨fun h => by simp at h, hlooked⟩

end Scan.Spells

open Scan

/-! ## Tests -/

theorem scanChar_spells {p : Char → Bool} (h : ∃ c, p c = true) (o : Nat) (cs : List Char) :
    (scanChar p (.text o cs) : Scan (Move α)).Spells o cs (Single p) := by
  refine ⟨fun hx => ?_, fun hk => ?_⟩
  · cases cs with
    | nil => simp [scanChar, Outcome.ofOption] at hx
    | cons c cs =>
      by_cases hc : p c = true
      · simp only [scanChar, Cursor.char?_text_cons, if_pos hc, Outcome.ofOption] at hx
        exact ⟨[c], cs, rfl, by rw [← Outcome.matched.inj hx]; simp, c, hc, rfl⟩
      · simp [scanChar, if_neg hc, Outcome.ofOption] at hx
  · obtain ⟨c, hc⟩ := h
    simp only [scanChar, Cursor.offset_text, List.mem_singleton, Move.look.injEq] at hk
    exact ⟨[], [c], List.nil_prefix, hk, c, hc, rfl⟩

theorem commonLength_encode {ws : List Char} (hws : ∀ c ∈ ws, c.utf8Size = 1) (cs : List Char) :
    ∃ pre, pre <+: cs ∧ pre <+: ws ∧ commonLength (encode cs) (encode ws) = size pre := by
  induction ws generalizing cs with
  | nil => exact ⟨[], List.nil_prefix, List.nil_prefix, by cases encode cs <;> rfl⟩
  | cons w ws ih =>
    obtain ⟨hw, hothers⟩ := List.forall_mem_cons.1 hws
    obtain ⟨b, hb⟩ : ∃ b, String.utf8EncodeChar w = [b] :=
      List.length_eq_one_iff.1 (by rw [String.length_utf8EncodeChar, hw])
    cases cs with
    | nil => exact ⟨[], List.nil_prefix, List.nil_prefix, by simp [commonLength]⟩
    | cons c cs =>
      by_cases hc : c = w
      · subst hc
        obtain ⟨pre, hcs, hpre, hcommon⟩ := ih hothers cs
        refine ⟨c :: pre, List.cons_prefix_cons.2 ⟨rfl, hcs⟩, List.cons_prefix_cons.2 ⟨rfl, hpre⟩, ?_⟩
        rw [encode_cons, encode_cons, hb, List.singleton_append, List.singleton_append, commonLength, if_pos rfl,
          hcommon, size_cons, hw, Nat.add_comm]
      · -- another character starts with another byte
        refine ⟨[], List.nil_prefix, List.nil_prefix, ?_⟩
        cases hbytes : encode (c :: cs) with
        | nil => rfl
        | cons b' tail =>
          have hne : b' ≠ b := by
            rintro rfl
            have hnext : next? (encode (c :: cs)) = some (w, tail) := next?_eq_some_iff.2 (by rw [hbytes, hb]; rfl)
            rw [encode_cons, next?_encode_cons] at hnext
            exact hc (Prod.mk.inj (Option.some.inj hnext)).1
          rw [encode_cons, hb, List.singleton_append, commonLength, if_neg hne]
          rfl

theorem seq_spells {τ : Type} (call : τ → Cursor → Scan (Move α)) {word : String}
    (h : ∀ c ∈ word.toList, c.utf8Size = 1) (o : Nat) (cs : List Char) :
    (Matcher.scan call (.seq word) (.text o cs)).Spells o cs (· = word.toList) := by
  refine ⟨fun hx => ?_, fun hk => ?_⟩
  · by_cases hword : word.toList <+: cs
    · obtain ⟨r, rfl⟩ := hword
      have hend := congrArg Prod.fst (plain_seq_append call o word r)
      rw [show (Matcher.scan call (.seq word) _).plain.1 = _ from hx] at hend
      exact ⟨_, r, rfl, Outcome.matched.inj hend, rfl⟩
    · have hend := congrArg Prod.fst <| plain_seq_of_not_prefix call o hword
      rw [show (Matcher.scan call (.seq word) _).plain.1 = _ from hx] at hend
      simp at hend
  · obtain ⟨pre, hpre, ⟨more, hmore⟩, hcommon⟩ := commonLength_encode h cs
    simp only [Matcher.scan, Cursor.rest_text, Cursor.offset_text, hcommon, List.mem_singleton, Move.look.injEq] at hk
    exact ⟨pre, more, hpre, hk, hmore⟩

section Repetition

variable {min count : Nat} {max : Option Nat}

theorem repeats_nil (h : min ≤ count) : Repeats Q (min - count) (max.map (· - count)) [] :=
  ⟨[], fun _ hv => absurd hv List.not_mem_nil, by rw [Nat.sub_eq_zero_of_le h]; exact Nat.zero_le _,
    fun _ _ => Nat.zero_le _, rfl⟩

theorem repeats_cons {v w : List Char} (hmax : belowMax max count = true) (hv : Q v)
    (h : Repeats Q (min - (count + 1)) (max.map (· - (count + 1))) w) :
    Repeats Q (min - count) (max.map (· - count)) (v ++ w) := by
  obtain ⟨ws, hws, hmin, hle, rfl⟩ := h
  refine ⟨v :: ws, List.forall_mem_cons.2 ⟨hv, hws⟩, ?_, ?_, rfl⟩
  · rw [List.length_cons]
    omega
  · intro m hm
    obtain ⟨k, rfl, rfl⟩ := Option.map_eq_some_iff.1 hm
    have hbelow : count < k := of_decide_eq_true hmax
    have : ws.length ≤ k - (count + 1) := hle _ rfl
    rw [List.length_cons]
    omega

theorem settle_spells (h : min ≤ count → Q []) :
    Scan.Spells o cs Q ((settle min count (.text o cs), []) : Scan (Move α)) := by
  unfold settle
  split
  · exact .here (h ‹_›)
  · exact .unmatched (by simp)

/-- A repetition from the round `count` on. -/
theorem repeatScan_spells {walk : Cursor → Scan (Move α)} (hQ : ∃ v, Q v)
    (h : ∀ o cs, (walk (.text o cs)).Spells o cs Q) (hle : max.all (min ≤ ·) = true) (ahead : List UInt8)
    (count o : Nat) (cs : List Char) :
    (repeatScan min max walk ahead count (.text o cs)).Spells o cs
      (Repeats Q (min - count) (max.map (· - count))) := by
  have hmore {count : Nat} (hmax : belowMax max count = true) (w : List Char) (hw : Q w) :
      ∃ u, Repeats Q (min - count) (max.map (· - count)) (w ++ u) := by
    have hle' : (max.map (· - (count + 1))).all (min - (count + 1) ≤ ·) = true := by
      cases max with
      | none => rfl
      | some m => exact decide_eq_true (Nat.sub_le_sub_right (of_decide_eq_true hle) _)
    obtain ⟨u, hu⟩ := exists_repeats hQ hle'
    exact ⟨u, repeats_cons hmax hw hu⟩
  have hlast {count : Nat} (hmax : belowMax max count = true) (w : List Char) (hw : Q w) (hmin : min ≤ count + 1) :
      Repeats Q (min - count) (max.map (· - count)) (w ++ []) := repeats_cons hmax hw (repeats_nil hmin)
  induction ahead generalizing count o cs with
  | nil =>
    rw [repeatScan_eq]
    split
    · rename_i hmax
      refine (h o cs).fork (hmore hmax) (fun w r _ hw => ?_) (settle_spells repeats_nil)
      rw [ite_self]
      exact settle_spells (hlast hmax w hw)
    · exact settle_spells repeats_nil
  | cons b ahead ih =>
    rw [repeatScan_eq]
    split
    · rename_i hmax
      refine (h o cs).fork (hmore hmax) (fun w r _ hw => ?_) (settle_spells repeats_nil)
      split
      · exact settle_spells (hlast hmax w hw)
      · exact (ih (count + 1) _ _).mono fun u => repeats_cons hmax hw
    · exact settle_spells repeats_nil

end Repetition

section Tables

variable {τ : Type} {P : τ → List Char → Prop}

theorem test_spells {call : τ → Cursor → Scan (Move α)} (hP : ∀ t, ∃ w, P t w)
    (h : ∀ t o cs, (call t (.text o cs)).Spells o cs (P t)) {m : Matcher τ} (hm : m.sensible = true) (o : Nat)
    (cs : List Char) : (m.scan call (.text o cs)).Spells o cs (m.Takes P) := by
  have hrepeat {Q : List Char → Prop} {walk : Cursor → Scan (Move α)} (hQ : ∃ v, Q v)
      (h : ∀ o cs, (walk (.text o cs)).Spells o cs Q) {min : Nat} {max : Option Nat} (hle : max.all (min ≤ ·) = true)
      (ahead : List UInt8) : (repeatScan min max walk ahead 0 (.text o cs)).Spells o cs (Repeats Q min max) := by
    have := repeatScan_spells hQ h hle ahead 0 o cs
    rwa [Nat.sub_zero, show max.map (· - 0) = max by cases max <;> rfl] at this
  have hopt {Q : List Char → Prop} {x : Scan (Move α)} (hx : x.Spells o cs Q) :
      (x.fork (fun next => (.matched next, [])) (.matched (.text o cs), [])).Spells o cs (fun w => Q w ∨ w = []) :=
    hx.fork (fun w hw => ⟨[], Or.inl (by rwa [List.append_nil])⟩)
      (fun w r _ hw => .here (Or.inl (by rwa [List.append_nil]))) (.here (Or.inr rfl))
  cases m with
  | nothing => exact .here rfl
  | seq text => exact seq_spells call (fun c hc => by simpa using List.all_eq_true.1 hm c hc) o cs
  | oneOf set => exact scanChar_spells (exists_single hm) o cs
  | optOneOf set => exact hopt (scanChar_spells (exists_single hm) o cs)
  | range lo hi =>
    exact scanChar_spells ⟨lo, decide_eq_true ⟨Std.le_refl lo, of_decide_eq_true hm⟩⟩ o cs
  | table t => exact h t o cs
  | optTable t => exact hopt (h t o cs)
  | repeatOneOf set min max =>
    obtain ⟨hset, hle⟩ := Bool.and_eq_true_iff.1 hm
    obtain ⟨c, hc⟩ := exists_single hset
    exact hrepeat ⟨[c], c, hc, rfl⟩ (scanChar_spells ⟨c, hc⟩) hle _
  | repeatTable t min max => exact hrepeat (hP t) (h t) hm _

theorem look_not_mem_moves (row : Row τ α) (here next : Cursor) (k : Nat) : .look k ∉ row.moves here next := by
  unfold Row.moves
  cases row.action <;> simp

theorem scanRows_spells {T : Matcher τ → List Char → Prop} {test : Matcher τ → Cursor → Scan (Move α)}
    {rows : List (Row τ α)} (hrows : Sensible rows) (hT : ∀ row ∈ rows, ∃ v, T row.matcher v)
    (htest : ∀ row ∈ rows, ∀ o cs, (test row.matcher (.text o cs)).Spells o cs (T row.matcher))
    (hnothing : ∀ here, test .nothing here = (.matched here, [])) (steps i o : Nat) (cs : List Char) :
    (scanRows test rows steps i (.text o cs)).Spells o cs (Path T rows i) := by
  induction steps generalizing i o cs with
  | zero => exact .unmatched (by simp)
  | succ steps ih =>
    rw [scanRows]
    cases hrow : rows[i]? with
    | none => exact .unmatched (by simp)
    | some row =>
      have hmem : row ∈ rows := List.mem_of_getElem? hrow
      dsimp only
      by_cases hreject : row.status = .reject
      · rw [hrows.reject row hmem hreject, hnothing, Scan.fork_matched, Scan.after_nil, hreject]
        exact Scan.Spells.handing (.unmatched (by simp)) (look_not_mem_moves row _ _)
      · refine (htest row hmem o cs).fork (hrows.exists_path hT rows.length (Nat.le_add_left ..) hrow hreject)
          (fun w r _ hw => .handing ?_ (look_not_mem_moves row _ _)) ?_
        · have hleave (hexit : row.status = .accept ∨ row.status = .normal ∧ row.onMatch = .leave) :
              Scan.Spells (o + size w) r (fun u => Path T rows i (w ++ u))
                ((.matched (.text (o + size w) r), []) : Scan (Move α)) :=
            .here (.leave hrow hexit (by rwa [List.append_nil]))
          cases hs : row.status with
          | accept => exact hleave (Or.inl hs)
          | reject => exact absurd hs hreject
          | normal =>
            cases hexit : row.onMatch with
            | leave => exact hleave (Or.inr ⟨hs, hexit⟩)
            | row j => exact (ih j _ _).mono fun u => .go hrow hs hexit hw
        · cases hexit : row.onFail with
          | leave => exact .unmatched (by simp)
          | row j => exact (ih j o cs).mono fun w => .miss hrow hexit

/-- Words for the tables of a program, that the paths through its rows keep to. -/
structure Speaks (program : Program τ α) (P : τ → List Char → Prop) : Prop where
  sensible (t : τ) : Sensible (program t)
  inhabited (t : τ) : ∃ w, P t w
  path {t : τ} {w : List Char} (h : Path (Matcher.Takes P) (program t) 0 w) : P t w

/-- A scan takes words of its table, and looks at nothing but what may become one. -/
theorem scan_spells {program : Program τ α} (h : Speaks program P) (steps nest : Nat) (t : τ) (o : Nat)
    (cs : List Char) : (scan program steps nest t (.text o cs)).Spells o cs (P t) := by
  induction nest generalizing t o cs with
  | zero => exact .unmatched (by simp)
  | succ nest ih =>
    have htest (row : Row τ α) (hrow : row ∈ program t) := (h.sensible t).test row hrow
    exact (scanRows_spells (h.sensible t) (fun row hrow => exists_takes h.inhabited (htest row hrow))
      (fun row hrow => test_spells h.inhabited ih (htest row hrow)) (fun _ => rfl) steps 0 o cs).mono fun w => h.path

end Tables

end Spelling

end TableJson.Machine
