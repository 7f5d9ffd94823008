import TableJson.Proofs.Grammar.Completeness
import TableJson.Proofs.Machine.Budget

/-!
# Lookahead — where a document ends

Of all that a document may end in, only a number may go on with what follows it, and whether it does can be told from
the next character (`stays_number`).  So a walk that has taken a document takes just as much of every text that is the
same up to the character after it (`document_stays`).

* `Stays f`: what `f` takes does not depend on the text beyond the next character.
* `Prompt f`: nor does it depend on more than the first character whether anything is taken.  That is closed under the
  ways of going on, after what never fails to match.
-/

namespace TableJson.Grammar

open Machine Utf8 Scan

/-! ## One character ahead -/

/-- What `f` takes does not depend on the text beyond the next character. -/
def Stays (f : Cursor → Machine.Scan (Action × Match)) : Prop :=
  ∀ (o : Nat) (cs : List Char) (there : Cursor), (f (.text o cs)).1 = .matched there →
    ∃ ds r, cs = ds ++ r ∧ there = .text (o + size ds) r ∧
      ∀ r', r'.head? = r.head? → (f (.text o (ds ++ r'))).1 = .matched (.text (o + size ds) r')

/-- Nor does it depend on more than the first character whether `f` takes anything. -/
structure Prompt (f : Cursor → Machine.Scan (Action × Match)) : Prop where
  stays : Stays f
  missed (o : Nat) (cs cs' : List Char) (h : (f (.text o cs)).1 = .mismatch) (hcs : cs'.head? = cs.head?) :
    (f (.text o cs')).1 = .mismatch

/-- Never a mismatch. -/
def Steady (f : Cursor → Machine.Scan (Action × Match)) : Prop := ∀ here, (f here).1 ≠ .mismatch

section Closure

variable {f g k : Cursor → Machine.Scan (Action × Match)}

theorem head?_append_congr {r r' : List Char} (ds : List Char) (h : r'.head? = r.head?) :
    (ds ++ r').head? = (ds ++ r).head? := by
  rw [List.head?_append, List.head?_append, h]

theorem Prompt.stays_fork (hf : Prompt f) (hk : Stays k) (hg : Stays g) :
    Stays fun here => (f here).fork k (g here) := by
  intro o cs there h
  rw [fst_fork] at h
  cases hx : (f (.text o cs)).1 with
  | matched next =>
    rw [hx] at h
    obtain ⟨ds, _, rfl, rfl, hagain⟩ := hf.stays _ _ _ hx
    obtain ⟨es, r, rfl, rfl, hagain'⟩ := hk _ _ _ h
    refine ⟨ds ++ es, r, (List.append_assoc ..).symm, by rw [size_append, Nat.add_assoc], fun r' hr => ?_⟩
    rw [fst_fork, List.append_assoc, hagain _ (head?_append_congr es hr), size_append, ← Nat.add_assoc]
    exact hagain' r' hr
  | mismatch =>
    rw [hx] at h
    obtain ⟨ds, r, rfl, hthere, hagain⟩ := hg _ _ _ h
    refine ⟨ds, r, rfl, hthere, fun r' hr => ?_⟩
    rw [fst_fork, hf.missed _ _ _ hx (head?_append_congr ds hr)]
    exact hagain r' hr
  | halted halt => simp [hx] at h
  | exhausted => simp [hx] at h

theorem Stays.congr (hf : Stays f) (h : ∀ here, (g here).1 = (f here).1) : Stays g := by
  intro o cs there hg
  rw [h] at hg
  obtain ⟨ds, r, hcs, hthere, hagain⟩ := hf o cs there hg
  exact ⟨ds, r, hcs, hthere, fun r' hr => by rw [h, hagain r' hr]⟩

namespace Prompt

theorem fork (hf : Prompt f) (hk : Stays k) (hsteady : Steady k) (hg : Prompt g) :
    Prompt fun here => (f here).fork k (g here) := by
  refine ⟨hf.stays_fork hk hg.stays, fun o cs cs' h hcs => ?_⟩
  rw [fst_fork] at h
  cases hx : (f (.text o cs)).1 with
  | matched next =>
    rw [hx] at h
    exact absurd h (hsteady next)
  | mismatch =>
    rw [hx] at h
    rw [fst_fork, hf.missed _ _ _ hx hcs]
    exact hg.missed _ _ _ h hcs
  | halted halt => simp [hx] at h
  | exhausted => simp [hx] at h

theorem done : Prompt fun here => (.matched here, []) :=
  ⟨fun o cs there h => ⟨[], cs, rfl, (Outcome.matched.inj h).symm, fun _ _ => rfl⟩, fun _ _ _ h => by simp at h⟩

theorem mismatch : Prompt fun _ => (.mismatch, []) := ⟨fun _ _ _ h => by simp at h, fun _ _ _ _ _ => rfl⟩

/-- What stops the walk neither takes anything nor fails to. -/
theorem malformed (row : Nat) : Prompt (malformed row) :=
  ⟨fun _ _ _ h => by simp [Grammar.malformed] at h, fun _ _ _ h => by simp [Grammar.malformed] at h⟩

theorem zero (t : Rule) : Prompt (reads 0 t) :=
  ⟨fun _ _ _ h => by simp [reads_zero] at h, fun _ _ _ h => by simp [reads_zero] at h⟩

theorem orElse (hf : Prompt f) (hg : Prompt g) : Prompt fun here => (f here).orElse (g here) :=
  hf.fork done.stays (fun _ => by simp) hg

theorem andThen (hf : Prompt f) (hg : Stays g) (hsteady : Steady g) : Prompt fun here => (f here).andThen g :=
  hf.fork hg hsteady mismatch

end Prompt

theorem Steady.orElse (hg : Steady g) : Steady fun here => (f here).orElse (g here) := by
  intro here
  show ((f here).fork _ (g here)).1 ≠ .mismatch
  rw [fst_fork]
  cases (f here).1 with
  | mismatch => exact hg here
  | _ => simp

theorem Steady.andThen (hf : Steady f) (hg : Steady g) : Steady fun here => (f here).andThen g := by
  intro here
  show ((f here).fork g _).1 ≠ .mismatch
  rw [fst_fork]
  cases hx : (f here).1 with
  | matched next => exact hg next
  | mismatch => exact absurd hx (hf here)
  | _ => simp

end Closure

/-! ## Tests -/

section Tests

variable (n : Nat)

theorem prompt_oneOf (set : String) : Prompt (tests n (.oneOf set)) := by
  constructor
  · intro o cs there h
    cases cs with
    | nil => simp at h
    | cons c cs =>
      by_cases hc : inSet set c = true
      · rw [tests_oneOf_cons, if_pos hc] at h
        refine ⟨[c], cs, rfl, by rw [← Outcome.matched.inj h]; simp, fun r' _ => ?_⟩
        rw [List.singleton_append, tests_oneOf_cons, if_pos hc]
        simp
      · simp [hc] at h
  · intro o cs cs' h hcs
    cases cs' with
    | nil => rw [tests_oneOf_nil]
    | cons c cs' =>
      obtain ⟨cs, rfl⟩ := List.head?_eq_some_iff.1 hcs.symm
      have hc : inSet set c = false := by simpa using h
      rw [tests_oneOf_cons, hc]
      rfl

theorem steady_optOneOf (set : String) : Steady (tests n (.optOneOf set)) := by
  rw [show tests n (.optOneOf set) = _ from funext fun here => tests_optOneOf n here set]
  exact Steady.orElse fun _ => by simp

theorem prompt_optOneOf (set : String) : Prompt (tests n (.optOneOf set)) := by
  rw [show tests n (.optOneOf set) = _ from funext fun here => tests_optOneOf n here set]
  exact (prompt_oneOf n set).orElse .done

theorem steady_optTable (t : Rule) : Steady (tests n (.optTable t)) := by
  rw [show tests n (.optTable t) = _ from funext fun here => tests_optTable n here t]
  exact Steady.orElse fun _ => by simp

theorem prompt_optTable {t : Rule} (h : Prompt (reads n t)) : Prompt (tests n (.optTable t)) := by
  rw [show tests n (.optTable t) = _ from funext fun here => tests_optTable n here t]
  exact h.orElse .done

theorem tests_repeatOneOf (set : String) (min o : Nat) (cs : List Char) :
    tests n (.repeatOneOf set min none) (.text o cs) =
      (settle min (cs.takeWhile (inSet set)).length
        (.text (o + size (cs.takeWhile (inSet set))) (cs.dropWhile (inSet set))), []) := by
  have hdrop : (cs.takeWhile (inSet set) ++ cs.dropWhile (inSet set)).drop (cs.takeWhile (inSet set)).length =
      cs.dropWhile (inSet set) := List.drop_left ..
  rw [List.takeWhile_append_dropWhile] at hdrop
  rw [tests, plain_repeatOneOf, takeChars_none, hdrop]

/-- A repetition ends where another character comes. -/
theorem stays_repeatOneOf (set : String) (min : Nat) : Stays (tests n (.repeatOneOf set min none)) := by
  intro o cs there h
  rw [tests_repeatOneOf, settle] at h
  by_cases hmin : min ≤ (cs.takeWhile (inSet set)).length
  · rw [if_pos hmin] at h
    refine ⟨_, _, List.takeWhile_append_dropWhile.symm, (Outcome.matched.inj h).symm, fun r' hr => ?_⟩
    have hstop : Stops (inSet set) r' := by
      intro c hc
      rw [hr] at hc
      have := List.head?_dropWhile_not (inSet set) cs
      rw [Option.mem_def.1 hc] at this
      simpa using this
    rw [tests_repeatOneOf_text n o (fun c hc => List.all_eq_true.1 List.all_takeWhile c hc) hmin hstop]
  · rw [if_neg hmin] at h
    simp at h

theorem steady_anyDigits : Steady (tests n anyDigits) := by
  intro here
  rw [anyDigits, tests, Matcher.scan, plain_repeatScan]
  intro h
  exact repeatScan_ne_mismatch _ _ _ _ _ (Prod.ext h rfl)

/-- At least one digit is taken exactly if one comes next. -/
theorem prompt_someDigits : Prompt (tests n someDigits) := by
  refine ⟨stays_repeatOneOf n digits 1, fun o cs cs' h hcs => ?_⟩
  have hnone : (cs.takeWhile (inSet digits)).length = 0 := by
    rw [someDigits, tests_repeatOneOf, settle] at h
    by_cases hmin : 1 ≤ (cs.takeWhile (inSet digits)).length
    · simp [hmin] at h
    · omega
  have hnone' : (cs'.takeWhile (inSet digits)).length = 0 := by
    cases cs' with
    | nil => rfl
    | cons c cs' =>
      obtain ⟨cs, rfl⟩ := List.head?_eq_some_iff.1 hcs.symm
      by_cases hc : inSet digits c = true
      · simp [hc] at hnone
      · simp [hc]
  rw [someDigits, tests_repeatOneOf, hnone']
  rfl

end Tests

/-! ## Numbers -/

/-- With more room a walk that ends goes the same way. -/
theorem reads_of_le {n m : Nat} (hnm : n ≤ m) {t : Rule} {here : Cursor} (h : (reads n t here).1 ≠ .exhausted) :
    reads m t here = reads n t here := by
  rcases scan_extends rows (Nat.le_refl rowsPerTable) hnm t here with heq | ⟨hend, -⟩
  · rw [reads, reads, heq]
  · exact absurd hend h

section Numbers

variable (n : Nat)

theorem prompt_exp : Prompt (reads n .exp) := by
  cases n with
  | zero => exact .zero _
  | succ n =>
    rw [show reads (n + 1) .exp = _ from funext (reads_exp n)]
    have hmalformed : Steady (malformed 3) := fun _ => by simp [malformed]
    have hdigits := (prompt_someDigits n).orElse (.malformed 3)
    have hsigned := (prompt_optOneOf n "-+").andThen hdigits.stays hmalformed.orElse
    exact (prompt_oneOf n "eE").andThen hsigned.stays ((steady_optOneOf n "-+").andThen hmalformed.orElse)

theorem prompt_frac : Prompt (reads n .frac) := by
  cases n with
  | zero => exact .zero _
  | succ n =>
    rw [show reads (n + 1) .frac = _ from funext (reads_frac n)]
    have hmalformed : Steady (malformed 2) := fun _ => by simp [malformed]
    exact (prompt_oneOf n ".").andThen ((prompt_someDigits n).orElse (.malformed 2)).stays hmalformed.orElse

theorem prompt_int : Prompt (reads n .int) := by
  cases n with
  | zero => exact .zero _
  | succ n =>
    rw [show reads (n + 1) .int = _ from funext (reads_int n)]
    refine (prompt_oneOf n "0").orElse ?_
    cases n with
    | zero => exact .zero _
    | succ n =>
      rw [show reads (n + 1) .decimal = _ from funext (reads_decimal n)]
      exact (prompt_oneOf n "123456789").andThen (stays_repeatOneOf n digits 0) (steady_anyDigits n)

theorem stays_unsigned : Stays (unsigned n) := by
  have hexp := prompt_optTable n (prompt_exp n)
  have hfrac := (prompt_optTable n (prompt_frac n)).andThen hexp.stays (steady_optTable n .exp)
  have hint := (prompt_int n).andThen hfrac.stays ((steady_optTable n .frac).andThen (steady_optTable n .exp))
  refine hint.stays.congr fun here => ?_
  -- what is handed over between the parts changes nothing of how they end
  rcases hi : reads n .int here with ⟨c | _ | _ | _, tr⟩ <;> simp only [unsigned, hi] <;> try rfl
  rw [andThen_matched, andThen_matched]
  rcases hf : tests n (.optTable .frac) c with ⟨d | _ | _ | _, tr⟩ <;> try rfl
  rw [andThen_matched, andThen_matched]
  rcases tests n (.optTable .exp) d with ⟨e | _ | _ | _, tr⟩ <;> rfl

theorem stays_number : Stays (reads n .number) := by
  cases n with
  | zero => exact (Prompt.zero _).stays
  | succ n =>
    have hsigned := (prompt_optOneOf n "-").stays_fork (stays_unsigned n) (stays_unsigned n)
    refine hsigned.congr fun here => ?_
    rw [reads_number]
    rcases tests n (.optOneOf "-") here with ⟨c | _ | _ | _, tr⟩ <;> rfl

/-- A number that is followed by one text is followed by every text that starts with the same character. -/
theorem number_ends {o : Nat} {l : Literal} {r r' : List Char}
    (h : (reads n .number (.text o (l.text ++ r))).1 = .matched (.text (o + size l.text) r)) (hr : r'.head? = r.head?) :
    ∃ l' : Literal, l'.text = l.text ∧ (Tree.number l').Ends n o r' := by
  obtain ⟨ds, s, hcs, hthere, hagain⟩ := stays_number n _ _ _ h
  have hoffset : o + size l.text = o + size ds := congrArg Cursor.offset hthere
  obtain ⟨rfl, rfl⟩ := append_inj_of_size hcs (by omega)
  have htaken : reads n .number (.text o (l.text ++ r')) = (.matched (.text (o + size l.text) r'), _) :=
    Prod.ext (hagain r' hr) rfl
  obtain ⟨l', s', hcs', hthere', htrace⟩ := number_of_reads n htaken
  have hoffset' : o + size l.text = o + size l'.text := congrArg Cursor.offset hthere'
  obtain ⟨htext, rfl⟩ := append_inj_of_size hcs' (by omega)
  refine ⟨l', htext.symm, ?_⟩
  rw [Tree.Ends, ← htext, htaken, htrace]

/-- A value that is a number has been taken by the table of numbers. -/
theorem number_of_value {o : Nat} {l : Literal} {r : List Char} {there : Cursor}
    (h : (reads (n + 4) .value (.text o (l.text ++ r))).1 = .matched there) :
    (reads (n + 3) .number (.text o (l.text ++ r))).1 = .matched there := by
  have hf : Stops (· == 'f') (l.text ++ r) := l.stops rfl (fun c => ne_of_isDigit rfl) r
  have hn : Stops (· == 'n') (l.text ++ r) := l.stops rfl (fun c => ne_of_isDigit rfl) r
  have ht : Stops (· == 't') (l.text ++ r) := l.stops rfl (fun c => ne_of_isDigit rfl) r
  have hquote : Stops (· == '"') (l.text ++ r) := l.stops rfl (fun c => ne_of_isDigit rfl) r
  have hblank : skip (l.text ++ r) = l.text ++ r := skip_of_stops (l.stops rfl (fun c => not_blank_of_digit) r)
  have hcontainer (kind : ContainerKind) :
      reads (n + 3) (containerRule kind) (.text o (l.text ++ r)) = (.mismatch, []) := by
    refine reads_container_other (n + 1) o fun d hd he => ?_
    rw [hblank] at hd
    have hstop : Stops (· == openChar kind) (l.text ++ r) :=
      l.stops (by cases kind <;> rfl) (fun c => ne_of_isDigit (by cases kind <;> rfl)) r
    simpa [he] using hstop d hd
  rw [reads_value, tests_seq_other _ o rfl hf, tests_seq_other _ o rfl hn, tests_seq_other _ o rfl ht,
    reads_string_other _ o hquote, show reads (n + 3) .object _ = _ from hcontainer .object,
    show reads (n + 3) .array _ = _ from hcontainer .array] at h
  rcases hx : reads (n + 3) .number (.text o (l.text ++ r)) with ⟨c | _ | _ | _, tr⟩
  · simpa [hx, noted] using h
  · simp [hx, noted] at h
  · simp [hx, noted, andThen] at h
  · simp [hx, noted, andThen] at h

/-- A value that is followed by one text is followed by every text that starts with the same character. -/
theorem value_ends {m o : Nat} {t : Tree} {r r' : List Char}
    (h : (reads (n + 4) .value (.text o (t.text ++ r))).1 = .matched (.text (o + size t.text) r))
    (hr : r'.head? = r.head?) (hm : n + 3 ≤ m) : ∃ u : Tree, u.text = t.text ∧ u.depth = t.depth ∧ u.Ends m o r' := by
  cases t with
  | number l =>
    have hnumber := number_of_value n h
    rw [← reads_of_le hm (by rw [hnumber]; simp)] at hnumber
    obtain ⟨l', htext, hends⟩ := number_ends m hnumber hr
    exact ⟨.number l', htext, rfl, hends⟩
  | _ => exact ⟨_, rfl, rfl, trivial⟩

end Numbers

/-! ## Documents -/

theorem leading_append (b : Blanks) {cs : List Char} (h : Stops isBlank cs) :
    (leading (b.chars ++ cs)).chars = b.chars := by
  have := leading_append_skip (b.chars ++ cs)
  rw [skip_append, skip_of_stops h] at this
  exact List.append_cancel_right this

/-- What is taken as a document is taken of every text that is the same up to the character after it. -/
theorem document_stays {n : Nat} {cs : List Char} {there : Cursor}
    (h : (reads (n + 5) .jsonText (.text 0 cs)).1 = .matched there) :
    ∃ (d : Document) (r : List Char), cs = d.text ++ r ∧ there = .text (size d.text) r ∧ Stops isBlank r ∧
      ∀ r' m, r'.head? = r.head? → n + 5 ≤ m → 5 * d.tree.depth + 7 ≤ m →
        (reads m .jsonText (.text 0 (d.text ++ r'))).1 = .matched (.text (size d.text) r') := by
  rw [reads_jsonText, tests_anyBlanks, andThen_matched, after_nil, Nat.zero_add] at h
  rcases hv : reads (n + 4) .value (.text (size (leading cs).chars) (skip cs)) with ⟨c | _ | _ | _, tr⟩
  · rw [hv, fork_matched] at h
    obtain ⟨t, ⟨s, hcs, rfl⟩, -⟩ := (sound (n + 4)).value hv
    rw [tests_anyBlanks] at h
    refine ⟨⟨leading cs, t, leading s⟩, skip s, ?_, ?_, stops_skip s, fun r' m hhead hnm hm => ?_⟩
    · rw [Document.text, List.append_assoc, List.append_assoc, leading_append_skip, ← hcs, leading_append_skip]
    · rw [← Outcome.matched.inj h, Document.text]
      simp only [size_append, Nat.add_assoc]
    · have hr' : Stops isBlank r' := fun c hc => stops_skip s c (hhead ▸ hc)
      have hhead' : ((leading s).chars ++ r').head? = s.head? := by
        rw [head?_append_congr _ hhead, leading_append_skip]
      have hstop : Stops isBlank (t.text ++ ((leading s).chars ++ r')) := by
        intro c hc
        rw [head?_append_congr _ hhead', ← hcs] at hc
        exact stops_skip cs c hc
      have hvalue : (reads (n + 4) .value (.text (size (leading cs).chars) (t.text ++ s))).1 =
          .matched (.text (size (leading cs).chars + size t.text) s) := by
        rw [← hcs, hv]
      obtain ⟨u, htext, hdepth, hends⟩ := value_ends n hvalue hhead' (show n + 3 ≤ m - 2 by omega)
      have hd : (⟨leading cs, u, leading s⟩ : Document).text = (⟨leading cs, t, leading s⟩ : Document).text := by
        rw [Document.text, Document.text, htext]
      have hbefore : (leading ((⟨leading cs, u, leading s⟩ : Document).text ++ r')).chars = (leading cs).chars := by
        rw [hd, Document.text, List.append_assoc, List.append_assoc, leading_append _ hstop]
      obtain ⟨e, -, -, -, hreads⟩ :=
        reads_document_append ⟨leading cs, u, leading s⟩ (hdepth ▸ hm) (hbefore ▸ hends) hr'
      rw [← hd, hreads]
  · simp [hv] at h
  · simp [hv] at h
  · simp [hv] at h

end TableJson.Grammar
