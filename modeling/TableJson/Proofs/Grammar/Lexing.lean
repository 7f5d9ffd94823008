import TableJson.Proofs.Grammar.Lexeme
import TableJson.Proofs.Grammar.Tables

/-!
# Lexing — the tables of the words

What the tables of numbers, strings and structural characters take of a text.

* `Lexes f P`: whatever `f` takes is a word of `P`, and `f` hands nothing over by it or by a mismatch.
* A table takes a word that is there, if the text goes on in a way that cannot be part of the word
  (`reads_number_text`, `reads_string_text`, `Marks.take`).
-/

namespace TableJson.Grammar

open Machine Utf8 Scan

/-! ## Sets of characters -/

theorem isDigit_iff {c : Char} : c.isDigit = true ↔ 48 ≤ c.toNat ∧ c.toNat ≤ 57 := by
  simp [Char.isDigit, UInt32.le_iff_toNat_le]

/-- A property of the characters of a list, found by going through them. -/
theorem forall_mem_of_all {p : Char → Prop} [DecidablePred p] {cs : List Char}
    (h : cs.all (fun c => decide (p c)) = true) :
    ∀ c ∈ cs, p c := fun c hc => of_decide_eq_true (List.all_eq_true.1 h c hc)

theorem inSet_digits (c : Char) : inSet digits c = c.isDigit := by
  rw [Bool.eq_iff_iff, isDigit_iff, inSet, decide_eq_true_iff]
  constructor
  · intro h
    have hall : ∀ d ∈ digits.toList, 48 ≤ d.toNat ∧ d.toNat ≤ 57 := forall_mem_of_all (by decide)
    exact hall c h
  · intro h
    have hall : ∀ k < 58, 48 ≤ k ∧ k ≤ 57 → Char.ofNat k ∈ digits.toList := by decide
    have hc := hall c.toNat (by omega) h
    rwa [Char.ofNat_toNat] at hc

theorem isHexDigit_iff {c : Char} :
    isHexDigit c = true ↔ 48 ≤ c.toNat ∧ c.toNat ≤ 57 ∨ 65 ≤ c.toNat ∧ c.toNat ≤ 70 ∨ 97 ≤ c.toNat ∧ c.toNat ≤ 102 := by
  rw [isHexDigit, Bool.or_eq_true, Bool.or_eq_true, isDigit_iff]
  simp [Char.le_def, UInt32.le_iff_toNat_le, or_assoc]

theorem inSet_hexDigits (c : Char) : inSet hexDigits c = isHexDigit c := by
  rw [Bool.eq_iff_iff, isHexDigit_iff, inSet, decide_eq_true_iff]
  constructor
  · intro h
    have hall : ∀ d ∈ hexDigits.toList,
        48 ≤ d.toNat ∧ d.toNat ≤ 57 ∨ 65 ≤ d.toNat ∧ d.toNat ≤ 70 ∨ 97 ≤ d.toNat ∧ d.toNat ≤ 102 :=
      forall_mem_of_all (by decide)
    exact hall c h
  · intro h
    have hall : ∀ k < 103, 48 ≤ k ∧ k ≤ 57 ∨ 65 ≤ k ∧ k ≤ 70 ∨ 97 ≤ k ∧ k ≤ 102 →
        Char.ofNat k ∈ hexDigits.toList := by decide
    have hc := hall c.toNat (by omega) h
    rwa [Char.ofNat_toNat] at hc

theorem inSet_blanks (c : Char) : inSet blanks c = isBlank c := by
  rw [Bool.eq_iff_iff]
  simp [inSet, blanks, isBlank, or_assoc]

/-- No character of a class is in a set outside of it. -/
theorem inSet_eq_false {p : Char → Bool} {b : Bool} {set : String} {c : Char} (hset : ∀ d ∈ set.toList, p d = b)
    (hc : p c = !b) : inSet set c = false := by
  rw [inSet, decide_eq_false_iff_not]
  intro hmem
  rw [hset c hmem] at hc
  cases b <;> simp at hc

/-! ## Words that are taken -/

/-- What `f` takes of a text is a word of `P`; by that or by a mismatch it hands nothing over. -/
structure Lexes (f : Cursor → Scan (Action × Match)) (P : List Char → Prop) : Prop where
  word {o : Nat} {cs : List Char} {there : Cursor} {tr : List (Action × Match)}
    (h : f (.text o cs) = (.matched there, tr)) :
    ∃ ds r, cs = ds ++ r ∧ P ds ∧ there = .text (o + size ds) r ∧ tr = []
  silent {o : Nat} {cs : List Char} {tr : List (Action × Match)} (h : f (.text o cs) = (.mismatch, tr)) : tr = []

namespace Lexes

variable {f g : Cursor → Scan (Action × Match)} {P Q : List Char → Prop} {n : Nat}

theorem mono (hf : Lexes f P) (h : ∀ ds, P ds → Q ds) : Lexes f Q := by
  refine ⟨fun hm => ?_, hf.silent⟩
  obtain ⟨ds, r, hcs, hds, hthere, htr⟩ := hf.word hm
  exact ⟨ds, r, hcs, h ds hds, hthere, htr⟩

theorem andThen (hf : Lexes f P) (hg : Lexes g Q) :
    Lexes (fun here => (f here).andThen g) fun ds => ∃ as bs, ds = as ++ bs ∧ P as ∧ Q bs := by
  refine ⟨fun hm => ?_, fun hm => ?_⟩
  · obtain ⟨mid, tr₁, tr₂, hx, hy, rfl⟩ := andThen_eq_matched.1 hm
    obtain ⟨as, r, rfl, has, rfl, rfl⟩ := hf.word hx
    obtain ⟨bs, r, rfl, hbs, rfl, rfl⟩ := hg.word hy
    refine ⟨as ++ bs, r, (List.append_assoc ..).symm, ⟨as, bs, rfl, has, hbs⟩, ?_, rfl⟩
    rw [size_append, Nat.add_assoc]
  · rcases andThen_eq_mismatch.1 hm with hx | ⟨mid, tr₁, tr₂, hx, hy, rfl⟩
    · exact hf.silent hx
    · obtain ⟨as, r, rfl, has, rfl, rfl⟩ := hf.word hx
      exact hg.silent hy

theorem orElse (hf : Lexes f P) (hg : Lexes g Q) :
    Lexes (fun here => (f here).orElse (g here)) fun ds => P ds ∨ Q ds := by
  refine ⟨fun hm => ?_, fun hm => ?_⟩
  · rcases orElse_eq_matched.1 hm with hx | ⟨tr₁, tr₂, hx, hy, rfl⟩
    · obtain ⟨ds, r, hcs, hds, hthere, htr⟩ := hf.word hx
      exact ⟨ds, r, hcs, Or.inl hds, hthere, htr⟩
    · obtain ⟨ds, r, hcs, hds, hthere, rfl⟩ := hg.word hy
      exact ⟨ds, r, hcs, Or.inr hds, hthere, by rw [hf.silent hx]; rfl⟩
  · obtain ⟨tr₁, tr₂, hx, hy, rfl⟩ := orElse_eq_mismatch.1 hm
    rw [hf.silent hx, hg.silent hy]
    rfl

/-- The empty word. -/
theorem nothing : Lexes (fun here => (.matched here, [])) fun ds => ds = [] := by
  refine ⟨fun {o cs there tr} hm => ?_, fun hm => ?_⟩
  · obtain ⟨h, rfl⟩ := Prod.mk.inj hm
    exact ⟨[], cs, rfl, rfl, (Outcome.matched.inj h).symm, rfl⟩
  · simp at hm

theorem optTable {t : Rule} (h : Lexes (reads n t) P) : Lexes (tests n (.optTable t)) fun ds => P ds ∨ ds = [] := by
  rw [show tests n (.optTable t) = _ from funext fun here => tests_optTable n here t]
  exact h.orElse nothing

theorem char {p : Char → Bool} {m : Matcher Rule} (h : ∀ here, tests n m here = (scanChar p here).plain) :
    Lexes (tests n m) fun ds => ∃ c, ds = [c] ∧ p c = true := by
  refine ⟨fun {o cs there tr} hm => ?_, fun {o cs tr} hm => ?_⟩
  · rw [h] at hm
    cases cs with
    | nil => simp at hm
    | cons c cs =>
      by_cases hp : p c
      · simp only [plain_scanChar_cons, if_pos hp, Prod.mk.injEq, Outcome.matched.injEq] at hm
        obtain ⟨rfl, rfl⟩ := hm
        exact ⟨[c], cs, rfl, ⟨c, rfl, hp⟩, by simp, rfl⟩
      · simp [hp] at hm
  · rw [h] at hm
    cases cs with
    | nil => simpa using hm.symm
    | cons c cs =>
      rw [plain_scanChar_cons] at hm
      exact (Prod.mk.inj hm).2.symm

theorem oneOf (set : String) : Lexes (tests n (.oneOf set)) fun ds => ∃ c, ds = [c] ∧ c ∈ set.toList :=
  (char fun _ => rfl).mono fun _ ⟨c, hds, hc⟩ => ⟨c, hds, of_decide_eq_true hc⟩

theorem range (lo hi : Char) : Lexes (tests n (.range lo hi)) fun ds => ∃ c, ds = [c] ∧ lo ≤ c ∧ c ≤ hi :=
  (char fun _ => rfl).mono fun _ ⟨c, hds, hc⟩ => ⟨c, hds, of_decide_eq_true hc⟩

theorem optOneOf (set : String) :
    Lexes (tests n (.optOneOf set)) fun ds => (∃ c, ds = [c] ∧ c ∈ set.toList) ∨ ds = [] := by
  rw [show tests n (.optOneOf set) = _ from funext fun here => tests_optOneOf n here set]
  exact (oneOf set).orElse nothing

theorem repeatOneOf (set : String) (min : Nat) (max : Option Nat) :
    Lexes (tests n (.repeatOneOf set min max)) fun ds =>
      (∀ c ∈ ds, inSet set c = true) ∧ min ≤ ds.length ∧ ∀ m, max = some m → ds.length ≤ m := by
  refine ⟨fun {o cs there tr} hm => ?_, fun {o cs tr} hm => ?_⟩
  · rw [tests, plain_repeatOneOf, settle] at hm
    split at hm
    · rename_i hmin
      obtain ⟨h, rfl⟩ := Prod.mk.inj hm
      refine ⟨_, _, (takeChars_append_drop _ _ _ _).symm, ⟨fun c => mem_takeChars, hmin, ?_⟩,
        (Outcome.matched.inj h).symm, rfl⟩
      rintro m rfl
      have := length_takeChars_le (inSet set) (Nat.zero_le m) cs
      omega
    · simp at hm
  · rw [tests, plain_repeatOneOf] at hm
    exact (Prod.mk.inj hm).2.symm

/-- A chain of words. -/
theorem of_chain (hf : Lexes f P) {here there : Cursor} {tr : List (Action × Match)} (h : Chain f here there tr)
    {o : Nat} {cs : List Char} (hhere : here = .text o cs) :
    ∃ (ws : List (List Char)) (r : List Char), (∀ w ∈ ws, P w) ∧
      cs = ws.flatten ++ r ∧ there = .text (o + size ws.flatten) r ∧ tr = [] := by
  induction h generalizing o cs with
  | nil here => exact ⟨[], cs, by simp, rfl, hhere, rfl⟩
  | cons first moved shorter rest ih =>
    subst hhere
    obtain ⟨w, r, rfl, hw, rfl, rfl⟩ := hf.word first
    obtain ⟨ws, r, hws, rfl, rfl, rfl⟩ := ih rfl
    refine ⟨w :: ws, r, ?_, by simp, by simp [Nat.add_assoc], rfl⟩
    rintro x (_ | ⟨_, hx⟩)
    · exact hw
    · exact hws x hx

/-- Any number of words that are not empty. -/
theorem repeatTable {t : Rule} (h : Lexes (reads n t) P) (hP : ∀ ds, P ds → ds ≠ []) :
    Lexes (tests n (.repeatTable t 0 none)) fun ds => ∃ ws : List (List Char), (∀ w ∈ ws, P w) ∧ ds = ws.flatten := by
  refine ⟨fun hm => ?_, fun hm => ?_⟩
  · rw [tests_repeatTable] at hm
    have hmoves : ∀ o cs next ms, reads n t (.text o cs) = (.matched next, ms) →
        ∃ ds rest, ds ≠ [] ∧ cs = ds ++ rest ∧ next = .text (o + size ds) rest := by
      intro o cs next ms hn
      obtain ⟨ds, r, hcs, hds, hnext, -⟩ := h.word hn
      exact ⟨ds, r, hP ds hds, hcs, hnext⟩
    obtain ⟨ms₁, ms₂, hchain, hstop, rfl⟩ := chain_of_repeatScan hmoves _ _ _ _ (Nat.le_refl _) hm
    obtain ⟨ws, r, hws, rfl, rfl, rfl⟩ := h.of_chain hchain rfl
    exact ⟨ws.flatten, r, rfl, ⟨ws, hws, rfl⟩, rfl, h.silent hstop⟩
  · rw [tests_repeatTable] at hm
    exact absurd hm (repeatScan_ne_mismatch _ _ _ _ _)

/-- A budget of nothing takes nothing. -/
theorem zero (t : Rule) : Lexes (reads 0 t) P := by
  refine ⟨fun hm => ?_, fun hm => ?_⟩ <;> simp [reads_zero] at hm

theorem malformed (row : Nat) : Lexes (malformed row) P := by
  refine ⟨fun hm => ?_, fun hm => ?_⟩ <;> simp [Grammar.malformed] at hm

end Lexes

/-! ## Texts that are ahead -/

section Ahead

variable (n o : Nat)

@[simp] theorem tests_oneOf_nil (set : String) : tests n (.oneOf set) (.text o []) = (.mismatch, []) :=
  plain_scanChar_nil o _

@[simp] theorem tests_oneOf_cons (set : String) (c : Char) (cs : List Char) :
    tests n (.oneOf set) (.text o (c :: cs)) =
      (if inSet set c then .matched (.text (o + c.utf8Size) cs) else .mismatch, []) :=
  plain_scanChar_cons o _ c cs

@[simp] theorem tests_range_nil (lo hi : Char) : tests n (.range lo hi) (.text o []) = (.mismatch, []) :=
  plain_scanChar_nil o _

@[simp] theorem tests_range_cons (lo hi c : Char) (cs : List Char) :
    tests n (.range lo hi) (.text o (c :: cs)) =
      (if lo ≤ c ∧ c ≤ hi then .matched (.text (o + c.utf8Size) cs) else .mismatch, []) := by
  rw [tests, Matcher.scan, plain_scanChar_cons]
  simp only [decide_eq_true_eq]

/-- No character of the class `p` comes next. -/
def Stops (p : Char → Bool) (cs : List Char) : Prop := ∀ c ∈ cs.head?, p c = false

theorem stops_nil (p : Char → Bool) : Stops p [] := by
  intro c hc
  simp at hc

theorem stops_cons {p : Char → Bool} {c : Char} (cs : List Char) (h : p c = false) : Stops p (c :: cs) := by
  intro d hd
  obtain rfl : c = d := by simpa using hd
  exact h

theorem takeChars_of_stops {p : Char → Bool} {ds r : List Char} (hds : ∀ c ∈ ds, p c = true) (hr : Stops p r) :
    takeChars p none 0 (ds ++ r) = ds := by
  rw [takeChars_none, List.takeWhile_append_of_pos hds]
  cases r with
  | nil => simp
  | cons c r =>
    have hc : p c = false := hr c rfl
    simp [hc]

/-- An unbounded repetition takes the characters of its set that are ahead. -/
theorem tests_repeatOneOf_text {set : String} {min : Nat} {ds r : List Char} (hds : ∀ c ∈ ds, inSet set c = true)
    (hmin : min ≤ ds.length) (hr : Stops (inSet set) r) :
    tests n (.repeatOneOf set min none) (.text o (ds ++ r)) = (.matched (.text (o + size ds) r), []) := by
  rw [tests, plain_repeatOneOf, takeChars_of_stops hds hr, settle, if_pos hmin, List.drop_left]

end Ahead

/-! ## Blanks and structural characters -/

section Marks

variable (n o : Nat)

/-- What follows the blanks at the head of a text. -/
def skip (cs : List Char) : List Char := cs.dropWhile isBlank

/-- The blanks at the head of a text. -/
def leading (cs : List Char) : Blanks := ⟨cs.takeWhile isBlank, List.all_eq_true.1 List.all_takeWhile⟩

theorem leading_append_skip (cs : List Char) : (leading cs).chars ++ skip cs = cs := List.takeWhile_append_dropWhile

theorem stops_skip (cs : List Char) : Stops isBlank (skip cs) := by
  intro c hc
  have h := List.head?_dropWhile_not isBlank cs
  rw [show cs.dropWhile isBlank = skip cs from rfl, Option.mem_def.1 hc] at h
  simpa using h

theorem skip_of_stops {cs : List Char} (h : Stops isBlank cs) : skip cs = cs := by
  cases cs with
  | nil => rfl
  | cons c cs =>
    have hc : isBlank c = false := h c rfl
    simp [skip, hc]

theorem skip_skip (cs : List Char) : skip (skip cs) = skip cs := skip_of_stops (stops_skip cs)

theorem skip_append (b : Blanks) (cs : List Char) : skip (b.chars ++ cs) = skip cs :=
  List.dropWhile_append_of_pos b.blank

theorem tests_anyBlanks (cs : List Char) :
    tests n anyBlanks (.text o cs) = (.matched (.text (o + size (leading cs).chars) (skip cs)), []) := by
  have hset (c : Char) (hc : c ∈ (leading cs).chars) : inSet blanks c = true := by
    rw [inSet_blanks]
    exact (leading cs).blank c hc
  have hstop : Stops (inSet blanks) (skip cs) := by
    intro c hc
    rw [inSet_blanks]
    exact stops_skip cs c hc
  have h := tests_repeatOneOf_text n o hset (Nat.zero_le _) hstop
  rwa [leading_append_skip] at h

theorem lexes_blanks : Lexes (tests n anyBlanks) fun ds => ∃ b : Blanks, ds = b.chars := by
  refine (Lexes.repeatOneOf blanks 0 none).mono fun ds ⟨hds, _⟩ => ⟨⟨ds, fun d hd => ?_⟩, rfl⟩
  rw [← inSet_blanks]
  exact hds d hd

/-- The table `t` takes the character `c` with the blanks around it. -/
def Marks (t : Rule) (c : Char) : Prop := isBlank c = false ∧ ∃ set, rows t = punctuation set ∧ set.toList = [c]

theorem marks_open (kind : ContainerKind) : Marks (openRule kind) (openChar kind) := by
  cases kind
  · exact ⟨rfl, "\x7b", rfl, rfl⟩
  · exact ⟨rfl, "[", rfl, rfl⟩

theorem marks_close (kind : ContainerKind) : Marks (closeRule kind) (closeChar kind) := by
  cases kind
  · exact ⟨rfl, "\x7d", rfl, rfl⟩
  · exact ⟨rfl, "]", rfl, rfl⟩

theorem marks_colon : Marks .nameSeparator ':' := ⟨rfl, ":", rfl, rfl⟩

theorem marks_comma : Marks .valueSeparator ',' := ⟨rfl, ",", rfl, rfl⟩

variable {t : Rule} {c : Char}

theorem Marks.lexes (h : Marks t c) : Lexes (reads n t) fun ds => ∃ a : Around, ds = a.text c := by
  obtain ⟨-, set, ht, hset⟩ := h
  cases n with
  | zero => exact Lexes.zero _
  | succ n =>
    rw [show reads (n + 1) t = _ from funext fun here => reads_mark n here ht]
    refine ((lexes_blanks n).andThen ((Lexes.oneOf set).andThen (lexes_blanks n))).mono ?_
    rintro _ ⟨_, _, rfl, ⟨b, rfl⟩, _, _, rfl, ⟨d, rfl, hd⟩, ⟨e, rfl⟩⟩
    rw [hset, List.mem_singleton] at hd
    subst hd
    exact ⟨⟨b, e⟩, rfl⟩

/-- A structural character that is ahead is taken, with all the blanks around it. -/
theorem Marks.take (h : Marks t c) {cs r : List Char} (hcs : skip cs = c :: r) :
    ∃ a : Around, cs = a.text c ++ skip r ∧
      ∀ n o, reads (n + 1) t (.text o cs) = (.matched (.text (o + size (a.text c)) (skip r)), []) := by
  obtain ⟨-, set, ht, hset⟩ := h
  refine ⟨⟨leading cs, leading r⟩, ?_, fun n o => ?_⟩
  · rw [Around.text, List.append_assoc, List.cons_append, leading_append_skip, ← hcs, leading_append_skip]
  · have hc : inSet set c = true := by simp [inSet, hset]
    rw [reads_mark n _ ht, tests_anyBlanks, hcs]
    simp [hc, tests_anyBlanks, Around.text, Nat.add_assoc]

/-- Another character is not taken. -/
theorem Marks.other (h : Marks t c) {cs : List Char} (hcs : ∀ d ∈ (skip cs).head?, d ≠ c) :
    reads (n + 1) t (.text o cs) = (.mismatch, []) := by
  obtain ⟨-, set, ht, hset⟩ := h
  rw [reads_mark n _ ht, tests_anyBlanks, andThen_matched]
  cases hr : skip cs with
  | nil => simp
  | cons d r =>
    have hd : inSet set d = false := by
      have : d ≠ c := hcs d (by rw [hr]; rfl)
      simp [inSet, hset, this]
    simp [hd]

/-- What was taken with a character is that character among blanks. -/
theorem Around.skip_text_append (a : Around) (h : isBlank c = false) (r : List Char) :
    skip (a.text c ++ r) = c :: (a.after.chars ++ r) := by
  rw [Around.text, List.append_assoc, skip_append]
  exact skip_of_stops (stops_cons _ h)

end Marks

end TableJson.Grammar
