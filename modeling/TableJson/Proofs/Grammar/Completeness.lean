import TableJson.Proofs.Grammar.Soundness

/-!
# Completeness — a walk takes the text of every tree

A walk over the text of a tree takes all of it, if at least `5 * depth + 6` tables may be open (`Tree.completes`).
Structural characters take all the blanks around them along, so the walk may find another tree than the one that was
written: the blanks between two structural characters go to the first.  The two trees are alike, and in the one that
is found no blanks stand before the start of a container (`Tree.Flush`).

What follows a tree matters for a number only, which it must not go on with (`Tree.Ends`).
-/

namespace TableJson.Grammar

open Machine Utf8 Scan

section Ahead

variable {kind : ContainerKind} (n o : Nat) {cs : List Char}

/-! ## Values by their first character -/

/-- A character that starts a value that is neither a string nor a container. -/
def startsPlain (c : Char) : Bool := c == 'f' || c == 'n' || c == 't' || c == '-' || c.isDigit

theorem tests_seq_other {word : String} {a : Char} {as : List Char} (hword : word.toList = a :: as)
    (h : Stops (· == a) cs) : tests n (.seq word) (.text o cs) = (.mismatch, []) := by
  refine plain_seq_of_not_prefix _ _ fun hp => ?_
  rw [hword] at hp
  obtain ⟨r, rfl⟩ := hp
  simpa using h a rfl

theorem Stops.imp {p q : Char → Bool} (hpq : ∀ c, p c = false → q c = false) (h : Stops p cs) : Stops q cs :=
  fun c hc => hpq c (h c hc)

theorem startsPlain_eq_false {c : Char} :
    startsPlain c = false ↔ c ≠ 'f' ∧ c ≠ 'n' ∧ c ≠ 't' ∧ c ≠ '-' ∧ c.isDigit = false := by
  simp [startsPlain, and_assoc]

/-- Where no plain value starts, a walk looks for a string and for a container. -/
theorem reads_value_of_not_plain (h : Stops startsPlain cs) :
    reads (n + 4) .value (.text o cs) =
      after [(.numberSign, ⟨o, []⟩)]
        ((noted .stringValue (.text o cs) (reads (n + 3) .string (.text o cs))).orElse
          ((reads (n + 3) .object (.text o cs)).orElse (reads (n + 3) .array (.text o cs)))) := by
  have hf : Stops (· == 'f') cs := h.imp fun c hc => by simpa using (startsPlain_eq_false.1 hc).1
  have hn : Stops (· == 'n') cs := h.imp fun c hc => by simpa using (startsPlain_eq_false.1 hc).2.1
  have ht : Stops (· == 't') cs := h.imp fun c hc => by simpa using (startsPlain_eq_false.1 hc).2.2.1
  have hm : Stops (· == '-') cs := h.imp fun c hc => by simpa using (startsPlain_eq_false.1 hc).2.2.2.1
  have hd : Stops Char.isDigit cs := h.imp fun c hc => (startsPlain_eq_false.1 hc).2.2.2.2
  rw [reads_value, tests_seq_other _ o rfl hf, tests_seq_other _ o rfl hn, tests_seq_other _ o rfl ht,
    reads_number_other n o hm hd]
  simp [noted]

theorem Literal.stops {p : Char → Bool} (hminus : p '-' = false) (hdigit : ∀ c, c.isDigit = true → p c = false)
    (l : Literal) (r : List Char) : Stops p (l.text ++ r) := by
  obtain ⟨sign, int, frac, exp, hs, hi, hf, he⟩ := l
  rcases hs with rfl | rfl
  · cases hi with
    | zero => exact stops_cons _ (hdigit '0' rfl)
    | digits first nonzero rest => exact stops_cons _ (hdigit _ first)
  · exact stops_cons _ hminus

theorem ne_of_isDigit {a c : Char} (ha : a.isDigit = false) (hc : c.isDigit = true) : (c == a) = false := by
  refine beq_false_of_ne fun h => ?_
  rw [h, ha] at hc
  simp at hc

theorem not_blank_of_digit {c : Char} (h : c.isDigit = true) : isBlank c = false := by
  simp only [isBlank, Bool.or_eq_false_iff]
  exact ⟨⟨⟨ne_of_isDigit rfl h, ne_of_isDigit rfl h⟩, ne_of_isDigit rfl h⟩, ne_of_isDigit rfl h⟩

/-- What follows the tree does not go on with it: if the tree is a number, the table of numbers takes that number and no
more. -/
def Tree.Ends (n o : Nat) (r : List Char) : Tree → Prop
  | .number l => reads n .number (.text o (l.text ++ r)) = (.matched (.text (o + size l.text) r), l.trace o)
  | _ => True

theorem Tree.ends_of_delimits (t : Tree) {r : List Char} (hr : Delimits r) (hn : 3 ≤ n) : t.Ends n o r := by
  cases t with
  | number l =>
    obtain ⟨m, rfl⟩ := Nat.exists_eq_add_of_le' hn
    exact reads_number_text m o l hr
  | _ => trivial

theorem reads_value_number (l : Literal) {r : List Char} (h : (Tree.number l).Ends n o r) :
    reads (n + 1) .value (.text o (l.text ++ r)) = (.matched (.text (o + size l.text) r), (Tree.number l).trace o) := by
  have hf : Stops (· == 'f') (l.text ++ r) := l.stops rfl (fun c => ne_of_isDigit rfl) r
  have hn : Stops (· == 'n') (l.text ++ r) := l.stops rfl (fun c => ne_of_isDigit rfl) r
  have ht : Stops (· == 't') (l.text ++ r) := l.stops rfl (fun c => ne_of_isDigit rfl) r
  rw [Tree.Ends] at h
  rw [reads_value, tests_seq_other _ o rfl hf, tests_seq_other _ o rfl hn, tests_seq_other _ o rfl ht, h]
  simp [noted, Match.between_text, Tree.trace]

theorem reads_value_null (r : List Char) :
    reads (n + 1) .value (.text o (nullText ++ r)) = (.matched (.text (o + size nullText) r), Tree.null.trace o) := by
  have hf : Stops (· == 'f') (nullText ++ r) := stops_cons _ rfl
  have hnull : tests n (.seq "null") (.text o (nullText ++ r)) = (.matched (.text (o + size nullText) r), []) :=
    plain_seq_append _ o "null" r
  rw [reads_value, tests_seq_other _ o rfl hf, hnull]
  simp [noted, Match.between_text, Tree.trace]

theorem reads_value_boolean (b : Bool) (r : List Char) :
    reads (n + 1) .value (.text o (booleanText b ++ r)) =
      (.matched (.text (o + size (booleanText b)) r), (Tree.boolean b).trace o) := by
  cases b with
  | false =>
    have hfalse : tests n (.seq "false") (.text o (booleanText false ++ r)) =
        (.matched (.text (o + size (booleanText false)) r), []) :=
      plain_seq_append _ o "false" r
    rw [reads_value, hfalse]
    simp [noted, Match.between_text, Tree.trace]
  | true =>
    have hf : Stops (· == 'f') (booleanText true ++ r) := stops_cons _ rfl
    have hn : Stops (· == 'n') (booleanText true ++ r) := stops_cons _ rfl
    have htrue : tests n (.seq "true") (.text o (booleanText true ++ r)) =
        (.matched (.text (o + size (booleanText true)) r), []) :=
      plain_seq_append _ o "true" r
    rw [reads_value, tests_seq_other _ o rfl hf, tests_seq_other _ o rfl hn, htrue]
    simp [noted, Match.between_text, Tree.trace]

theorem reads_value_string (s : Quoted) (r : List Char) :
    reads (n + 6) .value (.text o (s.text ++ r)) = (.matched (.text (o + size s.text) r), (Tree.string s).trace o) := by
  have hs : Stops startsPlain (s.text ++ r) := stops_cons _ rfl
  rw [reads_value_of_not_plain _ o hs, reads_string_text]
  simp [noted, Match.between_text, Tree.trace]

/-- Where another character is ahead than the one that opens it, there is no container. -/
theorem reads_container_other (h : ∀ d ∈ (skip cs).head?, d ≠ openChar kind) :
    reads (n + 2) (containerRule kind) (.text o cs) = (.mismatch, []) := by
  rw [reads_container, (marks_open kind).other n o h, andThen_mismatch]

/-- Where a container starts, a walk takes that container or nothing. -/
theorem reads_value_container (h : cs.head? = some (openChar kind)) {there : Cursor} {tr : List (Action × Match)}
    (hc : reads (n + 3) (containerRule kind) (.text o cs) = (.matched there, tr)) :
    reads (n + 4) .value (.text o cs) = (.matched there, (.numberSign, ⟨o, []⟩) :: tr) := by
  have hstops {p : Char → Bool} (hp : p (openChar kind) = false) : Stops p cs := by
    intro c hc
    rw [h] at hc
    obtain rfl := Option.some.inj hc
    exact hp
  have hplain : Stops startsPlain cs := hstops (by cases kind <;> rfl)
  have hquote : Stops (· == '"') cs := hstops (by cases kind <;> rfl)
  rw [reads_value_of_not_plain _ o hplain, reads_string_other _ o hquote]
  cases kind with
  | object =>
    rw [show reads (n + 3) .object (.text o cs) = _ from hc]
    simp [noted]
  | array =>
    have hblank : skip cs = cs := skip_of_stops (hstops rfl)
    have hobject : reads (n + 3) (containerRule .object) (.text o cs) = (.mismatch, []) := by
      refine reads_container_other (n + 1) o fun d hd => ?_
      rw [hblank, h] at hd
      obtain rfl := Option.some.inj hd
      decide
    rw [show reads (n + 3) .object (.text o cs) = _ from hobject, show reads (n + 3) .array (.text o cs) = _ from hc]
    simp [noted]

/-- Where a container ends there is no entry. -/
theorem reads_body_of_close (h : cs.head? = some (closeChar kind)) :
    reads (n + 5) (bodyRule kind) (.text o cs) = (.mismatch, (Body.empty kind).trace o) := by
  have hstops {p : Char → Bool} (hp : p (closeChar kind) = false) : Stops p cs := by
    intro c hc
    rw [h] at hc
    obtain rfl := Option.some.inj hc
    exact hp
  have hplain : Stops startsPlain cs := hstops (by cases kind <;> rfl)
  have hquote : Stops (· == '"') cs := hstops (by cases kind <;> rfl)
  rw [reads_body]
  cases kind with
  | object =>
    rw [entryRule, reads_member, reads_string_other _ o hquote]
    simp [Body.trace]
  | array =>
    have hblank : skip cs = cs := skip_of_stops (hstops rfl)
    have hcontainer (kind : ContainerKind) : reads (n + 3) (containerRule kind) (.text o cs) = (.mismatch, []) := by
      refine reads_container_other (n + 1) o fun d hd => ?_
      rw [hblank, h] at hd
      obtain rfl := Option.some.inj hd
      cases kind <;> decide
    rw [entryRule, reads_value_of_not_plain _ o hplain, reads_string_other _ o hquote,
      show reads (n + 3) .object (.text o cs) = _ from hcontainer .object,
      show reads (n + 3) .array (.text o cs) = _ from hcontainer .array]
    simp [noted, Body.trace]

end Ahead

/-! ## Trees -/

mutual

/-- No blanks stand before the start of a container. -/
def Tree.Flush : Tree → Prop
  | .container _ opening body _ => opening.before.chars = [] ∧ body.Flush
  | _ => True

@[inherit_doc Tree.Flush]
def Body.Flush {kind : ContainerKind} : Body kind → Prop
  | .empty _ => True
  | .entries _ first rest => first.Flush ∧ rest.Flush

@[inherit_doc Tree.Flush]
def Rest.Flush {kind : ContainerKind} : Rest kind → Prop
  | .nil _ => True
  | .cons _ _ entry rest => entry.Flush ∧ rest.Flush

end

/-- A walk over the text of the tree takes the text of one that is alike; what is left differs in blanks. -/
def Tree.Completes (t : Tree) : Prop :=
  ∀ (n o : Nat) (r : List Char), 5 * t.depth + 6 ≤ n → t.Ends (n - 1) o r →
    ∃ (u : Tree) (r' : List Char), u.Alike t ∧ u.Flush ∧ skip (t.text ++ r) = u.text ++ r' ∧ skip r' = skip r ∧
      reads n .value (.text o (skip (t.text ++ r))) = (.matched (.text (o + size u.text) r'), u.trace o)

/-- A walk over what stands before the end of a container takes it. -/
def Body.Completes {kind : ContainerKind} (body : Body kind) : Prop :=
  ∀ (n o : Nat) (q : List Char), 5 * body.depth + 9 ≤ n → (skip q).head? = some (closeChar kind) →
    ∃ (b : Body kind) (q' : List Char), b.Alike body ∧ b.Flush ∧ skip (body.text ++ q) = b.text ++ q' ∧
      skip q' = skip q ∧ tests n (.optTable (bodyRule kind)) (.text o (skip (body.text ++ q))) =
        (.matched (.text (o + size b.text) q'), b.trace o)

/-- Walks over the further entries of a container take them one after another. -/
def Rest.Completes {kind : ContainerKind} (rest : Rest kind) : Prop :=
  ∀ (n o : Nat) (cs q : List Char), 5 * rest.depth + 8 ≤ n → (skip q).head? = some (closeChar kind) →
    skip cs = skip (rest.text ++ q) →
    ∃ (s : Rest kind) (q' : List Char), s.Alike rest ∧ s.Flush ∧ cs = s.text ++ q' ∧ skip q' = skip q ∧
      Chain (reads n (nextRule kind)) (.text o cs) (.text (o + size s.text) q') (s.trace o)

section Steps

variable {kind : ContainerKind}

theorem Tree.Completes.entry {t : Tree} (ht : t.Completes) (label : Label kind) (n o : Nat) (r : List Char)
    (hn : 5 * t.depth + 7 ≤ n) (hr : Delimits r) :
    ∃ (l : Label kind) (u : Tree) (r' : List Char), l.Alike label ∧ u.Alike t ∧ u.Flush ∧
      skip (label.text ++ (t.text ++ r)) = l.text ++ (u.text ++ r') ∧ skip r' = skip r ∧
      reads n (entryRule kind) (.text o (skip (label.text ++ (t.text ++ r)))) =
        (.matched (.text (o + size (l.text ++ u.text)) r'), l.trace o u.text (u.trace (o + size l.text))) := by
  cases label with
  | item =>
    obtain ⟨u, r', hu, hflush, htext, hskip, hreads⟩ := ht n o r (by omega) (t.ends_of_delimits _ o hr (by omega))
    exact ⟨.item, u, r', ⟨rfl, rfl, rfl⟩, hu, hflush, htext, hskip, hreads⟩
  | member name colon =>
    obtain ⟨m, rfl⟩ := Nat.exists_eq_add_of_le' (show 6 ≤ n by omega)
    have hcs : skip ((Label.member name colon).text ++ (t.text ++ r)) =
        name.text ++ (colon.text ':' ++ (t.text ++ r)) := by
      rw [Label.text, List.append_assoc]
      exact skip_of_stops (stops_cons _ rfl)
    obtain ⟨a, ha, hcolon⟩ := marks_colon.take (colon.skip_text_append marks_colon.1 (t.text ++ r))
    rw [skip_append] at ha hcolon
    obtain ⟨u, r', hu, hflush, htext, hskip, hreads⟩ :=
      ht (m + 5) (o + size name.text + size (a.text ':')) r (by omega) (t.ends_of_delimits _ _ hr (by omega))
    have hbare : bare (Label.member name a).text = bare (Label.member name colon).text := by
      simp only [Label.text, bare_append, bare_around _ marks_colon.1]
    refine ⟨.member name a, u, r', ⟨rfl, rfl, hbare⟩, hu, hflush, ?_, hskip, ?_⟩
    · rw [hcs, ha, htext, Label.text, List.append_assoc]
    · rw [hcs, entryRule, reads_member, reads_string_text, andThen_matched, after_nil, hcolon (m + 4), andThen_matched,
        after_nil, hreads]
      rw [htext]
      simp only [noted, andThen_matched, after_mk, Match.between_text, Label.text, Label.trace, size_append,
        ← Nat.add_assoc]
      rfl

theorem delimits_of_skip {cs : List Char} (h : Delimits (skip cs)) : Delimits cs := by
  intro c hc
  by_cases hblank : isBlank c = true
  · simp [isDelimiter, hblank]
  · have hcs : skip cs = cs := by
      refine skip_of_stops fun d hd => ?_
      rw [hc] at hd
      obtain rfl := Option.some.inj hd
      simpa using hblank
    rw [hcs] at h
    exact h c hc

theorem Rest.delimits (rest : Rest kind) {q : List Char} (hq : (skip q).head? = some (closeChar kind)) :
    Delimits (rest.text ++ q) := by
  refine delimits_of_skip fun c hc => ?_
  cases rest with
  | nil =>
    rw [Rest.text, List.nil_append, hq] at hc
    obtain rfl := Option.some.inj hc
    cases kind <;> rfl
  | cons comma label entry rest =>
    rw [Rest.text, List.append_assoc, comma.skip_text_append marks_comma.1] at hc
    obtain rfl := Option.some.inj hc
    rfl

theorem Rest.Completes.nil : (Rest.nil kind).Completes := by
  intro n o cs q _ _ hcs
  exact ⟨.nil kind, cs, ⟨rfl, rfl, rfl, rfl, rfl, rfl, rfl⟩, trivial, rfl, hcs, .nil _⟩

theorem Rest.Completes.cons {t : Tree} {rest : Rest kind} (ht : t.Completes) (hrest : rest.Completes) (comma : Around)
    (label : Label kind) : (Rest.cons comma label t rest).Completes := by
  intro n o cs q hn hq hcs
  rw [Rest.depth] at hn
  obtain ⟨m, rfl⟩ := Nat.exists_eq_add_of_le' (show 1 ≤ n by omega)
  rw [Rest.text, List.append_assoc, comma.skip_text_append marks_comma.1] at hcs
  obtain ⟨a, rfl, hcomma⟩ := marks_comma.take hcs
  have htail : skip (comma.after.chars ++ ((label.text ++ (t.text ++ rest.text)) ++ q)) =
      skip (label.text ++ (t.text ++ (rest.text ++ q))) := by
    rw [skip_append, List.append_assoc, List.append_assoc]
  rw [htail] at hcomma ⊢
  obtain ⟨l, u, r, hl, hu, hflush, htext, hskip, hentry⟩ :=
    ht.entry label m (o + size (a.text ',')) (rest.text ++ q) (by omega) (rest.delimits hq)
  obtain ⟨s, q', hs, hflush', rfl, hq', hchain⟩ :=
    hrest (m + 1) (o + size (a.text ',') + size (l.text ++ u.text)) r q (by omega) hq hskip
  have hfirst : reads (m + 1) (nextRule kind)
      (.text o (a.text ',' ++ skip (label.text ++ (t.text ++ (rest.text ++ q))))) =
      (.matched (.text (o + size (a.text ',') + size (l.text ++ u.text)) (s.text ++ q')),
        l.trace (o + size (a.text ',')) u.text (u.trace (o + size (a.text ',') + size l.text))) := by
    obtain ⟨m, rfl⟩ := Nat.exists_eq_add_of_le' (show 1 ≤ m by omega)
    rw [reads_next, hcomma, andThen_matched, after_nil, hentry]
  have hpos : 0 < size (a.text ',') := size_pos (by simp [Around.text])
  refine ⟨.cons a l u s, q', .cons hl hu hs _ _, ⟨hflush, hflush'⟩, ?_, hq', ?_⟩
  · rw [htext]
    simp only [Rest.text, List.append_assoc]
  · have hmoved : o + size (a.text ',') + size (l.text ++ u.text) ≠ o := by omega
    have hshorter : (encode (s.text ++ q')).length <
        (encode (a.text ',' ++ skip (label.text ++ (t.text ++ (rest.text ++ q))))).length := by
      rw [htext]
      simp only [length_encode, size_append]
      omega
    have := Chain.cons hfirst hmoved hshorter hchain
    simpa only [Rest.text, Rest.trace, size_append, Nat.add_assoc] using this

theorem Body.Completes.empty : (Body.empty kind).Completes := by
  intro n o q hn hq
  obtain ⟨m, rfl⟩ := Nat.exists_eq_add_of_le' (show 5 ≤ n by omega)
  refine ⟨.empty kind, skip q, ⟨rfl, rfl, rfl, rfl, rfl, rfl, rfl⟩, trivial, rfl, skip_skip q, ?_⟩
  rw [Body.text, List.nil_append, tests_optTable, reads_body_of_close m o hq]
  simp

theorem Body.Completes.entries {t : Tree} {rest : Rest kind} (ht : t.Completes) (hrest : rest.Completes)
    (label : Label kind) : (Body.entries label t rest).Completes := by
  intro n o q hn hq
  rw [Body.depth] at hn
  obtain ⟨m, rfl⟩ := Nat.exists_eq_add_of_le' (show 2 ≤ n by omega)
  have hcs : (Body.entries label t rest).text ++ q = label.text ++ (t.text ++ (rest.text ++ q)) := by
    simp only [Body.text, List.append_assoc]
  obtain ⟨l, u, r, hl, hu, hflush, htext, hskip, hentry⟩ :=
    ht.entry label (m + 1) o (rest.text ++ q) (by omega) (rest.delimits hq)
  obtain ⟨s, q', hs, hflush', rfl, hq', hchain⟩ := hrest (m + 1) (o + size (l.text ++ u.text)) r q (by omega) hq hskip
  -- no further entry comes where the container ends
  have hstop : reads (m + 1) (nextRule kind) (.text (o + size (l.text ++ u.text) + size s.text) q') =
      (.mismatch, []) := by
    obtain ⟨m, rfl⟩ := Nat.exists_eq_add_of_le' (show 1 ≤ m by omega)
    have hcomma : reads (m + 1) .valueSeparator (.text (o + size (l.text ++ u.text) + size s.text) q') =
        (.mismatch, []) := by
      refine marks_comma.other m _ fun d hd => ?_
      rw [hq', hq] at hd
      obtain rfl := Option.some.inj hd
      cases kind <;> decide
    rw [reads_next, hcomma, andThen_mismatch]
  have hrepeat := repeatScan_of_chain hchain hstop _ (Nat.le_refl _) 0
  refine ⟨.entries l u s, q', .entries hl hu hs, ⟨hflush, hflush'⟩, ?_, hq', ?_⟩
  · rw [hcs, htext]
    simp only [Body.text, List.append_assoc]
  · rw [hcs, tests_optTable, reads_body, hentry, andThen_matched, tests_repeatTable, hrepeat]
    simp only [after_mk, orElse_matched, Body.text, Body.trace, size_append, Nat.add_assoc, List.append_nil]

/-- After a skip there are no blanks to stand before a structural character. -/
theorem Around.before_of_skip {a : Around} {c : Char} {cs r : List Char} (h : skip cs = a.text c ++ r) :
    a.before.chars = [] := by
  cases hb : a.before.chars with
  | nil => rfl
  | cons b bs =>
    have hblank : isBlank b = true := a.before.blank b (by rw [hb]; exact List.mem_cons_self ..)
    have hstop : isBlank b = false := stops_skip cs b (by rw [h, Around.text, hb]; rfl)
    rw [hblank] at hstop
    simp at hstop

theorem Tree.Completes.container {body : Body kind} (hbody : body.Completes) (opening closing : Around) :
    (Tree.container kind opening body closing).Completes := by
  intro n o r hn _
  rw [Tree.depth] at hn
  obtain ⟨m, rfl⟩ := Nat.exists_eq_add_of_le' (show 4 ≤ n by omega)
  have hcs : (Tree.container kind opening body closing).text ++ r =
      opening.text (openChar kind) ++ (body.text ++ (closing.text (closeChar kind) ++ r)) := by
    simp only [Tree.text, List.append_assoc]
  have hstart := opening.skip_text_append (marks_open kind).1 (body.text ++ (closing.text (closeChar kind) ++ r))
  rw [hcs]
  obtain ⟨a, ha, hopen⟩ := (marks_open kind).take ((skip_skip _).trans hstart)
  rw [skip_append] at ha hopen
  have hq : (skip (closing.text (closeChar kind) ++ r)).head? = some (closeChar kind) := by
    rw [closing.skip_text_append (marks_close kind).1]
    rfl
  obtain ⟨b, q, hb, hflush, htext, hskip, hreads⟩ :=
    hbody (m + 2) (o + size (a.text (openChar kind))) (closing.text (closeChar kind) ++ r) (by omega) hq
  obtain ⟨e, rfl, hclose⟩ := (marks_close kind).take
    (hskip.trans (closing.skip_text_append (marks_close kind).1 r))
  rw [skip_append] at hreads hclose htext
  refine ⟨.container kind a b e, skip r, hb.container _ _ _ _, ⟨?_, hflush⟩, ?_, skip_skip r, ?_⟩
  · exact Around.before_of_skip ha
  · rw [ha, htext]
    simp only [Tree.text, List.append_assoc]
  · have hhead : (skip (opening.text (openChar kind) ++ (body.text ++ (closing.text (closeChar kind) ++ r)))).head? =
        some (openChar kind) := by
      rw [hstart]
      rfl
    have hcontainer : reads (m + 3) (containerRule kind)
        (.text o (skip (opening.text (openChar kind) ++ (body.text ++ (closing.text (closeChar kind) ++ r))))) =
        (.matched (.text (o + size (Tree.container kind a b e).text) (skip r)),
          (Action.opens kind, ⟨o, encode (a.text (openChar kind))⟩) ::
            (b.trace (o + size (a.text (openChar kind))) ++
              [(Action.closes kind,
                ⟨o + size (a.text (openChar kind) ++ b.text), encode (e.text (closeChar kind))⟩)])) := by
      rw [reads_container, hopen, andThen_matched, after_nil, hreads, andThen_matched, hclose]
      rw [ha, htext]
      simp only [noted, andThen_matched, after_mk, Match.between_text, Tree.text, size_append, ← Nat.add_assoc]
      rfl
    exact reads_value_container m o hhead hcontainer

theorem Tree.Completes.of_text {t : Tree} (hflush : t.Flush) (hblank : ∀ r, Stops isBlank (t.text ++ r))
    (hreads : ∀ n o r, t.Ends (n + 5) o r →
      reads (n + 6) .value (.text o (t.text ++ r)) = (.matched (.text (o + size t.text) r), t.trace o)) :
    t.Completes := by
  intro n o r hn hr
  obtain ⟨m, rfl⟩ := Nat.exists_eq_add_of_le' (show 6 ≤ n by omega)
  have hskip : skip (t.text ++ r) = t.text ++ r := skip_of_stops (hblank r)
  refine ⟨t, r, .refl t, hflush, hskip, rfl, ?_⟩
  rw [hskip]
  exact hreads m o r hr

mutual

/-- A walk takes the text of every tree. -/
theorem Tree.completes : ∀ t : Tree, t.Completes
  | .null => .of_text trivial (fun _ => stops_cons _ rfl) fun n o r _ => reads_value_null (n + 5) o r
  | .boolean b =>
    .of_text trivial (fun _ => by cases b <;> exact stops_cons _ rfl)
      fun n o r _ => reads_value_boolean (n + 5) o b r
  | .number l =>
    .of_text trivial (fun r => l.stops rfl (fun c => not_blank_of_digit) r)
      fun n o r hr => reads_value_number (n + 5) o l hr
  | .string s => .of_text trivial (fun _ => stops_cons _ rfl) fun n o r _ => reads_value_string n o s r
  | .container _ opening body closing => .container (Body.completes body) opening closing

theorem Body.completes : ∀ {kind : ContainerKind} (body : Body kind), body.Completes
  | _, .empty _ => .empty
  | _, .entries label first rest => .entries (Tree.completes first) (Rest.completes rest) label

theorem Rest.completes : ∀ {kind : ContainerKind} (rest : Rest kind), rest.Completes
  | _, .nil _ => .nil
  | _, .cons comma label entry rest => .cons (Tree.completes entry) (Rest.completes rest) comma label

end

end Steps

/-! ## Documents -/

/-- A walk takes the text of every document, if it may open enough tables; what follows may be anything that goes on
with neither the tree nor the blanks after it. -/
theorem reads_document_append (d : Document) {n : Nat} {r : List Char} (hn : 5 * d.tree.depth + 7 ≤ n)
    (hends : d.tree.Ends (n - 2) (size (leading (d.text ++ r)).chars) (d.after.chars ++ r)) (hr : Stops isBlank r) :
    ∃ e : Document, e.text = d.text ∧ e.tree.Alike d.tree ∧ e.tree.Flush ∧
      reads n .jsonText (.text 0 (d.text ++ r)) = (.matched (.text (size d.text) r), e.trace) := by
  obtain ⟨m, rfl⟩ := Nat.exists_eq_add_of_le' (show 1 ≤ n by omega)
  have hblanks : skip (d.after.chars ++ r) = r := by rw [skip_append, skip_of_stops hr]
  have hskip : skip (d.text ++ r) = skip (d.tree.text ++ (d.after.chars ++ r)) := by
    rw [Document.text, List.append_assoc, List.append_assoc, skip_append]
  obtain ⟨u, r', hu, hflush, htext, hr', hreads⟩ :=
    Tree.completes d.tree m (size (leading (d.text ++ r)).chars) (d.after.chars ++ r) (by omega) hends
  rw [hblanks] at hr'
  have hlast : (leading r').chars ++ r = r' := by
    have := leading_append_skip r'
    rwa [hr'] at this
  have hd : d.text = (leading (d.text ++ r)).chars ++ (u.text ++ (leading r').chars) := by
    have : d.text ++ r = (leading (d.text ++ r)).chars ++ (u.text ++ (leading r').chars) ++ r := by
      rw [List.append_assoc, List.append_assoc, hlast, ← htext, ← hskip, leading_append_skip]
    exact List.append_cancel_right this
  have he : (⟨leading (d.text ++ r), u, leading r'⟩ : Document).text = d.text := hd.symm
  have hsize : size (leading (d.text ++ r)).chars + size u.text + size (leading r').chars = size d.text := by
    rw [Nat.add_assoc, ← size_append, ← size_append, ← hd]
  refine ⟨⟨leading (d.text ++ r), u, leading r'⟩, he, hu, hflush, ?_⟩
  rw [reads_jsonText, tests_anyBlanks, andThen_matched, after_nil, hskip, Nat.zero_add, hreads, fork_matched,
    tests_anyBlanks, hr', andThen_matched, Document.trace, he]
  simp only [after_mk, Match.between_self, hsize]
  rfl

/-- A walk takes the text of every document, if it may open enough tables. -/
theorem reads_document (d : Document) {n : Nat} (hn : 5 * d.tree.depth + 7 ≤ n) :
    ∃ e : Document, e.text = d.text ∧ e.tree.Alike d.tree ∧ e.tree.Flush ∧
      reads n .jsonText (.text 0 d.text) = (.matched (.text (size d.text) []), e.trace) := by
  have hafter : Delimits (d.after.chars ++ []) := by
    intro c hc
    rw [List.append_nil] at hc
    simp [isDelimiter, d.after.blank c (List.mem_of_mem_head? hc)]
  have hends := d.tree.ends_of_delimits (n - 2) (size (leading (d.text ++ [])).chars) hafter (by omega)
  have h := reads_document_append d hn hends (stops_nil _)
  rwa [List.append_nil] at h

end TableJson.Grammar
