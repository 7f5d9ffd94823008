import TableJson.Proofs.Grammar.NumberTable
import TableJson.Proofs.Grammar.StringTable
import TableJson.Proofs.Grammar.Tree

/-!
# Soundness — whatever a walk takes has a tree

A walk that matches has taken the text of a tree, and what it has handed over is the trace of that tree
(`value_of_reads`, `document_of_reads`).  The alternatives that are given up on the way hand over a missing sign at
most.

The proof goes by the number of tables that may be open: `Sound n` is what is known of walks with at most `n` of them,
and each table needs it for the tables that it opens.
-/

namespace TableJson.Grammar

open Machine Utf8 Scan

/-- A walk that ends at `there` has taken the word `w` from the text `cs` at the offset `o`. -/
def Took (there : Cursor) (o : Nat) (cs w : List Char) : Prop := ∃ r, cs = w ++ r ∧ there = .text (o + size w) r

theorem Took.append {there : Cursor} {o : Nat} {cs r v w : List Char} (hcs : cs = v ++ r)
    (h : Took there (o + size v) r w) : Took there o cs (v ++ w) := by
  obtain ⟨r', rfl, rfl⟩ := h
  exact ⟨r', by rw [hcs, List.append_assoc], by rw [size_append, Nat.add_assoc]⟩

/-- What is known of walks with at most `n` tables open.  After the entries of a body there may be a comma without an
entry; what was handed over in looking for one stands in `extra`. -/
structure Sound (n : Nat) : Prop where
  value {o : Nat} {cs : List Char} {there : Cursor} {tr : List (Action × Match)}
    (h : reads n .value (.text o cs) = (.matched there, tr)) : ∃ t : Tree, Took there o cs t.text ∧ tr = t.trace o
  entry (kind : ContainerKind) {o : Nat} {cs : List Char} {there : Cursor} {tr : List (Action × Match)}
    (h : reads n (entryRule kind) (.text o cs) = (.matched there, tr)) :
    ∃ (label : Label kind) (t : Tree), Took there o cs (label.text ++ t.text) ∧
      tr = label.trace o t.text (t.trace (o + size label.text))
  next (kind : ContainerKind) {o : Nat} {cs : List Char} {there : Cursor} {tr : List (Action × Match)}
    (h : reads n (nextRule kind) (.text o cs) = (.matched there, tr)) :
    ∃ (comma : Around) (label : Label kind) (t : Tree), Took there o cs (comma.text ',' ++ (label.text ++ t.text)) ∧
      tr = label.trace (o + size (comma.text ',')) t.text (t.trace (o + size (comma.text ',') + size label.text))
  body (kind : ContainerKind) {o : Nat} {cs : List Char} {there : Cursor} {tr : List (Action × Match)}
    (h : reads n (bodyRule kind) (.text o cs) = (.matched there, tr)) :
    ∃ (body : Body kind) (r : List Char) (extra : List (Action × Match)), cs = body.text ++ r ∧
      there = .text (o + size body.text) r ∧ tr = body.trace o ++ extra ∧ (extra = [] ∨ (skip r).head? = some ',')
  container (kind : ContainerKind) {o : Nat} {cs : List Char} {there : Cursor} {tr : List (Action × Match)}
    (h : reads n (containerRule kind) (.text o cs) = (.matched there, tr)) :
    ∃ (opening : Around) (body : Body kind) (closing : Around),
      Took there o cs (Tree.container kind opening body closing).text ∧
      (.numberSign, ⟨o, []⟩) :: tr = (Tree.container kind opening body closing).trace o

theorem sound_zero : Sound 0 := by
  refine ⟨?_, ?_, ?_, ?_, ?_⟩ <;> intros <;> simp_all [reads_zero]

section Step

variable {n o : Nat} {cs : List Char} {there : Cursor} {tr : List (Action × Match)} {kind : ContainerKind}

/-! ## Alternatives that are given up -/

theorem Lexes.seq (word : String) : Lexes (tests n (.seq word)) fun ds => ds = word.toList := by
  refine ⟨fun {o cs there tr} hm => ?_, fun {o cs tr} hm => (Prod.mk.inj hm).2.symm⟩
  by_cases hp : word.toList <+: cs
  · obtain ⟨r, rfl⟩ := hp
    rw [tests, plain_seq_append] at hm
    obtain ⟨h, rfl⟩ := Prod.mk.inj hm
    exact ⟨_, r, rfl, rfl, (Outcome.matched.inj h).symm, rfl⟩
  · rw [tests, plain_seq_of_not_prefix _ _ hp] at hm
    simp at hm

theorem noted_eq_matched {a : Action} {here : Cursor} {x : Scan (Action × Match)} :
    noted a here x = (.matched there, tr) ↔
      ∃ tr', x = (.matched there, tr') ∧ tr = tr' ++ [(a, .between here there)] := by
  rw [noted, andThen_eq_matched]
  constructor
  · rintro ⟨mid, tr₁, tr₂, hx, h, rfl⟩
    obtain ⟨hm, rfl⟩ := Prod.mk.inj h
    obtain rfl := Outcome.matched.inj hm
    exact ⟨tr₁, hx, rfl⟩
  · rintro ⟨tr', hx, rfl⟩
    exact ⟨there, tr', _, hx, rfl, rfl⟩

theorem noted_eq_mismatch {a : Action} {here : Cursor} {x : Scan (Action × Match)} :
    noted a here x = (.mismatch, tr) ↔ x = (.mismatch, tr) := by
  rw [noted, andThen_eq_mismatch]
  simp

/-- A class without blanks does not go on where it does not after them. -/
theorem stops_of_skip {p : Char → Bool} (hp : ∀ c, isBlank c = true → p c = false)
    (h : Stops p (skip cs)) : Stops p cs := by
  cases cs with
  | nil => exact stops_nil p
  | cons c cs =>
    by_cases hc : isBlank c = true
    · exact stops_cons _ (hp c hc)
    · rw [skip_of_stops (stops_cons _ (by simpa using hc))] at h
      exact h

theorem not_minus_of_blank {c : Char} (h : isBlank c = true) : (c == '-') = false := by
  have : c = ' ' ∨ c = '\t' ∨ c = '\n' ∨ c = '\r' := by simpa [isBlank, or_assoc] using h
  rcases this with rfl | rfl | rfl | rfl <;> rfl

/-- A container that does not start here hands over nothing. -/
theorem trace_of_no_container (kind : ContainerKind) (hcs : Stops (· == openChar kind) (skip cs))
    (h : reads n (containerRule kind) (.text o cs) = (.mismatch, tr)) : tr = [] := by
  cases n with
  | zero => simp [reads_zero] at h
  | succ n =>
    rw [reads_container] at h
    rcases andThen_eq_mismatch.1 h with h | ⟨mid, tr₁, tr₂, hopen, -, -⟩
    · exact ((marks_open kind).lexes n).silent h
    · -- it would have started with its opening character
      obtain ⟨_, r, rfl, ⟨a, rfl⟩, -, -⟩ := ((marks_open kind).lexes n).word hopen
      rw [Around.skip_text_append a (marks_open kind).1] at hcs
      simpa using hcs _ rfl

/-- A walk that finds no value where a container ends has handed over a missing sign. -/
theorem trace_of_no_value (hcs : (skip cs).head? = some (closeChar kind))
    (h : reads n .value (.text o cs) = (.mismatch, tr)) : tr = [(.numberSign, ⟨o, []⟩)] := by
  have hstops {p : Char → Bool} (hp : p (closeChar kind) = false) : Stops p (skip cs) := by
    intro c hc
    rw [hcs] at hc
    obtain rfl := Option.some.inj hc
    exact hp
  cases n with
  | zero => simp [reads_zero] at h
  | succ n =>
    rw [reads_value] at h
    obtain ⟨_, _, hfalse, h₁, rfl⟩ := orElse_eq_mismatch.1 h
    obtain ⟨_, _, hnull, h₂, rfl⟩ := orElse_eq_mismatch.1 h₁
    obtain ⟨_, _, htrue, h₃, rfl⟩ := orElse_eq_mismatch.1 h₂
    obtain ⟨_, _, hnumber, h₄, rfl⟩ := orElse_eq_mismatch.1 h₃
    obtain ⟨_, _, hstring, h₅, rfl⟩ := orElse_eq_mismatch.1 h₄
    obtain ⟨_, _, hobject, harray, rfl⟩ := orElse_eq_mismatch.1 h₅
    have hminus : Stops (· == '-') cs := by
      refine stops_of_skip (fun c => not_minus_of_blank) (hstops ?_)
      cases kind <;> rfl
    have hnumber := trace_of_no_number n hminus (noted_eq_mismatch.1 hnumber)
    have hobject : _ = [] := trace_of_no_container .object (hstops (by cases kind <;> rfl)) hobject
    have harray : _ = [] := trace_of_no_container .array (hstops (by cases kind <;> rfl)) harray
    rw [(Lexes.seq _).silent (noted_eq_mismatch.1 hfalse), (Lexes.seq _).silent (noted_eq_mismatch.1 hnull),
      (Lexes.seq _).silent (noted_eq_mismatch.1 htrue), hnumber, (lexes_string n).silent (noted_eq_mismatch.1 hstring),
      hobject, harray]
    rfl

/-- A walk that finds no entry where a container ends has handed over what stands for an empty body. -/
theorem trace_of_no_body (hcs : (skip cs).head? = some (closeChar kind))
    (h : reads n (bodyRule kind) (.text o cs) = (.mismatch, tr)) : tr = (Body.empty kind).trace o := by
  cases n with
  | zero => simp [reads_zero] at h
  | succ n =>
    rw [reads_body] at h
    rcases andThen_eq_mismatch.1 h with h | ⟨mid, tr₁, tr₂, -, hrest, -⟩
    · cases kind with
      | array => exact trace_of_no_value hcs h
      | object =>
        cases n with
        | zero => simp [entryRule, reads_zero] at h
        | succ n =>
          rw [entryRule, reads_member] at h
          rcases andThen_eq_mismatch.1 h with h | ⟨mid, tr₁, tr₂, hname, -, -⟩
          · exact (lexes_string n).silent h
          · -- a member would have started with a quote
            obtain ⟨_, r, rfl, ⟨s, rfl⟩, -, -⟩ := (lexes_string n).word hname
            simp [Quoted.text, skip, isBlank, closeChar] at hcs
    · rw [tests_repeatTable] at hrest
      exact absurd hrest (repeatScan_ne_mismatch _ _ _ _ _)

theorem trace_of_no_next (h : reads n (nextRule kind) (.text o cs) = (.mismatch, tr)) :
    tr = [] ∨ (skip cs).head? = some ',' := by
  cases n with
  | zero => simp [reads_zero] at h
  | succ n =>
    rw [reads_next] at h
    rcases andThen_eq_mismatch.1 h with h | ⟨mid, tr₁, tr₂, hcomma, -, -⟩
    · exact Or.inl ((marks_comma.lexes n).silent h)
    · obtain ⟨_, r, rfl, ⟨a, rfl⟩, -, -⟩ := (marks_comma.lexes n).word hcomma
      rw [Around.skip_text_append a marks_comma.1]
      exact Or.inr rfl

/-! ## What is taken -/

theorem took_word (n : Nat) {a : Action} {word : String}
    (h : noted a (.text o cs) (tests n (.seq word) (.text o cs)) = (.matched there, tr)) :
    Took there o cs word.toList ∧ tr = [(a, ⟨o, encode word.toList⟩)] := by
  obtain ⟨_, hword, rfl⟩ := noted_eq_matched.1 h
  obtain ⟨_, r, rfl, rfl, rfl, rfl⟩ := (Lexes.seq word).word hword
  rw [Match.between_text]
  exact ⟨⟨r, rfl, rfl⟩, rfl⟩

theorem Sound.value_step (ih : Sound n) (h : reads (n + 1) .value (.text o cs) = (.matched there, tr)) :
    ∃ t : Tree, Took there o cs t.text ∧ tr = t.trace o := by
  rw [reads_value] at h
  rcases orElse_eq_matched.1 h with h₁ | ⟨_, _, hfalse, h₁, rfl⟩
  · obtain ⟨htook, rfl⟩ := took_word n h₁
    exact ⟨.boolean false, htook, rfl⟩
  rw [(Lexes.seq _).silent (noted_eq_mismatch.1 hfalse)]
  rcases orElse_eq_matched.1 h₁ with h₂ | ⟨_, _, hnull, h₂, rfl⟩
  · obtain ⟨htook, rfl⟩ := took_word n h₂
    exact ⟨.null, htook, rfl⟩
  rw [(Lexes.seq _).silent (noted_eq_mismatch.1 hnull)]
  rcases orElse_eq_matched.1 h₂ with h₃ | ⟨_, _, htrue, h₃, rfl⟩
  · obtain ⟨htook, rfl⟩ := took_word n h₃
    exact ⟨.boolean true, htook, rfl⟩
  rw [(Lexes.seq _).silent (noted_eq_mismatch.1 htrue)]
  rcases orElse_eq_matched.1 h₃ with h₄ | ⟨_, _, hnumber, h₄, rfl⟩
  · obtain ⟨_, hword, rfl⟩ := noted_eq_matched.1 h₄
    obtain ⟨l, r, rfl, rfl, rfl⟩ := number_of_reads n hword
    rw [Match.between_text]
    exact ⟨.number l, ⟨r, rfl, rfl⟩, rfl⟩
  rcases orElse_eq_matched.1 h₄ with h₅ | ⟨_, _, hstring, h₅, rfl⟩
  · obtain ⟨_, hword, rfl⟩ := noted_eq_matched.1 h₅
    obtain ⟨_, r, rfl, ⟨s, rfl⟩, rfl, rfl⟩ := (lexes_string n).word hword
    have hminus : Stops (· == '-') (Quoted.text s ++ r) := stops_cons _ rfl
    rw [Match.between_text, trace_of_no_number n hminus (noted_eq_mismatch.1 hnumber)]
    exact ⟨.string s, ⟨r, rfl, rfl⟩, rfl⟩
  rw [(lexes_string n).silent (noted_eq_mismatch.1 hstring)]
  have hminus {kind : ContainerKind} {opening closing : Around} {body : Body kind}
      (ht : Took there o cs (Tree.container kind opening body closing).text) : Stops (· == '-') cs := by
    obtain ⟨r, rfl, -⟩ := ht
    refine stops_of_skip (fun c => not_minus_of_blank) ?_
    rw [Tree.text, List.append_assoc, Around.skip_text_append _ (marks_open kind).1]
    exact stops_cons _ (by cases kind <;> rfl)
  rcases orElse_eq_matched.1 h₅ with h₆ | ⟨_, _, hobject, h₆, rfl⟩
  · obtain ⟨opening, body, closing, htook, htr⟩ := ih.container .object h₆
    rw [trace_of_no_number n (hminus htook) (noted_eq_mismatch.1 hnumber)]
    exact ⟨_, htook, htr⟩
  · obtain ⟨opening, body, closing, htook, htr⟩ := ih.container .array h₆
    have hstops : Stops (· == openChar .object) (skip cs) := by
      obtain ⟨r, rfl, -⟩ := htook
      rw [Tree.text, List.append_assoc, Around.skip_text_append _ (marks_open .array).1]
      exact stops_cons _ rfl
    rw [trace_of_no_number n (hminus htook) (noted_eq_mismatch.1 hnumber), trace_of_no_container .object hstops hobject]
    exact ⟨_, htook, htr⟩

theorem Sound.entry_step (ih : Sound n) (h : reads (n + 1) (entryRule kind) (.text o cs) = (.matched there, tr)) :
    ∃ (label : Label kind) (t : Tree), Took there o cs (label.text ++ t.text) ∧
      tr = label.trace o t.text (t.trace (o + size label.text)) := by
  cases kind with
  | array =>
    obtain ⟨t, htook, rfl⟩ := ih.value_step h
    exact ⟨.item, t, htook, rfl⟩
  | object =>
    rw [entryRule, reads_member] at h
    obtain ⟨c, _, _, hname, h₁, rfl⟩ := andThen_eq_matched.1 h
    obtain ⟨_, r, rfl, ⟨name, rfl⟩, rfl, rfl⟩ := (lexes_string n).word hname
    obtain ⟨_, h₂, rfl⟩ := after_eq_iff.1 h₁
    obtain ⟨d, _, _, hcolon, h₃, rfl⟩ := andThen_eq_matched.1 h₂
    obtain ⟨_, r, rfl, ⟨colon, rfl⟩, rfl, rfl⟩ := (marks_colon.lexes n).word hcolon
    obtain ⟨_, hvalue, rfl⟩ := noted_eq_matched.1 h₃
    obtain ⟨t, ⟨r, rfl, rfl⟩, rfl⟩ := ih.value hvalue
    refine ⟨.member name colon, t, ⟨r, ?_, ?_⟩, ?_⟩
    · simp only [Label.text, List.append_assoc]
    · simp only [Label.text, size_append, Nat.add_assoc]
    · simp only [Label.text, Label.trace, Match.between_text, size_append, ← Nat.add_assoc]
      rfl

theorem Sound.next_step (ih : Sound n) (h : reads (n + 1) (nextRule kind) (.text o cs) = (.matched there, tr)) :
    ∃ (comma : Around) (label : Label kind) (t : Tree), Took there o cs (comma.text ',' ++ (label.text ++ t.text)) ∧
      tr = label.trace (o + size (comma.text ',')) t.text (t.trace (o + size (comma.text ',') + size label.text)) := by
  rw [reads_next] at h
  obtain ⟨c, _, _, hcomma, hentry, rfl⟩ := andThen_eq_matched.1 h
  obtain ⟨_, r, rfl, ⟨comma, rfl⟩, rfl, rfl⟩ := (marks_comma.lexes n).word hcomma
  obtain ⟨label, t, htook, rfl⟩ := ih.entry kind hentry
  exact ⟨comma, label, t, htook.append rfl, rfl⟩

theorem Sound.rest_of_chain (ih : Sound n) {here : Cursor} (h : Chain (reads n (nextRule kind)) here there tr)
    (hhere : here = .text o cs) : ∃ rest : Rest kind, Took there o cs rest.text ∧ tr = rest.trace o := by
  induction h generalizing o cs with
  | nil here => exact ⟨.nil kind, ⟨cs, rfl, hhere⟩, rfl⟩
  | cons first moved shorter rest hrest =>
    subst hhere
    obtain ⟨comma, label, t, ⟨r, rfl, rfl⟩, rfl⟩ := ih.next kind first
    obtain ⟨more, htook, rfl⟩ := hrest rfl
    refine ⟨.cons comma label t more, ?_, ?_⟩
    · simpa only [Rest.text, List.append_assoc] using htook.append rfl
    · simp only [Rest.trace, List.append_assoc, size_append, Nat.add_assoc]

theorem Sound.body_step (ih : Sound n) (h : reads (n + 1) (bodyRule kind) (.text o cs) = (.matched there, tr)) :
    ∃ (body : Body kind) (r : List Char) (extra : List (Action × Match)), cs = body.text ++ r ∧
      there = .text (o + size body.text) r ∧ tr = body.trace o ++ extra ∧
      (extra = [] ∨ (skip r).head? = some ',') := by
  rw [reads_body] at h
  obtain ⟨c, _, _, hfirst, hrest, rfl⟩ := andThen_eq_matched.1 h
  obtain ⟨label, t, ⟨r, rfl, rfl⟩, rfl⟩ := ih.entry kind hfirst
  rw [tests_repeatTable] at hrest
  have hmoves : ∀ o cs next ms, reads n (nextRule kind) (.text o cs) = (.matched next, ms) →
      ∃ ds rest, ds ≠ [] ∧ cs = ds ++ rest ∧ next = .text (o + size ds) rest := by
    intro o cs next ms hn
    obtain ⟨comma, label, t, ⟨r, hcs, hnext⟩, -⟩ := ih.next kind hn
    exact ⟨_, r, by simp [Around.text], hcs, hnext⟩
  obtain ⟨ms₁, ms₂, hchain, hstop, rfl⟩ := chain_of_repeatScan hmoves _ _ _ _ (Nat.le_refl _) hrest
  obtain ⟨rest, ⟨r, rfl, rfl⟩, rfl⟩ := ih.rest_of_chain hchain rfl
  refine ⟨.entries label t rest, r, ms₂, ?_, ?_, ?_, trace_of_no_next hstop⟩
  · simp only [Body.text, List.append_assoc]
  · simp only [Body.text, size_append, Nat.add_assoc]
  · simp only [Body.trace, List.append_assoc, size_append]

theorem Sound.container_step (ih : Sound n)
    (h : reads (n + 1) (containerRule kind) (.text o cs) = (.matched there, tr)) :
    ∃ (opening : Around) (body : Body kind) (closing : Around),
      Took there o cs (Tree.container kind opening body closing).text ∧
      (.numberSign, ⟨o, []⟩) :: tr = (Tree.container kind opening body closing).trace o := by
  rw [reads_container] at h
  obtain ⟨c, _, _, hopen, h₁, rfl⟩ := andThen_eq_matched.1 h
  obtain ⟨_, r, rfl, ⟨opening, rfl⟩, rfl, rfl⟩ := ((marks_open kind).lexes n).word hopen
  obtain ⟨_, h₂, rfl⟩ := after_eq_iff.1 h₁
  obtain ⟨d, tr₁, _, hbody, h₃, rfl⟩ := andThen_eq_matched.1 h₂
  obtain ⟨_, hclose, rfl⟩ := noted_eq_matched.1 h₃
  have hfound : ∃ (body : Body kind) (r' : List Char), r = body.text ++ r' ∧
      d = .text (o + size (opening.text (openChar kind)) + size body.text) r' ∧
      ((skip r').head? = some (closeChar kind) → tr₁ = body.trace (o + size (opening.text (openChar kind)))) := by
    rw [tests_optTable] at hbody
    rcases orElse_eq_matched.1 hbody with hb | ⟨_, _, hb, hd, rfl⟩
    · obtain ⟨body, r', extra, rfl, rfl, rfl, hextra⟩ := ih.body kind hb
      refine ⟨body, r', rfl, rfl, fun hhead => ?_⟩
      rcases hextra with rfl | hcomma
      · rw [List.append_nil]
      · rw [hhead] at hcomma
        cases kind <;> simp [closeChar] at hcomma
    · obtain ⟨hd', rfl⟩ := Prod.mk.inj hd
      refine ⟨.empty kind, r, rfl, (Outcome.matched.inj hd').symm, fun hhead => ?_⟩
      rw [List.append_nil, trace_of_no_body hhead hb]
  obtain ⟨body, r', rfl, rfl, htr⟩ := hfound
  obtain ⟨_, r'', rfl, ⟨closing, rfl⟩, rfl, rfl⟩ := ((marks_close kind).lexes n).word hclose
  rw [htr (by rw [Around.skip_text_append _ (marks_close kind).1]; rfl)]
  refine ⟨opening, body, closing, ⟨r'', ?_, ?_⟩, ?_⟩
  · simp only [Tree.text, List.append_assoc]
  · simp only [Tree.text, size_append, Nat.add_assoc]
  · simp only [Tree.trace, Match.between_text, size_append, ← Nat.add_assoc]
    rfl

end Step

/-- Whatever a walk takes has a tree, and it hands over the trace of that tree. -/
theorem sound (n : Nat) : Sound n := by
  induction n with
  | zero => exact sound_zero
  | succ n ih =>
    exact ⟨ih.value_step, fun kind => ih.entry_step, fun kind => ih.next_step, fun kind => ih.body_step,
      fun kind => ih.container_step⟩

/-! ## Documents -/

/-- A walk of a document that matches has taken the text of one. -/
theorem document_of_reads {n : Nat} {cs : List Char} {there : Cursor} {tr : List (Action × Match)}
    (h : reads n .jsonText (.text 0 cs) = (.matched there, tr)) :
    ∃ d : Document, Took there 0 cs d.text ∧ tr = d.trace := by
  cases n with
  | zero => simp [reads_zero] at h
  | succ n =>
    rw [reads_jsonText] at h
    obtain ⟨_, h₁, rfl⟩ := after_eq_iff.1 h
    obtain ⟨c, _, _, hbefore, h₂, rfl⟩ := andThen_eq_matched.1 h₁
    obtain ⟨_, r, rfl, ⟨before, rfl⟩, rfl, rfl⟩ := (lexes_blanks n).word hbefore
    rcases hv : reads n .value (.text (0 + size before.chars) r) with ⟨d | _ | _ | _, tr⟩
    · rw [hv, fork_matched] at h₂
      obtain ⟨_, h₃, rfl⟩ := after_eq_iff.1 h₂
      obtain ⟨t, ⟨r, rfl, rfl⟩, rfl⟩ := (sound n).value hv
      obtain ⟨e, _, _, hafter, h₄, rfl⟩ := andThen_eq_matched.1 h₃
      obtain ⟨_, r, rfl, ⟨after, rfl⟩, rfl, rfl⟩ := (lexes_blanks n).word hafter
      obtain ⟨he, rfl⟩ := Prod.mk.inj h₄
      obtain rfl := Outcome.matched.inj he
      refine ⟨⟨before, t, after⟩, ⟨r, ?_, ?_⟩, ?_⟩
      · simp only [Document.text, List.append_assoc]
      · simp only [Document.text, size_append, Nat.add_assoc]
      · simp only [Document.trace, Document.text, Match.between_self, size_append, Nat.zero_add, Nat.add_assoc]
        rfl
    · rw [hv] at h₂
      simp at h₂
    · rw [hv] at h₂
      simp at h₂
    · rw [hv] at h₂
      simp at h₂

end TableJson.Grammar
