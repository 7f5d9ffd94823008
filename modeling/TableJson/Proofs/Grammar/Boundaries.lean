import Mathlib.Data.List.Induction
import TableJson.Proofs.Grammar.Languages
import TableJson.Proofs.Grammar.Relaxing
import TableJson.Proofs.Machine.Alignment

/-!
# Boundaries — every offset of a reading lies between two characters

Offsets come from what the walk hands over and from how far it has looked.  All of them lie between two characters of
the text, also those at which a reading fails, and the parts of the text that a session cuts out are there to be cut
out.

* `Boundary`, `Sliceable`: an offset at which a text can be cut, and a part of a text.
* `Orderly`: what is handed over of a string are its quotes and all between them, and before a number is dealt with its
  parts have just been handed over, whatever was tried before (`kept_orderly`).
* `Placed`: a session that knows only boundaries; each action keeps that (`act_placed`).
* `position_eq`: the line and the column of an error, from the newlines before it.
* `read_located`: errors lie at characters, and whatever is cut out can be cut out.
-/

namespace TableJson.Grammar

open Machine Utf8

/-! ## Cutting a text -/

/-- An offset between two characters of a text, or at one of its ends. -/
def Boundary (text : List Char) (offset : Nat) : Prop := ∃ pre post, text = pre ++ post ∧ size pre = offset

/-- Some characters of a text stand between the two offsets. -/
def Sliceable (text : List Char) (start stop : Nat) : Prop :=
  ∃ pre inside post, text = pre ++ (inside ++ post) ∧ size pre = start ∧ start + size inside = stop

theorem boundary_zero (text : List Char) : Boundary text 0 := ⟨[], text, rfl, rfl⟩

/-- A match of a text stands between two boundaries. -/
theorem boundary_of_match {text pre inside post : List Char} (h : text = pre ++ (inside ++ post)) :
    Boundary text (size pre) ∧ Boundary text (Match.stop ⟨size pre, encode inside⟩) := by
  refine ⟨⟨pre, inside ++ post, h, rfl⟩, pre ++ inside, post, by rw [h, List.append_assoc], ?_⟩
  rw [Match.stop, length_encode, size_append]

/-- What is read of a text are characters of it. -/
theorem text_of_reads {o : Nat} {cs : List Char} {next : Cursor} (h : (Cursor.text o cs).Reads next) :
    ∃ ds post, cs = ds ++ post ∧ next = .text (o + size ds) post := by
  obtain ⟨ds, hds, ho⟩ := h
  obtain ⟨post, rfl⟩ : ds <+: cs := encode_isPrefix_iff.1 ⟨next.rest, hds.symm⟩
  rw [Cursor.rest_text, encode_append] at hds
  refine ⟨ds, post, rfl, ?_⟩
  rw [Cursor.text, List.append_cancel_left hds, ← Cursor.offset_text o (ds ++ post), ← ho]

/-! ## What is handed over -/

/-- Each number that is dealt with has just handed over its parts, and what is handed over of each string is all of
it. -/
structure Orderly (text : List Char) (tr : List (Action × Match)) : Prop where
  number : ∀ before m after, tr = before ++ (.numberValue, m) :: after →
    ∃ (l : Literal) (pre post : List Char), text = pre ++ (l.text ++ post) ∧ l.trace (size pre) <:+ before
  string : ∀ a m, (a, m) ∈ tr → a = .stringValue ∨ a = .beginMember →
    ∃ (s : Quoted) (pre post : List Char), text = pre ++ (s.text ++ post) ∧ m = ⟨size pre, encode s.text⟩

namespace Orderly

variable {text : List Char} {tr tr' : List (Action × Match)}

theorem nil (text : List Char) : Orderly text [] := ⟨by simp, by simp⟩

theorem append (h : Orderly text tr) (h' : Orderly text tr') : Orderly text (tr ++ tr') where
  number before m after heq := by
    rcases List.append_eq_append_iff.1 heq with ⟨front, rfl, htr'⟩ | ⟨back, htr, hback⟩
    · obtain ⟨l, pre, post, htext, htrace⟩ := h'.number front m after htr'
      exact ⟨l, pre, post, htext, htrace.trans (List.suffix_append _ _)⟩
    · cases back with
      | nil =>
        obtain ⟨l, pre, post, htext, htrace⟩ := h'.number [] m after (by simpa using hback.symm)
        exact ⟨l, pre, post, htext, htrace.trans List.nil_suffix⟩
      | cons p back =>
        obtain ⟨rfl, -⟩ := List.cons.inj hback
        exact h.number before m back htr
  string a m hmem := (List.mem_append.1 hmem).elim (h.string a m) (h'.string a m)

theorem snoc (h : Orderly text tr) {a : Action} {m : Match}
    (hnumber : a = .numberValue →
      ∃ (l : Literal) (pre post : List Char), text = pre ++ (l.text ++ post) ∧ l.trace (size pre) <:+ tr)
    (hstring : a = .stringValue ∨ a = .beginMember →
      ∃ (s : Quoted) (pre post : List Char), text = pre ++ (s.text ++ post) ∧ m = ⟨size pre, encode s.text⟩) :
    Orderly text (tr ++ [(a, m)]) where
  number before m' after heq := by
    rcases List.append_eq_append_iff.1 heq with ⟨front, rfl, hlast⟩ | ⟨back, rfl, hback⟩
    · cases front with
      | nil =>
        obtain ⟨heq, -⟩ := List.cons.inj hlast
        rw [List.append_nil]
        exact hnumber (congrArg Prod.fst heq)
      | cons p front => simp at hlast
    · cases back with
      | nil =>
        obtain ⟨heq, -⟩ := List.cons.inj hback
        rw [List.append_nil] at hnumber
        exact hnumber (congrArg Prod.fst heq).symm
      | cons p back =>
        obtain ⟨rfl, -⟩ := List.cons.inj hback
        exact h.number before m' back rfl
  string a' m' hmem := by
    rcases List.mem_append.1 hmem with hmem | hmem
    · exact h.string a' m' hmem
    · obtain ⟨rfl, rfl⟩ := Prod.mk.inj (List.mem_singleton.1 hmem)
      exact hstring

end Orderly

/-- Numbers and strings are dealt with where their tables have matched. -/
theorem table_of_action {t : Rule} {row : Row Rule Action} (hrow : row ∈ rows t) :
    (row.action = some .numberValue → row.matcher = .table .number) ∧
      (row.action = some .stringValue ∨ row.action = some .beginMember → row.matcher = .table .string) := by
  revert row
  cases t <;> decide

/-- Each way of putting a scan together hands over what is orderly. -/
theorem kept_orderly (text : List Char) : Kept rows rowsPerTable (fun _ => True) fun here x =>
    x.Sound here ∧ ((Cursor.text 0 text).Reads here → Orderly text (actions x.2)) where
  opens _ _ _ := trivial
  done here o ho hhere := ⟨(kept_sound rows rowsPerTable).done here o ho hhere, fun _ => .nil text⟩
  char p here := ⟨(kept_sound rows rowsPerTable).char p here, fun _ => .nil text⟩
  word call word here := ⟨(kept_sound rows rowsPerTable).word call word here, fun _ => .nil text⟩
  fork {here x f g} hx hf hg := by
    refine ⟨hx.1.fork (fun next ms h => (hf next ms h).1) hg.1, fun hhere => ?_⟩
    rcases x with ⟨next | _ | _ | _, ms⟩
    · have hnext := (hf next ms rfl).2 (hhere.trans (hx.1.reads next rfl))
      rw [Scan.fork_matched, Scan.after, actions_append]
      exact (hx.2 hhere).append hnext
    · rw [Scan.fork_mismatch, Scan.after, actions_append]
      exact (hx.2 hhere).append (hg.2 hhere)
    · exact hx.2 hhere
    · exact hx.2 hhere
  row {nest t row here next ms o} _ hrow hx h hends := by
    refine ⟨(kept_sound rows rowsPerTable).row trivial hrow hx h.1 hends, fun hhere => ?_⟩
    obtain ⟨pre, cs, rfl, rfl⟩ := text_of_reads hhere
    obtain ⟨hnumber, hstring⟩ := table_of_action hrow
    rw [Nat.zero_add] at hx hhere h ⊢
    rw [actions_append, Row.moves]
    cases ha : row.action with
    | none => simpa using h.2 hhere
    | some a =>
      refine (h.2 hhere).snoc ?_ ?_
      · rintro rfl
        rw [hnumber ha] at hx
        have hreads : reads nest .number (.text (size pre) cs) = (.matched next, actions ms) := congrArg Scan.plain hx
        obtain ⟨l, post, rfl, -, htrace⟩ := number_of_reads _ hreads
        exact ⟨l, pre, post, rfl, htrace ▸ List.suffix_refl _⟩
      · intro hquoted
        rw [hstring (hquoted.imp (ha ▸ congrArg some) (ha ▸ congrArg some))] at hx
        have hreads : reads nest .string (.text (size pre) cs) = (.matched next, actions ms) := congrArg Scan.plain hx
        obtain ⟨_, post, rfl, ⟨s, rfl⟩, rfl, -⟩ := (lexes_string _).word hreads
        exact ⟨s, pre, post, rfl, Match.between_text ..⟩

/-- What a reading hands over is orderly. -/
theorem orderly_reading (options : Options) (text : String) : Orderly text.toList (reading options text).2 :=
  ((kept_orderly text.toList).scan (nesting options) trivial (.text 0 text.toList)).2 (.refl _)

/-- What a reading hands over are matches of the text. -/
theorem match_of_reading {options : Options} {text : String} {p : Action × Match} (hp : p ∈ (reading options text).2) :
    ∃ pre inside post, text.toList = pre ++ (inside ++ post) ∧ p.2 = ⟨size pre, encode inside⟩ := by
  obtain ⟨stop, hhand⟩ := mem_actions.1 hp
  have hsound := (scan_sound rows rowsPerTable (nesting options) .jsonText (.text 0 text.toList)).moves _ hhand
  generalize p.2 = m at hsound ⊢
  cases hsound with
  | hand hfirst hlast =>
    obtain ⟨pre, cs, htext, rfl⟩ := text_of_reads hfirst
    obtain ⟨inside, post, rfl, rfl⟩ := text_of_reads hlast
    exact ⟨pre, inside, post, htext, by rw [Match.between_text, Nat.zero_add]⟩

/-! ## Sessions -/

section Sessions

variable {σ : Type} {consume : Consumer σ} {options : Options} {text : List Char} {total : Nat} {s t : Session σ}

/-- A session knows boundaries only, as the place of a failure and as the start of a number. -/
structure Placed (text : List Char) (s : Session σ) : Prop where
  sign : Boundary text s.number.sign.start
  failure : ∀ f o, s.failure = some f → f.offset = some o → Boundary text o

theorem Placed.update (h : Placed text s) (hsign : t.number.sign = s.number.sign) (hfailure : t.failure = s.failure) :
    Placed text t := ⟨hsign ▸ h.sign, hfailure ▸ h.failure⟩

theorem fail_placed (h : Placed text s) (code : ErrorCode) {offset : Option Nat}
    (hoffset : ∀ o, offset = some o → Boundary text o) : Placed text (s.fail code offset).1 := by
  rw [Session.fail]
  cases hs : s.failure with
  | some f => exact h
  | none =>
    refine ⟨h.sign, fun f o hf ho => hoffset o ?_⟩
    obtain rfl := Option.some.inj hf
    exact ho

theorem act_placed (h : Placed text s) (a : Action) {m : Match} (hstart : Boundary text m.start)
    (hstop : Boundary text m.stop) : Placed text (Session.act consume options total a m s).1 := by
  have hat (code : ErrorCode) {o : Nat} (ho : Boundary text o) {s : Session σ} (h : Placed text s) :
      Placed text (s.fail code (some o)).1 :=
    fail_placed h code fun o' ho' => Option.some.inj ho' ▸ ho
  have hend (code : ErrorCode) {offset : Option Nat} (hoffset : ∀ o, offset = some o → Boundary text o) :
      Placed text (s.endInFailure consume code offset).1 :=
    (fail_placed (s := { s with ended := true }) (h.update rfl rfl) code hoffset).update rfl rfl
  have henter (kind : ContainerKind) : Placed text (s.enter consume options kind m.start).1 := by
    unfold Session.enter
    split
    · exact hat _ hstart h
    · cases kind <;> exact h.update rfl rfl
  cases a with
  | successEndJson =>
    simp only [Session.act]
    split
    · exact hend _ fun o ho => Option.some.inj ho ▸ hstop
    · exact h.update rfl rfl
  | failedEndJson => exact hend _ (by simp)
  | numberSign => exact ⟨hstart, h.failure⟩
  | numberValue =>
    simp only [Session.act, Session.deliverNumber]
    cases s.number.scalar? with
    | none => exact hat _ h.sign (h.update rfl rfl)
    | some v => exact h.update rfl rfl
  | malformedNumber => exact hat _ hstart h
  | stringValue =>
    simp only [Session.act]
    cases decode? options m with
    | none => exact hat _ hstart h
    | some v => exact h.update rfl rfl
  | beginMember =>
    simp only [Session.act]
    cases decode? options m with
    | none => exact hat _ hstart h
    | some name => exact h.update rfl rfl
  | beginObject => exact henter .object
  | beginArray => exact henter .array
  | _ => exact h.update rfl rfl

theorem feed_placed {tr : List (Action × Match)}
    (htr : ∀ p ∈ tr, Boundary text p.2.start ∧ Boundary text p.2.stop) (h : Placed text s) :
    Placed text (feed (Session.act consume options total) tr s).1 := by
  induction tr generalizing s with
  | nil => exact h
  | cons p tr ih =>
    obtain ⟨⟨hstart, hstop⟩, hothers⟩ := List.forall_mem_cons.1 htr
    have hfirst : Placed text (Session.act consume options total p.1 p.2 s).1 := act_placed h p.1 hstart hstop
    rw [feed]
    revert hfirst
    rcases Session.act consume options total p.1 p.2 s with ⟨t, _ | _⟩
    · exact fun hfirst => hfirst
    · exact ih hothers

end Sessions

/-! ## Lines and columns -/

theorem charsBefore_append (pre post : List Char) : ParseError.charsBefore (size pre) (pre ++ post) = pre := by
  induction pre with
  | nil =>
    cases post with
    | nil => rfl
    | cons c post =>
      have hpos := c.utf8Size_pos
      rw [List.nil_append, ParseError.charsBefore, size_nil, if_neg (by omega)]
  | cons c pre ih =>
    rw [List.cons_append, ParseError.charsBefore, size_cons, if_pos (Nat.le_add_right ..), Nat.add_sub_cancel_left, ih]

theorem position_append (line column : Nat) (cs ds : List Char) :
    ParseError.position line column (cs ++ ds) =
      ParseError.position (ParseError.position line column cs).1 (ParseError.position line column cs).2 ds := by
  induction cs generalizing line column with
  | nil => rfl
  | cons c cs ih =>
    rw [List.cons_append, ParseError.position, ParseError.position]
    split
    · exact ih _ _
    · exact ih _ _

/-- The line counts the newlines, and the column the characters after the last of them. -/
theorem position_eq (cs : List Char) :
    ParseError.position 1 1 cs = (1 + cs.count '\n', 1 + (cs.reverse.takeWhile (· ≠ '\n')).length) := by
  induction cs using List.reverseRecOn with
  | nil => rfl
  | append_singleton cs c ih =>
    rw [position_append, ih, List.count_append, List.reverse_concat]
    by_cases hc : c = '\n'
    · subst hc
      simp [ParseError.position, Nat.add_assoc]
    · simp [ParseError.position, hc, Nat.add_assoc]

/-- The error lies between two characters of the text, on the line and in the column there. -/
structure Located (text : String) (e : ParseError) : Prop where
  offset_le : e.offset ≤ text.utf8ByteSize
  place : ∃ pre post, text.toList = pre ++ post ∧ size pre = e.offset ∧ e.line = 1 + pre.count '\n' ∧
    e.column = 1 + (pre.reverse.takeWhile (· ≠ '\n')).length

theorem located_locate (code : ErrorCode) {text : String} {offset : Nat} (h : Boundary text.toList offset) :
    Located text (.locate code text offset) := by
  obtain ⟨pre, post, htext, rfl⟩ := h
  have hle : size pre ≤ text.utf8ByteSize := by
    rw [← size_toList, htext, size_append]
    exact Nat.le_add_right ..
  have hlocate : ParseError.locate code text (size pre) =
      { code, offset := size pre, line := 1 + pre.count '\n'
        column := 1 + (pre.reverse.takeWhile (· ≠ '\n')).length } := by
    rw [ParseError.locate, Nat.min_eq_left hle, htext, charsBefore_append, position_eq]
  rw [hlocate]
  exact ⟨hle, pre, post, htext, rfl, rfl, rfl⟩

/-! ## Readings -/

section Read

variable {σ : Type} {consume : Consumer σ} {options : Options} {text : String} {c : σ}

/-- What a reading hands to its session. -/
def readHandings (consume : Consumer σ) (options : Options) (text : String) (c : σ) :
    List (Handing Action (Session σ)) :=
  handings rows (Session.act consume options text.utf8ByteSize) rowsPerTable (nesting options) .jsonText
    (.start (encode text.toList)) { context := { consumer := c } }

/-- What a session cuts out of the text for an action: of a string what is between the quotes, and of a number the
integer and the whole literal. -/
structure Cuts (text : List Char) (h : Handing Action (Session σ)) : Prop where
  string : h.action = .stringValue ∨ h.action = .beginMember → Sliceable text (h.found.start + 1) (h.found.stop - 1)
  number : h.action = .numberValue →
    Sliceable text h.state.number.sign.start h.state.number.integral.stop ∧
      Sliceable text h.state.number.sign.start h.state.number.exp.stop

theorem sliceable_quoted {text pre post : List Char} {s : Quoted} (h : text = pre ++ (s.text ++ post)) :
    Sliceable text (size pre + 1) (Match.stop ⟨size pre, encode s.text⟩ - 1) := by
  have hsize : size s.text = 1 + (size s.body + 1) := by
    rw [Quoted.text, size_cons, size_append]
    rfl
  refine ⟨pre ++ ['"'], s.body, '"' :: post, ?_, ?_, ?_⟩
  · simp [h, Quoted.text]
  · rw [size_append]
    rfl
  · rw [Match.stop, length_encode, hsize]
    dsimp only
    omega

theorem sliceable_parts {text pre post : List Char} {l : Literal} (h : text = pre ++ (l.text ++ post)) :
    Sliceable text (l.parts (size pre)).sign.start (l.parts (size pre)).integral.stop ∧
      Sliceable text (l.parts (size pre)).sign.start (l.parts (size pre)).exp.stop := by
  constructor
  · refine ⟨pre, l.sign ++ l.integral, l.frac ++ (l.exp ++ post), ?_, rfl, ?_⟩
    · simp only [h, Literal.text, List.append_assoc]
    · simp only [Literal.parts, Match.stop, length_encode, size_append, Nat.add_assoc]
  · refine ⟨pre, l.text, post, h, rfl, ?_⟩
    simp only [Literal.parts, Literal.text, Match.stop, length_encode, size_append, Nat.add_assoc]

/-- A number whose parts have just been handed over is the one that the session keeps. -/
theorem number_of_feed {total o : Nat} {front : List (Action × Match)} {l : Literal} {s t : Session σ}
    (h : feed (Session.act consume options total) (front ++ l.trace o) s = (t, true)) : t.number = l.parts o := by
  rw [feed_append] at h
  rcases hfront : feed (Session.act consume options total) front s with ⟨s', _ | _⟩
  · simp [hfront] at h
  · rw [hfront] at h
    obtain rfl : { s' with number := l.parts o } = t := congrArg Prod.fst h
    rfl

/-- Whatever is handed over, what a session cuts out for it can be cut out. -/
theorem cuts_of_handing {h : Handing Action (Session σ)} (hmem : h ∈ readHandings consume options text c) :
    Cuts text.toList h := by
  rw [readHandings, handings_eq] at hmem
  obtain ⟨before, after, htrace, hbefore⟩ := mem_handed hmem
  have hreading : (reading options text).2 = before ++ h.event :: after := htrace
  have horderly := orderly_reading options text
  constructor
  · intro ha
    obtain ⟨s, pre, post, htext, hfound⟩ :=
      horderly.string h.action h.found (hreading ▸ List.mem_append_right before (List.mem_cons_self ..)) ha
    rw [hfound]
    exact sliceable_quoted htext
  · intro ha
    have hcut : (reading options text).2 = before ++ (.numberValue, h.found) :: after := by
      rw [hreading, Handing.event, ha]
    obtain ⟨l, pre, post, htext, front, rfl⟩ := horderly.number before h.found after hcut
    rw [number_of_feed hbefore]
    exact sliceable_parts htext

/-- The furthest byte that a reading has looked at is the first of a character, or the end. -/
theorem boundary_furthest : Boundary text.toList (walkText consume options text c).2.furthest := by
  rw [walkText, run_furthest]
  refine replay_furthest_of _ (boundary_zero _) fun k hk => ?_
  obtain ⟨pre, ⟨post, hpost⟩, hk, -⟩ := viable_of_look hk
  exact ⟨pre, post, hpost.symm, hk⟩

/-- A document ends at a character. -/
theorem boundary_matched {next : Cursor} (h : (walkText consume options text c).1 = .matched next) :
    Boundary text.toList next.offset := by
  have hscan : (scan rows rowsPerTable (nesting options) .jsonText (.text 0 text.toList)).1 = .matched next :=
    scan_of_matched (Session.act consume options text.utf8ByteSize) (Prod.ext h rfl)
  obtain ⟨pre, post, htext, rfl⟩ := text_of_reads ((scan_sound rows rowsPerTable _ _ _).reads next hscan)
  exact ⟨pre, post, htext, (Nat.zero_add _).symm⟩

/-- The session of a reading knows boundaries only. -/
theorem placed_walkText : Placed text.toList (walkText consume options text c).2.context := by
  rw [walkText, run_context]
  refine feed_placed (fun p hp => ?_) ⟨boundary_zero _, by simp⟩
  obtain ⟨pre, inside, post, htext, hmatch⟩ := match_of_reading (show p ∈ (reading options text).2 from hp)
  rw [hmatch]
  exact boundary_of_match htext

/-- The place of a failure is where a document ended, or one that the session knows. -/
theorem place_of_ofOutcome {size o : Nat} {recorded : Option Failure} {outcome : Outcome} {failure : Failure}
    (h : Failure.ofOutcome size recorded outcome = some failure) (ho : failure.offset = some o) :
    (∃ next, outcome = .matched next ∧ o = next.offset) ∨ recorded = some failure := by
  have hrecorded {code : ErrorCode} (h : some (recorded.getD ⟨code, none⟩) = some failure) :
      recorded = some failure := by
    cases recorded with
    | none =>
      obtain rfl := Option.some.inj h
      simp at ho
    | some f => exact h
  rcases outcome with next | _ | ⟨_ | _⟩ | _
  · rw [Failure.ofOutcome] at h
    split at h
    · simp at h
    · obtain rfl := Option.some.inj h
      exact Or.inl ⟨next, rfl, (Option.some.inj ho).symm⟩
  · obtain rfl := Option.some.inj h
    simp at ho
  · exact Or.inr (hrecorded h)
  · exact Or.inr (hrecorded h)
  · obtain rfl := Option.some.inj h
    simp at ho

theorem located_of_error {e : ParseError} (h : (read consume options text c).result = .error e) : Located text e := by
  cases hfailure : Failure.ofOutcome text.utf8ByteSize (walkText consume options text c).2.context.failure
    (walkText consume options text c).1 with
  | none =>
    have hok := ((result_eq_ok_iff text c _).2 ⟨ofOutcome_eq_none.1 hfailure, rfl⟩).1
    rw [h] at hok
    simp at hok
  | some failure =>
    rw [result_of_failure consume options text c hfailure] at h
    obtain rfl := Except.error.inj h
    refine located_locate _ ?_
    cases ho : failure.offset with
    | none => exact boundary_furthest
    | some o =>
      rcases place_of_ofOutcome hfailure ho with ⟨next, hend, rfl⟩ | hrecorded
      · exact boundary_matched hend
      · exact placed_walkText.failure failure o hrecorded ho

end Read

/-- Whatever the text, the options and the consumer: every error lies between two characters of the text, on the line
and in the column there; and whatever the session cuts out of the text on the way lies between two characters too. -/
theorem read_located {σ : Type} (consume : Consumer σ) (options : Options) (text : String) (c : σ) :
    (∀ e, (read consume options text c).result = .error e → Located text e) ∧
      ∀ h ∈ readHandings consume options text c, Cuts text.toList h :=
  ⟨fun _ => located_of_error, fun _ => cuts_of_handing⟩

/-- A character of three bytes on the second line, after a string whose only character has two. -/
theorem read_located_lines : validate {} "[-7,\n\"λ\" ∀" = .error ⟨.badJson, 10, 2, 5⟩ ∧
    Located "[-7,\n\"λ\" ∀" ⟨.badJson, 10, 2, 5⟩ ∧ Sliceable (String.toList "[-7,\n\"λ\" ∀") 6 8 := by
  have herror : validate {} "[-7,\n\"λ\" ∀" = .error ⟨.badJson, 10, 2, 5⟩ := by decide +kernel
  have hstring : ∃ h ∈ readHandings Consumer.indifferent {} "[-7,\n\"λ\" ∀" (),
      h.action = .stringValue ∧ h.found = ⟨5, [34, 206, 187, 34]⟩ := by decide +kernel
  obtain ⟨herrors, hcuts⟩ := read_located Consumer.indifferent {} "[-7,\n\"λ\" ∀" ()
  obtain ⟨h, hmem, haction, hfound⟩ := hstring
  have hcut := (hcuts h hmem).string (Or.inl haction)
  rw [hfound] at hcut
  exact ⟨herror, herrors _ herror, hcut⟩

end TableJson.Grammar
