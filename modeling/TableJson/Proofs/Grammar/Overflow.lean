import TableJson.Proofs.Grammar.Brackets
import TableJson.Proofs.Grammar.Faithful
import TableJson.Proofs.Grammar.Relaxing

/-!
# Overflow — where a text nests too deep

The text of a document that is deeper than the options allow is read up to the first bracket or brace that opens one
container too many, and there the reading fails (`read_overflows`).  All that stands before it has been taken, and no
other container has been opened that was not closed again.

* `Overflows`: some actions of a text stop at the first container that nests too deep.
* `Session.Overfull`: a session has room for the containers that are open, but not for all that a tree opens in them.
-/

namespace TableJson.Grammar

open Machine Utf8 Brackets

section Overflow

variable {σ : Type} (consume : Consumer σ) (options : Options) (total : Nat)

/-- The actions `tr` of the text `cs`, which starts at the offset `o`, are taken up to the first container that nests
too deep; that one is refused where it starts. -/
def Overflows (tr : List (Action × Match)) (o : Nat) (cs : List Char) (s : Session σ) : Prop :=
  ∃ pre a post, cs = pre ++ a :: post ∧ (inside s.depth).OpensBeyond options.maxDepth pre a ∧
    (feed (Session.act consume options total) tr s).2 = false ∧
    (feed (Session.act consume options total) tr s).1.failure = some ⟨.tooDeep, some (o + size pre)⟩

/-- The containers that are open are not too many, but with `depth` more of them they would be. -/
structure Session.Overfull (s : Session σ) (depth : Nat) : Prop where
  failure : s.failure = none
  depth_le : s.depth ≤ options.maxDepth
  lt_depth : options.maxDepth < s.depth + depth

variable {consume options total} {tr tr' : List (Action × Match)} {o : Nat} {cs ds : List Char} {s s' : Session σ}

/-! ## Parts of a text -/

theorem Overflows.left (h : Overflows consume options total tr o cs s) (tr' : List (Action × Match))
    (ds : List Char) : Overflows consume options total (tr ++ tr') o (cs ++ ds) s := by
  obtain ⟨pre, a, post, rfl, hopens, hrefused, hfailure⟩ := h
  have hfeed : feed (Session.act consume options total) (tr ++ tr') s =
      feed (Session.act consume options total) tr s := by
    rw [feed_append]
    rcases hend : feed (Session.act consume options total) tr s with ⟨s', _ | _⟩
    · rfl
    · rw [hend] at hrefused
      simp at hrefused
  rw [← hfeed] at hrefused hfailure
  exact ⟨pre, a, post ++ ds, by simp, hopens, hrefused, hfailure⟩

theorem Overflows.right (htr : feed (Session.act consume options total) tr s = (s', true))
    (hdepth : s'.depth = s.depth) (hcs : Balanced (inside s.depth) options.maxDepth cs)
    (h : Overflows consume options total tr' (o + size cs) ds s') :
    Overflows consume options total (tr ++ tr') o (cs ++ ds) s := by
  obtain ⟨pre, a, post, rfl, hopens, hrefused, hfailure⟩ := h
  have hfeed : feed (Session.act consume options total) (tr ++ tr') s =
      feed (Session.act consume options total) tr' s' := by
    rw [feed_append, htr]
  rw [← hfeed] at hrefused hfailure
  rw [hdepth] at hopens
  refine ⟨cs ++ pre, a, post, by simp, hopens.append hcs, hrefused, ?_⟩
  rw [hfailure, size_append, Nat.add_assoc]

/-- A consumer that never stops hears all of what fits. -/
theorem Reports.taken {es : List Event} {fits : Prop} {final : σ → NumberParts → Session σ}
    (hconsume : ∀ e c, (consume e c).2 = true) (h : Reports consume options total tr es fits s final) (hfits : fits) :
    ∃ c number, feed (Session.act consume options total) tr s = (final c number, true) := by
  rcases h with ⟨c, number, -, -, htr⟩ | ⟨-, hes⟩
  · exact ⟨c, number, htr⟩
  · have := hes hfits
    rw [feed_of_true hconsume] at this
    simp at this

theorem Admits.deepen {ls : List Literal} {ss : List Quoted} {d e : Nat} (h : Admits options d ls ss)
    (he : e ≤ options.maxDepth) : Admits options e ls ss := ⟨he, h.representable, h.paired⟩

/-! ## Containers -/

section Container

variable {kind : ContainerKind} {body : Body kind}

theorem overflows_container (hconsume : ∀ e c, (consume e c).2 = true)
    (h : ∀ (s : Session σ) (o : Nat), s.Overfull options body.depth → s.memberName = "" →
      Overflows consume options total (body.trace o) o body.text s)
    {opening : Around} (hflush : opening.before.chars = []) (closing : Around) (o : Nat) (s : Session σ)
    (hs : s.Overfull options (body.depth + 1)) :
    Overflows consume options total ((Tree.container kind opening body closing).trace o) o
      (Tree.container kind opening body closing).text s := by
  obtain ⟨hnone, hle, hlt⟩ := hs
  have hopening : opening.text (openChar kind) = openChar kind :: opening.after.chars := by
    rw [Around.text, hflush, List.nil_append]
  -- the search for a sign leaves its place behind
  have hsigned : ∃ t : Session σ, t.failure = none ∧ t.depth = s.depth ∧ ∀ tr,
      feed (Session.act consume options total) ((.numberSign, ⟨o, []⟩) :: tr) s =
        feed (Session.act consume options total) tr t :=
    ⟨{ s with number := { s.number with sign := ⟨o, []⟩ } }, hnone, rfl, fun tr => rfl⟩
  obtain ⟨t, htnone, htdepth, hsign⟩ := hsigned
  rw [Tree.trace, Tree.text, hopening]
  unfold Overflows
  rw [hsign]
  by_cases hd : s.depth < options.maxDepth
  · -- the container fits, and what nests too deep is in its body
    obtain ⟨c, number, hopen⟩ := (reports_open (htdepth ▸ hd) _).taken hconsume trivial
    have hinside : (t.inside kind c number).Overfull options body.depth :=
      ⟨by rw [failure_inside, htnone], by rw [depth_inside]; omega, by rw [depth_inside]; omega⟩
    obtain ⟨pre, a, post, htext, hopens, hrefused, hfailure⟩ :=
      (h _ (o + size (openChar kind :: opening.after.chars)) hinside (memberName_inside ..)).left
        [(Action.closes kind, ⟨o + size (openChar kind :: opening.after.chars ++ body.text),
          encode (closing.text (closeChar kind))⟩)] (closing.text (closeChar kind))
    rw [depth_inside, htdepth] at hopens
    have hblanks : Balanced (inside (s.depth + 1)) options.maxDepth opening.after.chars :=
      (balanced_blanks _).mono hd
    refine ⟨openChar kind :: (opening.after.chars ++ pre), a, post, by simp [htext],
      (hopens.append hblanks).cons hle (step_open kind s.depth), ?_, ?_⟩
    · rw [← List.singleton_append, feed_append, hopen]
      exact hrefused
    · rw [← List.singleton_append, feed_append, hopen, hfailure]
      simp [Nat.add_assoc]
  · -- the container itself is one too many
    have hrefuse (m : Match) : Session.act consume options total (Action.opens kind) m t =
        ({ t with failure := some ⟨.tooDeep, some m.start⟩ }, false) := by
      have : Session.act consume options total (Action.opens kind) m t = t.fail .tooDeep (some m.start) := by
        cases kind <;> exact if_pos (by omega)
      rw [this, Session.fail, htnone]
    refine ⟨[], openChar kind, _, rfl, ⟨shallow_nil.2 hle, ?_⟩, ?_, ?_⟩
    · rw [List.nil_append, Brackets.after, List.foldl_cons, step_open, List.foldl_nil]
      show s.depth + 1 = options.maxDepth + 1
      omega
    · rw [feed, hrefuse]
    · rw [feed, hrefuse]
      simp

/-- The entry of a container nests too deep if its value does. -/
theorem overflows_entry {t : Tree}
    (h : ∀ (s : Session σ) (o : Nat), s.Overfull options t.depth →
      Overflows consume options total (t.trace o) o t.text s)
    (label : Label kind) (o : Nat) (s : Session σ) (hs : s.Overfull options t.depth)
    (hpaired : options.replaceInvalidSurrogates = true ∨ ∀ q ∈ label.strings, q.Paired) :
    Overflows consume options total (label.trace o t.text (t.trace (o + size label.text))) o (label.text ++ t.text)
      s := by
  cases label with
  | item => exact h s o hs
  | member name colon =>
    have hname : decode? options ⟨o, encode name.text⟩ = some name.value :=
      (decode?_eq_some_iff options name o name.value).2
        ⟨hpaired.imp_right fun h => h name (List.mem_singleton_self name), rfl⟩
    have hbegin : feed (Session.act consume options total) [(.beginMember, ⟨o, encode name.text⟩)] s =
        ({ s with memberName := name.value }, true) := by
      simp only [feed, Session.act, hname]
    have hlabel : Balanced (inside s.depth) options.maxDepth (Label.member name colon).text :=
      (balanced_label _).mono hs.depth_le
    have hvalue := h { s with memberName := name.value } (o + size (Label.member name colon).text)
      ⟨hs.failure, hs.depth_le, hs.lt_depth⟩
    have hmember := hvalue.left [(.endMember, ⟨o + size (Label.member name colon).text, encode t.text⟩)] []
    rw [List.append_nil] at hmember
    exact .right hbegin rfl hlabel hmember

theorem admits_entries {ls ms : List Literal} {ns ss ts : List Quoted} :
    Admits options 0 (ls ++ ms) (ns ++ (ss ++ ts)) ↔ Admits options 0 ls (ns ++ ss) ∧ Admits options 0 ms ts := by
  rw [← List.append_assoc]
  exact admits_append (d := 0) (e := 0)

/-- Of the entries of a container the first that is too deep nests too deep. -/
theorem overflows_entries (hconsume : ∀ e c, (consume e c).2 = true) {t : Tree} {rest : Rest kind} (label : Label kind)
    (ht : Admits options 0 t.literals t.strings → ∀ (s : Session σ) (o : Nat), s.Overfull options t.depth →
      Overflows consume options total (t.trace o) o t.text s)
    (hrest : Admits options 0 rest.literals rest.strings → ∀ (s : Session σ) (o : Nat),
      s.Overfull options rest.depth → s.memberName = "" → Overflows consume options total (rest.trace o) o rest.text s)
    (hadmits : Admits options 0 (t.literals ++ rest.literals) (label.strings ++ (t.strings ++ rest.strings)))
    (o : Nat) (s : Session σ) (hs : s.Overfull options (max t.depth rest.depth)) (hname : s.memberName = "") :
    Overflows consume options total
      (label.trace o t.text (t.trace (o + size label.text)) ++ rest.trace (o + size (label.text ++ t.text))) o
      (label.text ++ (t.text ++ rest.text)) s := by
  obtain ⟨hentry, hothers⟩ := admits_entries.1 hadmits
  obtain ⟨hnone, hle, hlt⟩ := hs
  rw [← List.append_assoc]
  by_cases hd : options.maxDepth < s.depth + t.depth
  · have hvalue : Admits options 0 t.literals t.strings :=
      (admits_append.1 (show Admits options (max 0 0) ([] ++ t.literals) (label.strings ++ t.strings) from hentry)).2
    have hpaired := hentry.paired.imp_right fun h q hq => h q (List.mem_append_left _ hq)
    exact (overflows_entry (ht hvalue) label o s ⟨hnone, hle, hd⟩ hpaired).left _ _
  · have hreports : Reports consume options total _ _ _ s _ :=
      reports_entry (fun s o => t.reports s o) label o (o + size label.text) s hle hname
    obtain ⟨c, number, htaken⟩ := hreports.taken hconsume (hentry.deepen (Nat.not_lt.1 hd))
    have hbalanced : Balanced (inside s.depth) options.maxDepth (label.text ++ t.text) :=
      ((balanced_label label).mono hle).append ((balanced_tree t).mono (Nat.not_lt.1 hd))
    have hlt' : options.maxDepth < s.depth + rest.depth := by omega
    exact .right htaken rfl hbalanced (hrest hothers (s.settled c number) _ ⟨hnone, hle, hlt'⟩ rfl)

end Container

/-! ## Trees -/

mutual

/-- The text of a tree that is too deep nests too deep somewhere, and there a session refuses it. -/
theorem Tree.overflows (hconsume : ∀ e c, (consume e c).2 = true) : ∀ (t : Tree), t.Flush →
    Admits options 0 t.literals t.strings → ∀ (s : Session σ) (o : Nat), s.Overfull options t.depth →
    Overflows consume options total (t.trace o) o t.text s
  | .null, _, _, _, _, hs => absurd hs.lt_depth (Nat.not_lt.2 hs.depth_le)
  | .boolean _, _, _, _, _, hs => absurd hs.lt_depth (Nat.not_lt.2 hs.depth_le)
  | .number _, _, _, _, _, hs => absurd hs.lt_depth (Nat.not_lt.2 hs.depth_le)
  | .string _, _, _, _, _, hs => absurd hs.lt_depth (Nat.not_lt.2 hs.depth_le)
  | .container _ _ body closing, hflush, hadmits, s, o, hs =>
    overflows_container hconsume (Body.overflows hconsume body hflush.2 hadmits) hflush.1 closing o s hs

@[inherit_doc Tree.overflows]
theorem Body.overflows (hconsume : ∀ e c, (consume e c).2 = true) : ∀ {kind : ContainerKind} (body : Body kind),
    body.Flush → Admits options 0 body.literals body.strings → ∀ (s : Session σ) (o : Nat),
    s.Overfull options body.depth → s.memberName = "" → Overflows consume options total (body.trace o) o body.text s
  | _, .empty _, _, _, _, _, hs, _ => absurd hs.lt_depth (Nat.not_lt.2 hs.depth_le)
  | _, .entries label first rest, hflush, hadmits, s, o, hs, hname =>
    overflows_entries hconsume label (Tree.overflows hconsume first hflush.1) (Rest.overflows hconsume rest hflush.2)
      hadmits o s hs hname

@[inherit_doc Tree.overflows]
theorem Rest.overflows (hconsume : ∀ e c, (consume e c).2 = true) : ∀ {kind : ContainerKind} (rest : Rest kind),
    rest.Flush → Admits options 0 rest.literals rest.strings → ∀ (s : Session σ) (o : Nat),
    s.Overfull options rest.depth → s.memberName = "" → Overflows consume options total (rest.trace o) o rest.text s
  | _, .nil _, _, _, _, _, hs, _ => absurd hs.lt_depth (Nat.not_lt.2 hs.depth_le)
  | _, .cons comma label entry rest, hflush, hadmits, s, o, hs, hname => by
    have hentries := overflows_entries hconsume label (Tree.overflows hconsume entry hflush.1)
      (Rest.overflows hconsume rest hflush.2) hadmits (o + size (comma.text ',')) s hs hname
    have hcomma : Balanced (inside s.depth) options.maxDepth (comma.text ',') :=
      (balanced_around comma rfl).mono hs.depth_le
    have hcons : Overflows consume options total ([] ++ _) o (comma.text ',' ++ _) s := .right rfl rfl hcomma hentries
    simpa only [Rest.trace, Rest.text, size_append, Nat.add_assoc, List.append_assoc, List.nil_append] using hcons

end

/-! ## Documents -/

/-- The text of a document that is too deep fails where the first container nests too deep. -/
theorem read_overflows (hconsume : ∀ e c, (consume e c).2 = true) {d : Document} {text : String}
    (htext : d.text = text.toList) (hadmits : Admits options 0 d.tree.literals d.tree.strings)
    (hdeep : options.maxDepth < d.tree.depth) (c : σ) :
    ∃ pre a post, text.toList = pre ++ a :: post ∧ (inside 0).OpensBeyond options.maxDepth pre a ∧
      (read consume options text c).result = .error (.locate .tooDeep text (size pre)) := by
  -- the walk is that of a reading with room for the whole document
  have hnesting : nesting options ≤ 5 * d.tree.depth + 7 := by
    unfold nesting tablesPerLevel tablesPerDocument
    omega
  have hwalk := walkText_eq_run consume options text c hnesting
  obtain ⟨e, he, halike, hflush, hreads⟩ := reads_document d (Nat.le_refl (5 * d.tree.depth + 7))
  rw [← halike.depth] at hdeep
  rw [← halike.literals, ← halike.strings] at hadmits
  rw [htext] at he hreads
  have hbegin : feed (Session.act consume options text.utf8ByteSize) [(.beginJson, ⟨0, []⟩)] { consumer := c } =
      ({ consumer := (consume .beginJson c).1 }, true) := feed_begin hconsume _ [] c
  have hblanks : Balanced (inside 0) options.maxDepth e.before.chars := (balanced_blanks _).mono (Nat.zero_le _)
  have htree : Overflows consume options text.utf8ByteSize (e.tree.trace (0 + size e.before.chars))
      (0 + size e.before.chars) e.tree.text { consumer := (consume .beginJson c).1 } :=
    e.tree.overflows hconsume hflush hadmits _ _ ⟨rfl, Nat.zero_le _, by rw [Nat.zero_add]; exact hdeep⟩
  obtain ⟨pre, a, post, hpre, hopens, hrefused, hfailure⟩ :
      Overflows consume options text.utf8ByteSize e.trace 0 e.text { consumer := c } := by
    have htrace := Overflows.right hbegin rfl hblanks
      (htree.left [(.successEndJson, ⟨size e.text, []⟩)] e.after.chars)
    rwa [Nat.zero_add] at htrace
  refine ⟨pre, a, post, by rw [← he, hpre], hopens, ?_⟩
  have htrace : actions (scan rows rowsPerTable (5 * d.tree.depth + 7) .jsonText (.text 0 text.toList)).2 = e.trace :=
    congrArg Prod.snd hreads
  obtain ⟨s, hs⟩ : ∃ s, feed (Session.act consume options text.utf8ByteSize) e.trace { consumer := c } = (s, false) :=
    ⟨_, Prod.ext rfl hrefused⟩
  rw [← htrace] at hs
  obtain ⟨⟨stop, hstop⟩, hcontext⟩ := run_of_refusal (s := { context := { consumer := c } })
    (Session.act consume options text.utf8ByteSize) hs
  rw [← Cursor.start_eq_text, ← hwalk] at hstop hcontext
  rw [htrace] at hs
  rw [hs, Nat.zero_add] at hfailure
  exact result_of_failure consume options text c (by rw [hstop, hcontext, hfailure]; rfl)

end Overflow

end TableJson.Grammar
