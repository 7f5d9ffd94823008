import Mathlib.Control.Monad.Basic
import TableJson.Proofs.Grammar.Faithful
import TableJson.Proofs.Grammar.Faults
import TableJson.Proofs.Grammar.Languages
import TableJson.Proofs.Grammar.Lookahead
import TableJson.Proofs.Machine.Locality

/-!
# Positions — where a text stops being JSON

No error says where the text went wrong; it is the furthest byte that the walk has looked at, in whatever branch.  That
byte is the first that no document could have there (`read_position`): what the walk looks at is the start of some
document (`viable_of_look`), and a document that went on beyond would have been taken (`not_viable_of_looks`).  A
document that ends before the text does is taken as it is, and does not go on either.
-/

namespace TableJson.Grammar

open Machine Utf8

/-! ## How far a walk has looked -/

section Furthest

variable {σ : Type} {consume : Consumer σ} {options : Options} {text : String} {c : σ}

/-- What a reading does if all its actions are taken, with all that it looks at. -/
def scanning (options : Options) (text : String) : Machine.Scan (Move Action) :=
  scan rows rowsPerTable (nesting options) .jsonText (.text 0 text.toList)

/-- If all actions are taken, the furthest byte is the furthest of all. -/
theorem furthest_of_taken (htaken : (feed (Session.act consume options text.utf8ByteSize) (reading options text).2
      { consumer := c }).2 = true) :
    (∀ k, .look k ∈ (scanning options text).2 → k ≤ (walkText consume options text c).2.furthest) ∧
      ((walkText consume options text c).2.furthest = 0 ∨
        .look (walkText consume options text c).2.furthest ∈ (scanning options text).2) := by
  have hnone : (replay (Session.act consume options text.utf8ByteSize) (scanning options text).2
      { context := { consumer := c } }).2 = none :=
    (replay_context _ _ _).2.2 htaken
  obtain ⟨-, hlooks, hfurthest⟩ := replay_furthest _ hnone
  have hwalk : (walkText consume options text c).2.furthest =
      (replay (Session.act consume options text.utf8ByteSize) (scanning options text).2
        { context := { consumer := c } }).1.furthest := by
    rw [walkText, Cursor.start_eq_text, run_eq_resume, Scan.resume, ← scanning]
    rcases hreplay : replay (Session.act consume options text.utf8ByteSize) (scanning options text).2
      { context := { consumer := c } } with ⟨s, _ | stop⟩
    · rfl
    · simp [hreplay] at hnone
  rw [hwalk]
  exact ⟨hlooks, hfurthest⟩

end Furthest

/-! ## Where no document goes on -/

/-- If a walk that finds no document looks at nothing after a character, no document goes on with that character. -/
theorem not_viable_of_looks {n : Nat} {pre post : List Char} {a : Char}
    (hlooks : ∀ k, .look k ∈ (scan rows rowsPerTable n .jsonText (.text 0 (pre ++ a :: post))).2 → k ≤ size pre)
    (hlasts : (reads n .jsonText (.text 0 (pre ++ a :: post))).1 ≠ .exhausted)
    (hend : ∀ next, (reads n .jsonText (.text 0 (pre ++ a :: post))).1 ≠ .matched next) : ¬ Viable (pre ++ [a]) := by
  rintro ⟨d, more, hd⟩
  have hsame : Cursor.Same (size (pre ++ [a])) post more (.text 0 (pre ++ a :: post)) (.text 0 d.text) :=
    ⟨0, pre ++ [a], by rw [List.append_cons], by rw [hd], Nat.zero_add _⟩
  have hlimit : size pre < size (pre ++ [a]) := by
    have := a.utf8Size_pos
    simp [this]
  obtain ⟨-, hsameEnd⟩ :=
    scan_follows rows rowsPerTable n .jsonText hsame fun k hk => Nat.lt_of_le_of_lt (hlooks k hk) hlimit
  have hsecond : (reads n .jsonText (.text 0 d.text)).1 = (reads n .jsonText (.text 0 (pre ++ a :: post))).1 :=
    hsameEnd.eq hend
  -- the walk of the document ends in the same way, but takes all of it
  obtain ⟨_, -, -, -, hreads⟩ := reads_document d (Nat.le_max_right n (5 * d.tree.depth + 7))
  rw [reads_of_le (Nat.le_max_left ..) (by rw [hsecond]; exact hlasts)] at hreads
  rw [hreads] at hsecond
  exact hend _ hsecond.symm

/-- A document that ends where the text goes on with something else does not go on with that. -/
theorem not_viable_of_document {n : Nat} {pre post : List Char} {a : Char}
    (h : (reads (n + 5) .jsonText (.text 0 (pre ++ a :: post))).1 = .matched (.text (size pre) (a :: post))) :
    ¬ Viable (pre ++ [a]) := by
  rintro ⟨d, more, hd⟩
  obtain ⟨e, r, htext, hthere, -, hagain⟩ := document_stays h
  obtain ⟨rfl, rfl⟩ := append_inj_of_size htext (congrArg Cursor.offset hthere)
  let m := max (n + 5) (max (5 * e.tree.depth + 7) (5 * d.tree.depth + 7))
  have hstays := hagain (a :: more) m rfl (by omega) (by omega)
  obtain ⟨_, -, -, -, hreads⟩ := reads_document d (show 5 * d.tree.depth + 7 ≤ m by omega)
  rw [List.append_assoc, List.singleton_append] at hd
  rw [← hd] at hreads
  have hoffset : size e.text = size (e.text ++ a :: more) :=
    congrArg Cursor.offset (Outcome.matched.inj (hstays.symm.trans (congrArg Prod.fst hreads)))
  have := a.utf8Size_pos
  rw [size_append, size_cons] at hoffset
  omega

/-! ## Where readings fail -/

section Read

variable {σ : Type} {consume : Consumer σ} {options : Options}

/-- A document whose values are all taken fits the options. -/
theorem fits_of_taken (hconsume : ∀ e c, (consume e c).2 = true) {d : Document} {total : Nat} {c : σ}
    (htaken : (feed (Session.act consume options total) d.trace.dropLast { consumer := c }).2 = true) :
    d.tree.Fits options 0 := by
  rw [Document.trace, ← List.cons_append, List.dropLast_concat, feed_begin hconsume] at htaken
  have htree : Reports consume options total (d.tree.trace (size d.before.chars)) (d.tree.events "")
      (d.tree.Fits options 0) { consumer := (consume .beginJson c).1 } _ :=
    d.tree.reports { consumer := (consume .beginJson c).1 } (size d.before.chars) (Nat.zero_le _)
  rcases htree with ⟨-, -, hfits, -⟩ | ⟨hrefused, -⟩
  · exact hfits
  · rw [hrefused] at htaken
    simp at htaken

/-- Where a text is no document: what stands before the furthest byte is the start of one, and with the character there
it is not. -/
theorem position_of_noDocument {text : String} {c : σ} (hend : ∀ next, (reading options text).1 ≠ .matched next)
    (htaken : (feed (Session.act consume options text.utf8ByteSize) (reading options text).2 { consumer := c }).2 =
      true) :
    ∃ pre post, text.toList = pre ++ post ∧ size pre = (walkText consume options text c).2.furthest ∧ Viable pre ∧
      ∀ a rest, post = a :: rest → ¬ Viable (pre ++ [a]) := by
  obtain ⟨hlooks, hfurthest⟩ := furthest_of_taken htaken
  have hlasts : (reading options text).1 ≠ .exhausted := by
    rw [← (walkText_of_feed (Prod.ext rfl htaken)).1]
    exact walkText_lasts consume options text c
  obtain ⟨pre, ⟨post, htext⟩, hsize, hviable⟩ :
      ∃ pre, pre <+: text.toList ∧ size pre = (walkText consume options text c).2.furthest ∧ Viable pre := by
    rcases hfurthest with hzero | hlook
    · exact ⟨[], List.nil_prefix, hzero.symm, ⟨.none, .null, .none⟩, List.nil_prefix⟩
    · exact viable_of_look hlook
  refine ⟨pre, post, htext.symm, hsize, hviable, ?_⟩
  rintro a rest rfl
  rw [← hsize, scanning, ← htext] at hlooks
  rw [reading, ← htext] at hlasts hend
  exact not_viable_of_looks hlooks hlasts hend

/-- A document that ends before the text does is accepted by itself, and does not go on. -/
theorem position_of_excess (hconsume : ∀ e c, (consume e c).2 = true) {text : String} {c : σ} {next : Cursor}
    (hend : (reading options text).1 = .matched next) (hlt : next.offset < text.utf8ByteSize)
    (htaken : (feed (Session.act consume options text.utf8ByteSize) (reading options text).2.dropLast
      { consumer := c }).2 = true) :
    ∃ pre a rest, text.toList = pre ++ a :: rest ∧ size pre = next.offset ∧
      (read consume options (.ofList pre) c).result = .ok () ∧ ¬ Viable (pre ++ [a]) := by
  obtain ⟨d, ⟨r, htext, rfl⟩, htrace⟩ :=
    document_of_reads (Prod.ext hend rfl : reading options text = (.matched next, _))
  rw [show (reading options text).2 = d.trace from htrace] at htaken
  have hfits : d.tree.Fits options 0 := fits_of_taken hconsume htaken
  cases r with
  | nil =>
    rw [Cursor.offset_text, ← size_toList, htext] at hlt
    simp at hlt
  | cons a rest =>
    rw [Nat.zero_add] at hend ⊢
    refine ⟨d.text, a, rest, htext, rfl, ?_, ?_⟩
    · have hfeed := feed_of_true hconsume d.events c
      exact ((read_eq_ok_iff consume options (.ofList d.text) c _).2 ⟨d, String.toList_ofList.symm, hfits, hfeed⟩).1
    · rw [reading, htext] at hend
      exact not_viable_of_document (n := 5 * options.maxDepth + 2) hend

/-- Within the text an error is where it was found. -/
theorem offset_locate {code : ErrorCode} {text : String} {offset : Nat} (h : offset ≤ text.utf8ByteSize) :
    (ParseError.locate code text offset).offset = offset := Nat.min_eq_left h

/-- An error lies at the first character that no document could have there, if the consumer takes everything.  Where a
text is no document, what stands before is the start of one, and with the next character it is not.  Where a document
ends before the text does, what stands before is accepted, and with the next character it is the start of none. -/
theorem read_position (hconsume : ∀ e c, (consume e c).2 = true) (text : String) (c : σ) (e : ParseError)
    (herror : (read consume options text c).result = .error e) :
    (e.code = .badJson → ∃ pre post, text.toList = pre ++ post ∧ size pre = e.offset ∧ Viable pre ∧
        ∀ a rest, post = a :: rest → ¬ Viable (pre ++ [a])) ∧
      (e.code = .excessSource → e.offset < text.utf8ByteSize ∧
        ∃ pre a rest, text.toList = pre ++ a :: rest ∧ size pre = e.offset ∧
          (read consume options (.ofList pre) c).result = .ok () ∧ ¬ Viable (pre ++ [a])) := by
  cases read_faults hconsume herror with
  | balked hcode =>
    refine ⟨fun hcode' => ?_, fun hcode' => ?_⟩ <;> simp [hcode'] at hcode
  | noDocument hend htaken =>
    obtain ⟨pre, post, htext, hsize, hviable, hstops⟩ := position_of_noDocument hend htaken
    have hle : (walkText consume options text c).2.furthest ≤ text.utf8ByteSize := by
      rw [← size_toList, htext, size_append, hsize]
      exact Nat.le_add_right ..
    refine ⟨fun _ => ⟨pre, post, htext, ?_, hviable, hstops⟩, fun hcode => absurd hcode (by simp [ParseError.locate])⟩
    rw [offset_locate hle, hsize]
  | excess next hend hlt htaken =>
    obtain ⟨pre, a, rest, htext, hsize, hok, hstops⟩ := position_of_excess hconsume hend hlt htaken
    rw [offset_locate (Nat.le_of_lt hlt)]
    exact ⟨fun hcode => absurd hcode (by simp [ParseError.locate]),
      fun _ => ⟨hlt, pre, a, rest, htext, hsize, hok, hstops⟩⟩

end Read

/-- The comma of a list with nothing after it, and a second document after the first. -/
theorem read_position_comma :
    validate {} "[1,]" = .error ⟨.badJson, 3, 1, 4⟩ ∧ Viable ['[', '1', ','] ∧ ¬ Viable ['[', '1', ',', ']'] ∧
      validate {} "1 2" = .error ⟨.excessSource, 2, 1, 3⟩ ∧ validate {} "1 " = .ok () ∧ ¬ Viable ['1', ' ', '2'] := by
  have hconsume : ∀ e c, (Consumer.indifferent e c).2 = true := fun _ _ => rfl
  have hcomma : validate {} "[1,]" = .error ⟨.badJson, 3, 1, 4⟩ := by decide +kernel
  have hsecond : validate {} "1 2" = .error ⟨.excessSource, 2, 1, 3⟩ := by decide +kernel
  obtain ⟨pre, post, htext, hsize, hviable, hstops⟩ := (read_position hconsume "[1,]" () _ hcomma).1 rfl
  obtain ⟨-, pre', a, rest, htext', hsize', hok, hstops'⟩ := (read_position hconsume "1 2" () _ hsecond).2 rfl
  obtain ⟨rfl, rfl⟩ := append_inj_of_size (show ['[', '1', ','] ++ [']'] = pre ++ post from htext) hsize.symm
  obtain ⟨rfl, hrest⟩ := append_inj_of_size (show ['1', ' '] ++ ['2'] = pre' ++ a :: rest from htext') hsize'.symm
  obtain ⟨rfl, rfl⟩ := List.cons.inj hrest
  exact ⟨hcomma, hviable, hstops ']' [] rfl, hsecond, hok, hstops'⟩

end TableJson.Grammar
