import TableJson.Proofs.Grammar.Closure
import TableJson.Proofs.Grammar.Documents

/-!
# Inner actions — what a reading hands over in between

The tables inside a document neither begin nor end it.  So the actions of a reading are the start of the document, inner
actions, and at most one action more that goes with the way the walk ends (`reading_course`).

* `Tame`: inner actions only, but for a malformed number where the walk is rejected.
* `tame_reads`: the walk of every table but that of a whole document is tame.
-/

namespace TableJson.Grammar

open Machine Utf8 Scan

/-- The actions that neither begin nor end a document, nor tell of a malformed number. -/
def Action.Inner (a : Action) : Prop :=
  a ≠ .beginJson ∧ a ≠ .successEndJson ∧ a ≠ .failedEndJson ∧ a ≠ .malformedNumber

instance (a : Action) : Decidable a.Inner := inferInstanceAs (Decidable (_ ∧ _))

/-- Inner actions only. -/
def AllInner (tr : List (Action × Match)) : Prop := ∀ p ∈ tr, p.1.Inner

theorem AllInner.nil : AllInner [] := fun _ h => absurd h List.not_mem_nil

theorem AllInner.append {tr tr' : List (Action × Match)} (h : AllInner tr) (h' : AllInner tr') : AllInner (tr ++ tr') :=
  fun p hp => (List.mem_append.1 hp).elim (h p) (h' p)

/-- Inner actions, but for a malformed number where the walk is rejected. -/
inductive Tame : Machine.Scan (Action × Match) → Prop
  | inner {o : Outcome} {tr : List (Action × Match)} (hends : ∀ h, o ≠ .halted h) (hinner : AllInner tr) : Tame (o, tr)
  | malformed {tr : List (Action × Match)} (row offset : Nat) (m : Match) (hinner : AllInner tr) :
    Tame (.halted (.rejected row offset), tr ++ [(.malformedNumber, m)])

section Tame

variable {x : Machine.Scan (Action × Match)} {tr : List (Action × Match)}

theorem Tame.done {o : Outcome} (h : ∀ h, o ≠ .halted h) : Tame (o, []) := .inner h .nil

theorem Tame.after (hinner : AllInner tr) (hx : Tame x) : Tame (x.after tr) := by
  cases hx with
  | inner hends h => exact .inner hends (hinner.append h)
  | malformed row offset m h =>
    rw [after_mk, ← List.append_assoc]
    exact .malformed row offset m (hinner.append h)

theorem Tame.fork {f : Cursor → Machine.Scan (Action × Match)} {g : Machine.Scan (Action × Match)} (hx : Tame x)
    (hf : ∀ next, Tame (f next)) (hg : Tame g) : Tame (x.fork f g) := by
  cases hx with
  | @inner o tr hends h =>
    cases o with
    | matched next => exact (hf next).after h
    | mismatch => exact hg.after h
    | halted halt => exact absurd rfl (hends halt)
    | exhausted => exact .inner hends h
  | malformed row offset m h => exact .malformed row offset m h

theorem closed_tame : Closed Tame := ⟨.done, .fork⟩

end Tame

/-! ## Tables -/

/-- Rows that keep a table tame: a row that rejects tells of a malformed number, no other row has any but an inner
action, and no test walks the table of a whole document. -/
def TameRow (row : Row Rule Action) : Prop :=
  rule? row.matcher ≠ some .jsonText ∧
    if row.status = .reject then row.action = some .malformedNumber else ∀ a ∈ row.action, a.Inner

instance (row : Row Rule Action) : Decidable (TameRow row) := inferInstanceAs (Decidable (_ ∧ _))

theorem tame_rows {t : Rule} (ht : t ≠ .jsonText) : ∀ row ∈ rows t, TameRow row := by
  cases t <;> first | decide | exact absurd rfl ht

theorem TameRow.matcher {row : Row Rule Action} (h : TameRow row) : ∀ t ∈ rule? row.matcher, t ≠ .jsonText :=
  fun _ ht he => h.1 (he ▸ ht)

theorem TameRow.keeps {row : Row Rule Action} (h : TameRow row) : RowKeeps Tame row := by
  obtain ⟨-, haction⟩ := h
  constructor
  · intro i here next hreject
    rw [if_pos hreject] at haction
    rw [Row.notes, haction]
    exact .malformed _ _ _ .nil
  · intro here next x hstatus hx
    rw [if_neg hstatus] at haction
    exact hx.after (forall_notes haction here next)

theorem keeps_tame (t : Rule) (ht : t ≠ .jsonText) :
    ∀ row ∈ rows t, (∀ t ∈ rule? row.matcher, t ≠ .jsonText) ∧ RowKeeps Tame row :=
  fun row hrow => ⟨(tame_rows ht row hrow).matcher, (tame_rows ht row hrow).keeps⟩

/-- No table inside a document begins or ends it. -/
theorem tame_reads (n : Nat) {t : Rule} (ht : t ≠ .jsonText) (here : Cursor) : Tame (reads n t here) :=
  closed_tame.reads keeps_tame n ht here

/-! ## Documents -/

/-- How the walk of a whole document goes on after its start: inner actions, and what goes with its end. -/
inductive Course : Machine.Scan (Action × Match) → Prop
  | success {tr : List (Action × Match)} (next : Cursor) (hinner : AllInner tr) :
    Course (.matched next, tr ++ [(.successEndJson, .between next next)])
  | failure {tr : List (Action × Match)} (row offset : Nat) (m : Match) (hinner : AllInner tr) :
    Course (.halted (.rejected row offset), tr ++ [(.failedEndJson, m)])
  | malformed {tr : List (Action × Match)} (row offset : Nat) (m : Match) (hinner : AllInner tr) :
    Course (.halted (.rejected row offset), tr ++ [(.malformedNumber, m)])
  | unfinished {o : Outcome} {tr : List (Action × Match)} (ho : o = .mismatch ∨ o = .exhausted) (hinner : AllInner tr) :
    Course (o, tr)

section Course

variable {x g : Machine.Scan (Action × Match)} {f : Cursor → Machine.Scan (Action × Match)} {tr : List (Action × Match)}

theorem Course.after (hinner : AllInner tr) (hx : Course x) : Course (x.after tr) := by
  cases hx with
  | success next h =>
    rw [after_mk, ← List.append_assoc]
    exact .success next (hinner.append h)
  | failure row offset m h =>
    rw [after_mk, ← List.append_assoc]
    exact .failure row offset m (hinner.append h)
  | malformed row offset m h =>
    rw [after_mk, ← List.append_assoc]
    exact .malformed row offset m (hinner.append h)
  | unfinished ho h => exact .unfinished ho (hinner.append h)

theorem Tame.course (hx : Tame x) (hf : ∀ next, Course (f next)) (hg : Course g) : Course (x.fork f g) := by
  cases hx with
  | @inner o tr hends h =>
    cases o with
    | matched next => exact (hf next).after h
    | mismatch => exact hg.after h
    | halted halt => exact absurd rfl (hends halt)
    | exhausted => exact .unfinished (Or.inr rfl) h
  | malformed row offset m h => exact .malformed row offset m h

theorem tame_blanks (n : Nat) (here : Cursor) : Tame (tests n anyBlanks here) :=
  closed_tame.tests keeps_tame n (by decide) here

theorem reading_course (options : Options) (text : String) :
    ∃ m x, reading options text = Scan.after [(.beginJson, m)] x ∧ Course x := by
  have hmismatch : Course (.mismatch, []) := .unfinished (Or.inl rfl) .nil
  refine ⟨_, _, reads_jsonText (5 * options.maxDepth + 6) (.text 0 text.toList), ?_⟩
  refine (tame_blanks _ _).course (fun c => ?_) hmismatch
  refine (tame_reads _ (by decide) c).course (fun d => ?_) (@Course.failure [] 5 c.offset _ .nil)
  exact (tame_blanks _ d).course (fun e => @Course.success [] e .nil) hmismatch

/-- The document ends within the text. -/
theorem offset_le_of_reading {options : Options} {text : String} {next : Cursor}
    (h : (reading options text).1 = .matched next) : next.offset ≤ text.utf8ByteSize := by
  obtain ⟨d, ⟨r, htext, rfl⟩, -⟩ := document_of_reads (Prod.ext h rfl : reading options text = (.matched next, _))
  rw [← size_toList, htext, size_append, Cursor.offset_text]
  omega

end Course

end TableJson.Grammar
