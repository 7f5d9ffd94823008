import TableJson.Proofs.Grammar.Tables
import TableJson.Proofs.Machine.Kept

/-!
# Closure — what holds of every walk

A property of scans is `Closed` if it holds where nothing is done, and of a fork whenever it holds of the parts.  Such a
property passes from the rows of some tables to every walk of these tables, if they open only one another
(`Closed.reads`).
-/

namespace TableJson.Grammar

open Machine Scan

/-- A property that holds where nothing is done, and of a fork if it holds of the parts. -/
structure Closed (I : Machine.Scan (Action × Match) → Prop) : Prop where
  done {o : Outcome} (ho : ∀ h, o ≠ .halted h) : I (o, [])
  fork {x g : Machine.Scan (Action × Match)} {f : Cursor → Machine.Scan (Action × Match)} (hx : I x)
    (hf : ∀ next, I (f next)) (hg : I g) : I (x.fork f g)

/-- What a row does once its test has matched is no exception to `I`. -/
structure RowKeeps (I : Machine.Scan (Action × Match) → Prop) (row : Row Rule Action) : Prop where
  rejects (i : Nat) (here next : Cursor) (h : row.status = .reject) :
    I (.halted (.rejected i here.offset), row.notes here next)
  goes (here next : Cursor) {x : Machine.Scan (Action × Match)} (h : row.status ≠ .reject) (hx : I x) :
    I (x.after (row.notes here next))

/-- What holds of the action of a row holds of all that it hands over. -/
theorem forall_notes {row : Row Rule Action} {P : Action → Prop} (h : ∀ a ∈ row.action, P a) (here next : Cursor) :
    ∀ q ∈ row.notes here next, P q.1 := by
  rw [Row.notes]
  cases hact : row.action with
  | none => exact fun _ hq => absurd hq List.not_mem_nil
  | some a => exact fun q hq => by rw [List.mem_singleton.1 hq]; exact h a hact

/-- The table that a test walks. -/
def rule? : Matcher Rule → Option Rule
  | .table t | .optTable t | .repeatTable t _ _ => some t
  | _ => none

theorem mem_rule?_of_opens {m : Matcher Rule} {t : Rule} (h : m.Opens t) : t ∈ rule? m := by
  rcases h with rfl | rfl | ⟨min, max, rfl⟩ <;> rfl

namespace Closed

variable {I : Machine.Scan (Action × Match) → Prop} {T : Rule → Prop}

theorem char (hI : Closed I) (p : Char → Bool) (here : Cursor) :
    I (scanChar p here : Machine.Scan (Move Action)).plain := by
  refine hI.done fun _ => ?_
  rw [scanChar]
  cases here.char? p <;> simp [Outcome.ofOption]

/-- More may be done after a match. -/
theorem more (hI : Closed I) {next : Cursor} {tr : List (Action × Match)} {x : Machine.Scan (Action × Match)}
    (htr : I (.matched next, tr)) (hx : I x) : I (x.after tr) :=
  hI.fork htr (fun _ => hx) (hI.done (o := .mismatch) (by simp))

theorem kept (hI : Closed I)
    (hrows : ∀ t, T t → ∀ row ∈ rows t, (∀ t ∈ rule? row.matcher, T t) ∧ RowKeeps I row) :
    Kept rows rowsPerTable T fun _ x => I x.plain where
  opens ht hrow hopens := (hrows _ ht _ hrow).1 _ (mem_rule?_of_opens hopens)
  done here o ho _ := hI.done ho
  char := hI.char
  word call text here := by
    refine hI.done fun _ => ?_
    dsimp only [Matcher.scan]
    split <;> simp
  fork {here x f g} hx hf hg := by
    rcases x with ⟨next | _ | _ | _, ms⟩
    · rw [fork_matched, plain_after]
      exact hI.more hx (hf next ms rfl)
    · rw [fork_mismatch, plain_after]
      exact hI.fork hx (fun next => hI.done (o := .matched next) (by simp)) hg
    · exact hx
    · exact hx
  row {nest t row here next ms o} ht hrow _ h hends := by
    have hkeeps := (hrows t ht row hrow).2
    rw [plain_mk, actions_append, actions_moves, ← after_mk]
    refine hI.more h ?_
    cases hends with
    | goes hstatus => simpa using hkeeps.goes here next hstatus (hI.done (o := .matched next) (by simp))
    | rejects hstatus i => exact hkeeps.rejects i here next hstatus

/-- What holds of the rows of some tables that open only one another holds of every walk of them. -/
theorem reads (hI : Closed I)
    (hrows : ∀ t, T t → ∀ row ∈ rows t, (∀ t ∈ rule? row.matcher, T t) ∧ RowKeeps I row) (n : Nat) {t : Rule} (ht : T t)
    (here : Cursor) : I (reads n t here) :=
  (hI.kept hrows).scan n ht here

/-- The same of a test. -/
theorem tests (hI : Closed I)
    (hrows : ∀ t, T t → ∀ row ∈ rows t, (∀ t ∈ rule? row.matcher, T t) ∧ RowKeeps I row) (n : Nat) {m : Matcher Rule}
    (hm : ∀ t ∈ rule? m, T t) (here : Cursor) : I (tests n m here) :=
  (hI.kept hrows).test (fun _ ht here => hI.reads hrows n ht here) (fun t ht => hm t (mem_rule?_of_opens ht)) here

end Closed

end TableJson.Grammar
