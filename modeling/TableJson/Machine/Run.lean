import TableJson.Machine.Table
import TableJson.Utf8

/-!
# Runs — walking the tables over bytes

`run` walks a table from a position in the input.  The input is read as UTF-8; an invalid sequence matches nothing.

* Every match of a row with an action is handed to the context, which may answer `false` to stop the run.
* A row with status `reject` stops the run, however deep it sits in optional or repeated tables.
* `furthest` is the largest offset the run has looked at, in whatever branch.
* Two budgets make the walk total: `nest` bounds how many tables are open inside one another, `steps` the rows
  visited in one walk of one table.  A run that would need more ends as `exhausted`, which is neither a match nor a
  mismatch.
-/

namespace TableJson.Machine

/-! ## Positions and matches -/

/-- A position in the input, with the bytes from there on. -/
structure Cursor where
  offset : Nat
  rest : List UInt8
deriving DecidableEq, Repr

namespace Cursor

/-- The start of `input`. -/
def start (input : List UInt8) : Cursor := ⟨0, input⟩

/-- The position `n` bytes on. -/
def advance (here : Cursor) (n : Nat) : Cursor := ⟨here.offset + n, here.rest.drop n⟩

/-- The position after one character of the class `p`, if such a character comes next. -/
def char? (p : Char → Bool) (here : Cursor) : Option Cursor :=
  match Utf8.next? here.rest with
  | some (c, rest) => if p c then some ⟨here.offset + c.utf8Size, rest⟩ else none
  | none => none

end Cursor

/-- Bytes that a row matched, and where they start. -/
structure Match where
  start : Nat := 0
  bytes : List UInt8 := []
deriving DecidableEq, Repr, Inhabited

namespace Match

/-- The offset after the last byte. -/
def stop (m : Match) : Nat := m.start + m.bytes.length

/-- What lies between two positions of one input. -/
def between (here there : Cursor) : Match := ⟨here.offset, here.rest.take (there.offset - here.offset)⟩

end Match

/-! ## What a run carries and how it ends -/

/-- Handles an action of a row for the bytes it matched; `false` stops the run. -/
abbrev Context (α σ : Type) := α → Match → σ → σ × Bool

/-- The state of the context, and the largest offset looked at. -/
structure State (σ : Type) where
  context : σ
  furthest : Nat := 0

/-- Looking at a position counts as reaching it. -/
def State.reach {σ : Type} (s : State σ) (offset : Nat) : State σ :=
  { s with furthest := max s.furthest offset }

/-- Why a run stopped before the end of its table. -/
inductive Halt where
  /-- A reject row, at this index of its table, matched from this offset. -/
  | rejected (row offset : Nat)
  /-- The context refused an action whose match ended at this offset. -/
  | aborted (offset : Nat)
deriving DecidableEq, Repr

/-- How a test or the walk of a table ended. -/
inductive Outcome where
  | matched (next : Cursor)
  | mismatch
  | halted (halt : Halt)
  | exhausted
deriving DecidableEq, Repr

/-- A match if a position was found. -/
def Outcome.ofOption : Option Cursor → Outcome
  | some next => .matched next
  | none => .mismatch

/-! ## Tests -/

/-- How many leading elements two lists share. -/
def commonLength {β : Type} [DecidableEq β] : List β → List β → Nat
  | a :: as, b :: bs => if a = b then commonLength as bs + 1 else 0
  | _, _ => 0

/-- Whether `count` repetitions leave room for one more. -/
def belowMax (max : Option Nat) (count : Nat) : Bool :=
  match max with
  | some m => decide (count < m)
  | none => true

/-- Enough repetitions match, fewer do not. -/
def settle (min count : Nat) (here : Cursor) : Outcome :=
  if min ≤ count then .matched here else .mismatch

section Repetition

variable {σ : Type} (min : Nat) (max : Option Nat)

/-- Repeats a character class as often as it matches, up to `max`.  Each round but the last consumes a byte, so the
bytes ahead bound the rounds. -/
def repeatChar (p : Char → Bool) : List UInt8 → Nat → Cursor → State σ → Outcome × State σ
  | ahead, count, here, s =>
    if belowMax max count then
      match here.char? p with
      | some next =>
        match ahead with
        | [] => (settle min (count + 1) next, s.reach here.offset)
        | _ :: ahead => repeatChar p ahead (count + 1) next (s.reach here.offset)
      | none => (settle min count here, s.reach here.offset)
    else (settle min count here, s)

/-- Repeats a walk as often as it matches, up to `max`, and stops after a match that consumed nothing. -/
def repeatWalk (walk : Cursor → State σ → Outcome × State σ) :
    List UInt8 → Nat → Cursor → State σ → Outcome × State σ
  | ahead, count, here, s =>
    if belowMax max count then
      match walk here s with
      | (.matched next, s) =>
        if next.offset = here.offset then (settle min (count + 1) next, s)
        else
          match ahead with
          | [] => (settle min (count + 1) next, s)
          | _ :: ahead => repeatWalk walk ahead (count + 1) next s
      | (.mismatch, s) => (settle min count here, s)
      | stopped => stopped
    else (settle min count here, s)

end Repetition

section Walk

variable {τ α σ : Type}

/-- Whether `c` is one of the characters of `set`. -/
def inSet (set : String) (c : Char) : Bool := decide (c ∈ set.toList)

/-- Applies a test at `here`; `call` walks the nested tables. -/
def Matcher.test (call : τ → Cursor → State σ → Outcome × State σ) :
    Matcher τ → Cursor → State σ → Outcome × State σ
  | .nothing, here, s => (.matched here, s)
  | .seq text, here, s =>
    let word := Utf8.encode text.toList
    let common := commonLength here.rest word
    (if common = word.length then .matched (here.advance common) else .mismatch, s.reach (here.offset + common))
  | .oneOf set, here, s => (.ofOption (here.char? (inSet set)), s.reach here.offset)
  | .optOneOf set, here, s => (.matched ((here.char? (inSet set)).getD here), s.reach here.offset)
  | .range lo hi, here, s =>
    (.ofOption (here.char? fun c => decide (lo ≤ c ∧ c ≤ hi)), s.reach here.offset)
  | .table t, here, s => call t here s
  | .optTable t, here, s =>
    match call t here s with
    | (.mismatch, s) => (.matched here, s)
    | ended => ended
  | .repeatOneOf set min max, here, s => repeatChar min max (inSet set) here.rest 0 here s
  | .repeatTable t min max, here, s => repeatWalk min max (call t) here.rest 0 here s

/-- Hands the action of a matching row to the context; a row without one goes on. -/
def Row.perform (act : Context α σ) (row : Row τ α) (here next : Cursor) (s : State σ) :
    State σ × Bool :=
  match row.action with
  | none => (s, true)
  | some a =>
    let answer := act a (.between here next) s.context
    ({ s with context := answer.1 }, answer.2)

/-- Walks `rows` from row `i` on; `test` applies the test of a row. -/
def walk (act : Context α σ) (test : Matcher τ → Cursor → State σ → Outcome × State σ)
    (rows : List (Row τ α)) : Nat → Nat → Cursor → State σ → Outcome × State σ
  | 0, _, _, s => (.exhausted, s)
  | steps + 1, i, here, s =>
    match rows[i]? with
    | none => (.mismatch, s)
    | some row =>
      match test row.matcher here s with
      | (.mismatch, s) =>
        match row.onFail with
        | .leave => (.mismatch, s)
        | .row j => walk act test rows steps j here s
      | (.matched next, s) =>
        match row.perform act here next s with
        | (s, false) => (.halted (.aborted next.offset), s)
        | (s, true) =>
          match row.status, row.onMatch with
          | .accept, _ => (.matched next, s)
          | .reject, _ => (.halted (.rejected i here.offset), s)
          | .normal, .leave => (.matched next, s)
          | .normal, .row j => walk act test rows steps j next s
      | stopped => stopped

/-- Walks the table `t` from `here`, with at most `nest` tables open inside one another. -/
def run (program : Program τ α) (act : Context α σ) (steps : Nat) :
    Nat → τ → Cursor → State σ → Outcome × State σ
  | 0, _, _, s => (.exhausted, s)
  | nest + 1, t, here, s =>
    walk act (Matcher.test (run program act steps nest)) (program t) steps 0 here s

end Walk

/-! ## Budgets -/

/-- How deep tables may nest, and how many rows one walk may visit. -/
structure Budget where
  nest : Nat
  steps : Nat
deriving DecidableEq, Repr

/-- Budgets that every run on `bytes` bytes stays within if it ends at all (`run_ample`).  Between two actions a run
that ends enters no table twice at one offset inside itself, and no row of one walk twice at one offset; so an end
without a refused action comes within the first pass, and a refusal at the `refusal`-th action within `refusal` passes
more. -/
def Budget.ample (tables rows bytes refusal : Nat) : Budget :=
  { nest := tables * (bytes + 1) * (refusal + 1) + 1
    steps := rows * (bytes + 1) * (refusal + 1) + 1 }

end TableJson.Machine
