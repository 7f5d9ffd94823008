import TableJson.Machine.Run

/-!
# Recorders — a context that keeps what it is handed

A recorder keeps every action with its match, in order, and refuses one of them by its number.
-/

namespace TableJson.Machine

/-- The actions handed over so far, the last one first. -/
structure Recorder (α : Type) where
  recorded : List (α × Match) := []

namespace Recorder

variable {α : Type}

/-- The number of actions recorded. -/
def count (r : Recorder α) : Nat := r.recorded.length

/-- The actions in the order of their arrival. -/
def actions (r : Recorder α) : List (α × Match) := r.recorded.reverse

/-- Records an action, and refuses the `refused`-th, counted from 1. -/
def context (refused : Option Nat) : Context α (Recorder α) := fun action m r =>
  let r : Recorder α := ⟨(action, m) :: r.recorded⟩
  (r, decide (refused ≠ some r.count))

end Recorder

/-- Walks several tables of a program over one input, each from its start, with one recorder and one largest offset
throughout: the outcome of each, with the state after it. -/
def runAll {τ α : Type} (program : Program τ α) (refused : Option Nat) (budget : Budget) (input : List UInt8) :
    List τ → State (Recorder α) → List (Outcome × State (Recorder α))
  | [], _ => []
  | t :: ts, s =>
    let ended := run program (Recorder.context refused) budget.steps budget.nest t (.start input) s
    ended :: runAll program refused budget input ts ended.2

end TableJson.Machine
