/-!
# Sinks — where text is written

A writer takes characters one after another and may refuse one; writing ends there.  A sink is the writer that holds
what has been written; one with limited room refuses the first character that does not fit.
-/

namespace TableJson.Text

/-- What text can be written into. -/
class Writer (σ : Type) where
  /-- Writes one character; the writer comes back as an error when it refuses the character. -/
  put : Char → σ → Except σ σ

export Writer (put)

/-- Writes something; the writer comes back as an error when it refuses a character. -/
abbrev Write (σ : Type) := σ → Except σ σ

section Writing

variable {σ : Type} [Writer σ]

/-- Writes characters one after another. -/
def putAll : List Char → Write σ
  | [], s => .ok s
  | c :: cs, s => do putAll cs (← put c s)

/-- Writes one character `n` times. -/
def putTimes : Nat → Char → Write σ
  | 0, _, s => .ok s
  | n + 1, c, s => do putTimes n c (← put c s)

theorem putTimes_eq_putAll (n : Nat) (c : Char) (s : σ) : putTimes n c s = putAll (List.replicate n c) s := by
  induction n generalizing s with
  | zero => rfl
  | succ n ih =>
    cases h : put c s with
    | error full => simp [putTimes, List.replicate_succ, putAll, h, bind, Except.bind]
    | ok t => simp [putTimes, List.replicate_succ, putAll, h, bind, Except.bind, ih]

theorem putAll_append (cs ds : List Char) (s : σ) : putAll (cs ++ ds) s = (putAll cs s).bind (putAll ds) := by
  induction cs generalizing s with
  | nil => rfl
  | cons c cs ih =>
    cases h : put c s with
    | error full => simp [putAll, h, bind, Except.bind]
    | ok t => simp [putAll, h, bind, Except.bind, ih]

end Writing

/-- What has been written, and how many more characters fit if that is limited. -/
structure Sink where
  text : String := ""
  room : Option Nat := none

instance : Writer Sink where
  put c s :=
    match s.room with
    | none => .ok { s with text := s.text.push c }
    | some 0 => .error s
    | some (n + 1) => .ok { text := s.text.push c, room := some n }

namespace Sink

/-- Everything that `write` writes into an unlimited sink. -/
def unlimited (write : Write Sink) : String :=
  match write {} with
  | .ok s => s.text
  | .error s => s.text

/-- What `write` writes into a sink with room for `room` characters, and whether that was all. -/
def filled (room : Option Nat) (write : Write Sink) : String × Bool :=
  match write { room } with
  | .ok s => (s.text, true)
  | .error s => (s.text, false)

end Sink

end TableJson.Text
