import TableJson.Grammar.Read
import TableJson.Proofs.Grammar.Tree

/-!
# Tables — what each table of the grammar does

`reads n t` walks the table `t` with at most `n` tables open inside one another, and `tests n m` applies a test there;
both forget the looks.  There is one equation for each table, which says it in terms of its parts.  Nothing else opens
the rows.
-/

namespace TableJson.Grammar

open Machine Utf8 Scan

section Scan

variable {τ α : Type} (call : τ → Cursor → Scan (Move α)) (here : Cursor)

theorem scan_table (t : τ) : Matcher.scan call (.table t) here = call t here := rfl

theorem scan_nothing : Matcher.scan call .nothing here = (.matched here, []) := rfl

end Scan

/-- Walks a table of the grammar. -/
def reads (n : Nat) (t : Rule) (here : Cursor) : Scan (Action × Match) := (scan rows rowsPerTable n t here).plain

/-- Applies a test of the grammar. -/
def tests (n : Nat) (m : Matcher Rule) (here : Cursor) : Scan (Action × Match) :=
  (m.scan (scan rows rowsPerTable n) here).plain

section Equations

variable (n : Nat) (here : Cursor)

@[simp] theorem tests_nothing : tests n .nothing here = (.matched here, []) := rfl

@[simp] theorem tests_table (t : Rule) : tests n (.table t) here = reads n t here := rfl

theorem tests_optOneOf (set : String) :
    tests n (.optOneOf set) here = (tests n (.oneOf set) here).orElse (.matched here, []) := by
  simp [tests, Matcher.scan, Scan.orElse]

theorem tests_optTable (t : Rule) : tests n (.optTable t) here = (reads n t here).orElse (.matched here, []) := by
  simp [tests, Matcher.scan, reads, orElse]

theorem tests_repeatTable (t : Rule) :
    tests n (.repeatTable t 0 none) here = repeatScan 0 none (reads n t) here.rest 0 here := by
  simp only [tests, Matcher.scan, plain_repeatScan]
  rfl

theorem reads_zero (t : Rule) : reads 0 t here = (.exhausted, []) := rfl

-- the equations that follow run the machine over the rows of a table
attribute [local simp] reads scan rowsPerTable scanRows rows Row.notes scan_table scan_nothing

/-! ## Numbers -/

/-- A number that breaks off stops the walk, at this row of its table. -/
def malformed (row : Nat) (here : Cursor) : Scan (Action × Match) :=
  (.halted (.rejected row here.offset), [(.malformedNumber, .between here here)])

theorem reads_exp :
    reads (n + 1) .exp here =
      (tests n (.oneOf "eE") here).andThen fun c =>
        (tests n (.optOneOf "-+") c).andThen fun d => (tests n someDigits d).orElse (malformed 3 d) := by
  simp [tests, andThen, orElse, malformed]

theorem reads_frac :
    reads (n + 1) .frac here =
      (tests n (.oneOf ".") here).andThen fun c => (tests n someDigits c).orElse (malformed 2 c) := by
  simp [tests, andThen, orElse, malformed]

theorem reads_decimal :
    reads (n + 1) .decimal here =
      (tests n (.oneOf "123456789") here).andThen fun c => tests n anyDigits c := by
  simp [tests, andThen]

theorem reads_int :
    reads (n + 1) .int here = (tests n (.oneOf "0") here).orElse (reads n .decimal here) := by
  simp [tests, orElse]

/-- The parts of a number after its sign. -/
def unsigned (n : Nat) (here : Cursor) : Scan (Action × Match) :=
  (reads n .int here).andThen fun c =>
    after [(.numberIntegral, .between here c)]
      ((tests n (.optTable .frac) c).andThen fun d =>
        after [(.numberFrac, .between c d)]
          ((tests n (.optTable .exp) d).andThen fun e => (.matched e, [(.numberExp, .between d e)])))

theorem reads_number :
    reads (n + 1) .number here =
      (tests n (.optOneOf "-") here).fork (fun c => after [(.numberSign, .between here c)] (unsigned n c))
        (unsigned n here) := by
  simp [tests, andThen, unsigned]

/-! ## Strings -/

theorem reads_unescaped :
    reads (n + 1) .unescaped here =
      (tests n (.range ' ' '!') here).orElse
        ((tests n (.range '#' '[') here).orElse (tests n (.range ']' lastChar) here)) := by
  simp [tests, orElse]

theorem reads_unicode :
    reads (n + 1) .unicode here =
      (tests n (.oneOf "uU") here).andThen fun c =>
        tests n (.repeatOneOf hexDigits 4 (some 4)) c := by
  simp [tests, andThen]

theorem reads_escapedChar :
    reads (n + 1) .escapedChar here =
      (tests n (.oneOf "\"\\/bfnrt") here).orElse (reads n .unicode here) := by
  simp [tests, orElse]

theorem reads_escaped :
    reads (n + 1) .escaped here =
      (tests n (.oneOf "\\") here).andThen fun c => reads n .escapedChar c := by
  simp [tests, andThen]

theorem reads_char :
    reads (n + 1) .char here = (reads n .unescaped here).orElse (reads n .escaped here) := by
  simp [orElse]

theorem reads_string :
    reads (n + 1) .string here =
      (tests n (.oneOf "\"") here).andThen fun c =>
        (tests n (.repeatTable .char 0 none) c).andThen fun d => tests n (.oneOf "\"") d := by
  simp [tests, andThen]

/-! ## Structure -/

theorem reads_mark {t : Rule} {c : String} (h : rows t = punctuation c) :
    reads (n + 1) t here =
      (tests n anyBlanks here).andThen fun d => (tests n (.oneOf c) d).andThen fun e => tests n anyBlanks e := by
  simp [-rows, h, punctuation, tests, andThen]

/-- Hands an action over once `x` has matched from `here`. -/
def noted (a : Action) (here : Cursor) (x : Scan (Action × Match)) : Scan (Action × Match) :=
  x.andThen fun next => (.matched next, [(a, .between here next)])

theorem noted_orElse (a : Action) (x y : Scan (Action × Match)) :
    (noted a here x).orElse y = x.fork (fun next => (.matched next, [(a, .between here next)])) y := by
  rcases x with ⟨_ | _ | _ | _, ms⟩ <;> simp [noted, andThen, orElse]

theorem reads_value :
    reads (n + 1) .value here =
      (noted .falseValue here (tests n (.seq "false") here)).orElse
        ((noted .nullValue here (tests n (.seq "null") here)).orElse
          ((noted .trueValue here (tests n (.seq "true") here)).orElse
            ((noted .numberValue here (reads n .number here)).orElse
              ((noted .stringValue here (reads n .string here)).orElse
                ((reads n .object here).orElse (reads n .array here)))))) := by
  simp only [noted_orElse, tests]
  simp [orElse]

theorem reads_member :
    reads (n + 1) .member here =
      (reads n .string here).andThen fun c =>
        after [(.beginMember, .between here c)]
          ((reads n .nameSeparator c).andThen fun d => noted .endMember d (reads n .value d)) := by
  simp [noted, andThen]

/-- The table of a container. -/
def containerRule : ContainerKind → Rule
  | .object => .object
  | .array => .array

/-- The table of the start of a container. -/
def openRule : ContainerKind → Rule
  | .object => .beginObject
  | .array => .beginArray

/-- The table of the end of a container. -/
def closeRule : ContainerKind → Rule
  | .object => .endObject
  | .array => .endArray

/-- The table of what stands between the ends of a container. -/
def bodyRule : ContainerKind → Rule
  | .object => .objectBody
  | .array => .arrayBody

/-- The table of an entry after the first. -/
def nextRule : ContainerKind → Rule
  | .object => .nextMember
  | .array => .nextValue

/-- The table of an entry. -/
def entryRule : ContainerKind → Rule
  | .object => .member
  | .array => .value

variable (kind : ContainerKind)

theorem reads_next :
    reads (n + 1) (nextRule kind) here =
      (reads n .valueSeparator here).andThen fun c => reads n (entryRule kind) c := by
  cases kind <;>
    simp [nextRule, entryRule, andThen]

theorem reads_body :
    reads (n + 1) (bodyRule kind) here =
      (reads n (entryRule kind) here).andThen fun c => tests n (.repeatTable (nextRule kind) 0 none) c := by
  cases kind <;>
    simp [bodyRule, entryRule, nextRule, tests, andThen]

theorem reads_container :
    reads (n + 1) (containerRule kind) here =
      (reads n (openRule kind) here).andThen fun c =>
        after [(Action.opens kind, .between here c)]
          ((tests n (.optTable (bodyRule kind)) c).andThen fun d =>
            noted (Action.closes kind) d (reads n (closeRule kind) d)) := by
  cases kind <;>
    simp [containerRule, openRule, bodyRule, closeRule, Action.opens, Action.closes, noted, tests, andThen]

theorem reads_jsonText :
    reads (n + 1) .jsonText here =
      after [(.beginJson, .between here here)]
        ((tests n anyBlanks here).andThen fun c =>
          (reads n .value c).fork
            (fun d =>
              (tests n anyBlanks d).andThen fun e => (.matched e, [(.successEndJson, .between e e)]))
            (.halted (.rejected 5 c.offset), [(.failedEndJson, .between c c)])) := by
  simp [tests, andThen]

end Equations

end TableJson.Grammar
