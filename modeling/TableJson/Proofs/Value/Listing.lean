import Mathlib.Logic.ExistsUnique
import TableJson.Proofs.Text.ByteOrder
import TableJson.Proofs.Value.Gathering
import TableJson.Value.Children

/-!
# Listing — the children of a value, one call after another

Each call of `next` hands out the first of the children that are left, and leaves the others (`next_fst`,
`remaining_next`).  So the call after `n` others answers with the `n`-th of them (`answer_eq`), and nothing is handed
out once they have come to an end.

The children of a value are what the steps from it lead to (`mem_remaining_iff`), by increasing index or by increasing
bytes of the name (`pairwise_remaining`).  `children_enumerated` puts the two together.
-/

namespace TableJson

/-- The order in which children come: indices as numbers, names by their bytes. -/
def Component.Before : Component → Component → Prop
  | .index i, .index j => i < j
  | .key a, .key b => Utf8.encode a.toList < Utf8.encode b.toList
  | _, _ => False

theorem Component.not_before_self (c : Component) : ¬ c.Before c := by
  cases c with
  | key name => exact List.lt_irrefl _
  | index i => exact Nat.lt_irrefl i

namespace Children

/-- What is left after `n` calls of `next`. -/
def after : Nat → Children → Children
  | 0, c => c
  | n + 1, c => after n c.next.2

/-- The answer of the call of `next` that comes after `n` others. -/
def answer (c : Children) (n : Nat) : Option (Component × Value) := (c.after n).next.1

/-! ## One call -/

section Next

variable {c rest : Children} {child : Component × Value}

theorem next_of_none (h : c.next.1 = none) : c.next = (none, c) ∧ c.length = 0 := by
  unfold next at h
  split at h
  case h_1 => exact ⟨rfl, rfl⟩
  case h_2 => exact ⟨rfl, rfl⟩
  case h_4 => exact ⟨rfl, rfl⟩
  all_goals cases h

theorem remaining_of_none (h : c.next.1 = none) : c.remaining = [] := by
  rw [remaining, collect]
  split
  · rfl
  · rename_i hnext
    rw [hnext] at h
    cases h

theorem remaining_of_next (h : c.next = (some child, rest)) : c.remaining = child :: rest.remaining := by
  rw [remaining, collect]
  split
  · rename_i hnext
    rw [h] at hnext
    cases hnext
  · rename_i hnext
    rw [h] at hnext
    cases hnext
    rfl

variable (c)

theorem next_fst : c.next.1 = c.remaining.head? := by
  rcases hnext : c.next with ⟨_ | child, rest⟩
  · rw [remaining_of_none (by rw [hnext]), List.head?_nil]
  · rw [remaining_of_next hnext, List.head?_cons]

theorem remaining_next : c.next.2.remaining = c.remaining.tail := by
  rcases hnext : c.next with ⟨_ | child, rest⟩
  · have hnone : c.next.1 = none := by rw [hnext]
    obtain ⟨hsame, -⟩ := next_of_none hnone
    obtain rfl : c = rest := (Prod.mk.inj (hsame.symm.trans hnext)).2
    rw [remaining_of_none hnone, List.tail_nil]
  · rw [remaining_of_next hnext, List.tail_cons]

theorem sizeHint_eq : c.sizeHint = (c.length, some c.length) := by cases c <;> rfl

/-- Gathering goes through what is left, in its order. -/
theorem collect_eq {β : Type} (f : Component × Value → β) : c.collect f = c.remaining.map f := by
  fun_induction collect f c with
  | case1 c rest hnext => rw [remaining_of_none (by rw [hnext]), List.map_nil]
  | case2 c child rest hnext ih => rw [ih, remaining_of_next hnext, List.map_cons]

/-- The length is the number of children that are left. -/
theorem length_eq : c.length = c.remaining.length := by
  fun_induction collect id c with
  | case1 c rest hnext =>
    have hnone : c.next.1 = none := by rw [hnext]
    rw [(next_of_none hnone).2, remaining_of_none hnone, List.length_nil]
  | case2 c child rest hnext ih => rw [length_of_next hnext, ih, remaining_of_next hnext, List.length_cons]

end Next

/-! ## One call after another -/

section Calls

variable (c : Children) (n : Nat)

theorem remaining_after : (c.after n).remaining = c.remaining.drop n := by
  induction n generalizing c with
  | zero => rfl
  | succ n ih => rw [after, ih, remaining_next, List.drop_tail]

theorem answer_eq : c.answer n = c.remaining[n]? := by
  rw [answer, next_fst, remaining_after, List.head?_drop]

theorem length_after : (c.after n).length = c.remaining.length - n := by
  rw [length_eq, remaining_after, List.length_drop]

end Calls

/-! ## Items and members -/

theorem remaining_nothing : nothing.remaining = [] := remaining_of_none rfl

theorem remaining_items (i : Nat) (vs : List Value) :
    (items i vs).remaining = (vs.zipIdx i).map fun p => (.index p.2, p.1) := by
  induction vs generalizing i with
  | nil => exact remaining_of_none rfl
  | cons v vs ih =>
    have hnext : (items i (v :: vs)).next = (some (.index i, v), items (i + 1) vs) := rfl
    rw [remaining_of_next hnext, ih, List.zipIdx_cons, List.map_cons]

theorem remaining_members (ms : Members) : (members ms).remaining = ms.map fun p => (.key p.1, p.2) := by
  induction ms with
  | nil => exact remaining_of_none rfl
  | cons p ms ih =>
    obtain ⟨name, v⟩ := p
    have hnext : (members ((name, v) :: ms)).next = (some (.key name, v), members ms) := rfl
    rw [remaining_of_next hnext, ih, List.map_cons]

end Children

namespace Value

open Children

/-- The number of children: a scalar has none, whatever its size. -/
def childCount (v : Value) : Nat := if v.isContainer then v.size else 0

theorem length_remaining (v : Value) : v.children.remaining.length = v.childCount := by
  cases v with
  | array items => rw [children, remaining_items, List.length_map, List.length_zipIdx]; rfl
  | object ms => rw [children, remaining_members, List.length_map]; rfl
  | _ => exact congrArg List.length remaining_nothing

/-- The children of a value are what one step leads to. -/
theorem mem_remaining_iff {v : Value} (hv : v.WellFormed) (step : Component) (x : Value) :
    (step, x) ∈ v.children.remaining ↔ v.child? step = some x := by
  cases v with
  | array items =>
    rw [children, remaining_items, List.mem_map]
    constructor
    · rintro ⟨⟨y, i⟩, hmem, hpair⟩
      cases hpair
      exact List.mk_mem_zipIdx_iff_getElem?.1 hmem
    · intro h
      cases step with
      | key name => cases h
      | index i => exact ⟨(x, i), List.mk_mem_zipIdx_iff_getElem?.2 h, rfl⟩
  | object ms =>
    rw [children, remaining_members, List.mem_map]
    constructor
    · rintro ⟨⟨name, y⟩, hmem, hpair⟩
      cases hpair
      exact (Members.find?_eq_some_iff_mem hv.1 name y).2 hmem
    · intro h
      cases step with
      | index i => cases h
      | key name => exact ⟨(name, x), (Members.find?_eq_some_iff_mem hv.1 name x).1 h, rfl⟩
  | _ =>
    change (step, x) ∈ nothing.remaining ↔ none = some x
    rw [remaining_nothing]
    exact iff_of_false List.not_mem_nil nofun

/-- Children come in the order of their steps. -/
theorem pairwise_remaining {v : Value} (hv : v.WellFormed) :
    v.children.remaining.Pairwise fun p q => p.1.Before q.1 := by
  cases v with
  | array items =>
    have hindices : (items.zipIdx.map Prod.snd).Pairwise (· < ·) := by
      rw [List.zipIdx_map_snd]
      exact List.pairwise_lt_range'
    rw [List.pairwise_map] at hindices
    rw [children, remaining_items, List.pairwise_map]
    exact hindices
  | object ms =>
    rw [children, remaining_members, List.pairwise_map]
    exact (Members.ordered_iff_pairwise ms).1 hv.1
  | _ =>
    change nothing.remaining.Pairwise _
    rw [remaining_nothing]
    exact .nil

/-- Calls of `next` hand out what the steps from a value lead to, and nothing else; each child comes once, by
increasing index or increasing bytes of the name, and the values by themselves come in the same order.  After any
number of calls the length and both bounds are what is still to come, and there are no answers beyond the children. -/
theorem children_enumerated (v : OrderedValue) :
    (∀ n step x, v.val.children.answer n = some (step, x) → v.val.pointer? [step] = some x) ∧
    (∀ step x, v.val.pointer? [step] = some x → ∃! n, v.val.children.answer n = some (step, x)) ∧
    (∀ m n p q, m < n → v.val.children.answer m = some p → v.val.children.answer n = some q → p.1.Before q.1) ∧
    (∀ n, v.val.childValues[n]? = (v.val.children.answer n).map Prod.snd) ∧
    ∀ n, ((v.val.children.answer n).isSome ↔ n < v.val.childCount) ∧
      (v.val.children.after n).remaining.length = v.val.childCount - n ∧
      (v.val.children.after n).length = v.val.childCount - n ∧
      (v.val.children.after n).sizeHint = (v.val.childCount - n, some (v.val.childCount - n)) := by
  obtain ⟨v, hv⟩ := v
  dsimp only
  have hpointer (step : Component) (x : Value) :
      v.pointer? [step] = some x ↔ (step, x) ∈ v.children.remaining := by
    rw [mem_remaining_iff hv, pointer?]
    cases v.child? step <;> rfl
  have horder (m n : Nat) (p q : Component × Value) (hmn : m < n) (hp : v.children.answer m = some p)
      (hq : v.children.answer n = some q) : p.1.Before q.1 := by
    rw [answer_eq] at hp hq
    obtain ⟨hm, rfl⟩ := List.getElem?_eq_some_iff.1 hp
    obtain ⟨hn, rfl⟩ := List.getElem?_eq_some_iff.1 hq
    exact List.pairwise_iff_getElem.1 (pairwise_remaining hv) m n hm hn hmn
  refine ⟨?_, ?_, horder, ?_, ?_⟩
  · intro n step x h
    rw [answer_eq] at h
    exact (hpointer step x).2 (List.mem_of_getElem? h)
  · intro step x h
    obtain ⟨n, hn⟩ := List.mem_iff_getElem?.1 ((hpointer step x).1 h)
    rw [← answer_eq] at hn
    refine ⟨n, hn, ?_⟩
    intro m hm
    -- a child that came twice would come before itself
    rcases Nat.lt_trichotomy m n with hlt | rfl | hlt
    · exact absurd (horder m n _ _ hlt hm hn) step.not_before_self
    · rfl
    · exact absurd (horder n m _ _ hlt hn hm) step.not_before_self
  · intro n
    rw [childValues, collect_eq, List.getElem?_map, answer_eq]
  · intro n
    have hlength := length_after v.children n
    rw [length_remaining] at hlength
    refine ⟨?_, ?_, hlength, ?_⟩
    · rw [answer_eq, ← length_remaining]
      simp
    · rw [← length_eq, hlength]
    · rw [sizeHint_eq, hlength]

/-- Members that are null are handed out, and a short name that goes on comes before a longer one. -/
theorem children_enumerated_members :
    let v := object [("a", null), ("ab", uinteger 1), ("é", array [])]
    (∃! n, v.children.answer n = some (.key "a", null)) ∧ v.childValues[1]? = some (uinteger 1) ∧
      (v.children.after 2).sizeHint = (1, some 1) ∧ v.children.answer 3 = none := by
  intro v
  have hv : v.WellFormed := by
    refine ⟨⟨?_, ?_, ?_, trivial⟩, trivial, trivial, trivial, trivial⟩
    · simp only [List.mem_cons, List.not_mem_nil, or_false, forall_eq_or_imp, forall_eq]
      decide
    · simp only [List.mem_cons, List.not_mem_nil, or_false, forall_eq]
      decide
    · exact fun p hp => absurd hp List.not_mem_nil
  obtain ⟨-, honce, -, hvalues, hcount⟩ := children_enumerated ⟨v, hv⟩
  refine ⟨honce (.key "a") null rfl, ?_, (hcount 2).2.2.2, ?_⟩
  · rw [hvalues]
    rfl
  · exact Option.not_isSome_iff_eq_none.1 fun h => absurd ((hcount 3).1.1 h) (show ¬ 3 < v.childCount by decide)

end Value

end TableJson
