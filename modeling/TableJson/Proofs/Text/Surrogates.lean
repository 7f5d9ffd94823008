import TableJson.Proofs.Text.Utf16

/-!
# Surrogates — strict decoding, and what stands in its way

`strict?` reads units as `decode` does, but gives up at a surrogate that is not part of a pair.  Which surrogates those
are can be seen from their neighbours alone: `unpaired` looks one unit back and one unit ahead.

* `strict?_eq_some_iff`: strict decoding gives what `decode` gives, exactly if no surrogate is unpaired.
* `count_replacement_decode`: `decode` puts one U+FFFD for each unpaired surrogate, and no other that is not spelled.
-/

namespace TableJson.Text.Utf16

/-- The characters that units spell, if each surrogate is part of a pair. -/
def strict? : List Nat → Option (List Char)
  | [] => some []
  | [u] => if isSurrogate u then none else some [Char.ofNat u]
  | u :: v :: us =>
    if isHighSurrogate u && isLowSurrogate v then (strict? us).map (pairChar u v :: ·)
    else if isSurrogate u then none
    else (strict? (v :: us)).map (Char.ofNat u :: ·)

/-- The surrogates that make a pair with no neighbour, in units that stand after `before`: high ones with no low one
after them and low ones with no high one before them. -/
def unpairedAfter (before : Option Nat) : List Nat → List Nat
  | [] => []
  | u :: us =>
    if isHighSurrogate u && !us.head?.any isLowSurrogate || isLowSurrogate u && !before.any isHighSurrogate then
      u :: unpairedAfter (some u) us
    else unpairedAfter (some u) us

/-- The surrogates that make a pair with no neighbour. -/
def unpaired (us : List Nat) : List Nat := unpairedAfter none us

/-! ## Neighbours -/

section Neighbours

variable {u v : Nat} {us : List Nat}

theorem not_isLowSurrogate_of_high (h : isHighSurrogate u = true) : isLowSurrogate u = false := by
  simp only [isHighSurrogate, isLowSurrogate, decide_eq_true_eq, decide_eq_false_iff_not] at h ⊢
  omega

theorem any_head?_iff : us.head?.any isLowSurrogate = true ↔ StartsLow us := by
  cases us with
  | nil =>
    constructor
    · intro h
      cases h
    · rintro ⟨u, rest, he, -⟩
      cases he
  | cons v us =>
    constructor
    · intro h
      exact ⟨v, us, rfl, h⟩
    · rintro ⟨u, rest, he, hu⟩
      obtain ⟨rfl, rfl⟩ := List.cons.inj he
      exact hu

/-- What stands before units makes a difference only to a high surrogate before a low one. -/
theorem unpairedAfter_some (h : isHighSurrogate u = true → ¬ StartsLow us) : unpairedAfter (some u) us = unpaired us := by
  cases us with
  | nil => rfl
  | cons v us =>
    rw [unpaired, unpairedAfter, unpairedAfter]
    by_cases hv : isLowSurrogate v = true
    · have hu : isHighSurrogate u = false := Bool.eq_false_iff.2 fun hu => h hu ⟨v, us, rfl, hv⟩
      simp [hu]
    · rw [Bool.not_eq_true] at hv
      simp [hv]

/-- A unit that pairs with nothing after it is unpaired exactly if it is a surrogate. -/
theorem unpaired_cons (h : isHighSurrogate u = true → ¬ StartsLow us) :
    unpaired (u :: us) = if isSurrogate u then u :: unpaired us else unpaired us := by
  rw [unpaired, unpairedAfter, unpairedAfter_some h, isSurrogate]
  by_cases hhigh : isHighSurrogate u = true
  · have hnext : us.head?.any isLowSurrogate = false := Bool.eq_false_iff.2 fun hnext => h hhigh (any_head?_iff.1 hnext)
    simp [hhigh, hnext]
  · rw [Bool.not_eq_true] at hhigh
    simp [hhigh]

theorem unpaired_pair (hu : isHighSurrogate u = true) (hv : isLowSurrogate v = true) :
    unpaired (u :: v :: us) = unpaired us := by
  have hlow : isLowSurrogate u = false := not_isLowSurrogate_of_high hu
  have hhigh : isHighSurrogate v = false := by
    refine Bool.eq_false_iff.2 fun hhigh => ?_
    rw [not_isLowSurrogate_of_high hhigh] at hv
    cases hv
  rw [unpaired, unpairedAfter, unpairedAfter, unpairedAfter_some fun h => absurd h (by simp [hhigh])]
  simp [hu, hv, hlow, hhigh]

theorem strict?_cons (h : isHighSurrogate u = true → ¬ StartsLow us) :
    strict? (u :: us) = if isSurrogate u then none else (strict? us).map (Char.ofNat u :: ·) := by
  cases us with
  | nil => rfl
  | cons v us =>
    have hf : ¬ (isHighSurrogate u && isLowSurrogate v) = true := by
      rw [Bool.and_eq_true]
      exact fun hb => h hb.1 ⟨v, us, rfl, hb.2⟩
    rw [strict?, if_neg hf]

theorem strict?_pair (hu : isHighSurrogate u = true) (hv : isLowSurrogate v = true) :
    strict? (u :: v :: us) = (strict? us).map (pairChar u v :: ·) := by
  simp [strict?, hu, hv]

end Neighbours

/-! ## All units -/

/-- Units are read one after another, a pair of surrogates at once. -/
theorem units_induction {motive : List Nat → Prop} (nil : motive [])
    (cons : ∀ u us, (isHighSurrogate u = true → ¬ StartsLow us) → motive us → motive (u :: us))
    (pair : ∀ u v us, isHighSurrogate u = true → isLowSurrogate v = true → motive us → motive (u :: v :: us))
    (us : List Nat) : motive us := by
  induction us using decode.induct with
  | case1 => exact nil
  | case2 u =>
    refine cons u [] (fun _ => ?_) nil
    rintro ⟨v, rest, he, -⟩
    cases he
  | case3 u v us h ih =>
    rw [Bool.and_eq_true] at h
    exact pair u v us h.1 h.2 ih
  | case4 u v us h ih =>
    refine cons u (v :: us) (fun hu => ?_) ih
    rintro ⟨w, rest, he, hw⟩
    obtain ⟨rfl, -⟩ := List.cons.inj he
    exact h (Bool.and_eq_true .. ▸ ⟨hu, hw⟩)

theorem paired_iff_unpaired (us : List Nat) : Paired us ↔ unpaired us = [] := by
  induction us using units_induction with
  | nil => exact ⟨fun _ => rfl, fun _ => trivial⟩
  | cons u us h ih =>
    rw [paired_cons h, unpaired_cons h, ih]
    cases isSurrogate u <;> simp
  | pair u v us hu hv ih => rw [paired_pair hu hv, unpaired_pair hu hv, ih]

/-- Strict decoding gives what decoding gives, where no surrogate is unpaired, and otherwise nothing. -/
theorem strict?_eq_some_iff (us : List Nat) (cs : List Char) :
    strict? us = some cs ↔ Paired us ∧ cs = decode us := by
  induction us using units_induction generalizing cs with
  | nil =>
    rw [strict?, Option.some_inj, eq_comm]
    exact ⟨fun h => ⟨trivial, h⟩, fun h => h.2⟩
  | cons u us h ih =>
    rw [strict?_cons h, paired_cons h, decode_cons h, single]
    cases isSurrogate u with
    | true => simp
    | false =>
      simp only [Bool.false_eq_true, if_false, Option.map_eq_some_iff, ih, true_and]
      constructor
      · rintro ⟨ds, ⟨hpaired, rfl⟩, rfl⟩
        exact ⟨hpaired, rfl⟩
      · rintro ⟨hpaired, rfl⟩
        exact ⟨_, ⟨hpaired, rfl⟩, rfl⟩
  | pair u v us hu hv ih =>
    rw [strict?_pair hu hv, paired_pair hu hv, decode_pair hu hv]
    simp only [Option.map_eq_some_iff, ih]
    constructor
    · rintro ⟨ds, ⟨hpaired, rfl⟩, rfl⟩
      exact ⟨hpaired, rfl⟩
    · rintro ⟨hpaired, rfl⟩
      exact ⟨_, ⟨hpaired, rfl⟩, rfl⟩

/-! ## The replacement character -/

theorem ofNat_eq_replacement_iff {u : Nat} : Char.ofNat u = '\uFFFD' ↔ u = 0xFFFD := by
  constructor
  · intro h
    by_cases hvalid : u.isValidChar
    · have htoNat : (Char.ofNat u).toNat = u := by
        rw [Char.ofNat, dif_pos hvalid]
        rfl
      rw [← htoNat, h]
      rfl
    · rw [Char.ofNat, dif_neg hvalid] at h
      exact absurd h (by decide)
  · rintro rfl
    rfl

/-- A pair spells a character beyond U+FFFF. -/
theorem pairChar_ne_replacement (u v : Nat) : pairChar u v ≠ '\uFFFD' := by
  rw [pairChar, Ne, ofNat_eq_replacement_iff]
  omega

/-- One U+FFFD comes of each unpaired surrogate, and all others were spelled. -/
theorem count_replacement_decode (us : List Nat) :
    (decode us).count '\uFFFD' = us.count 0xFFFD + (unpaired us).length := by
  induction us using units_induction with
  | nil => rfl
  | cons u us h ih =>
    rw [decode_cons h, unpaired_cons h, List.count_cons, List.count_cons, ih, single]
    cases hsurrogate : isSurrogate u with
    | true =>
      have hu : u ≠ 0xFFFD := by
        rintro rfl
        cases hsurrogate
      simp [hu]
      omega
    | false =>
      simp only [Bool.false_eq_true, if_false, beq_iff_eq, ofNat_eq_replacement_iff]
      omega
  | pair u v us hu hv ih =>
    have hhigh : u ≠ 0xFFFD := by
      rintro rfl
      cases hu
    have hlow : v ≠ 0xFFFD := by
      rintro rfl
      cases hv
    rw [decode_pair hu hv, unpaired_pair hu hv, List.count_cons_of_ne (pairChar_ne_replacement u v),
      List.count_cons_of_ne hhigh, List.count_cons_of_ne hlow, ih]

end TableJson.Text.Utf16
