import Mathlib.Data.Rat.Floor
import TableJson.Convert
import TableJson.Proofs.Number.Comparing

/-!
# Truncating — which reals become integers

A real becomes the integer that is left of it without its fraction.  Whether there is one is decided before the fraction
is dropped: the real may lie beyond the greatest integer of a width by a fraction, but not below the least one
(`fetch_real`).  The bounds are those of the integers even where a machine rounds them to reals before it compares
(`rounded_bounds`).
-/

namespace TableJson

open Number

namespace Number

/-- The number that a finite pattern stands for. -/
def Binary.toRat {f : Format} (x : Binary f) : ℚ := if x.negative then -f.value x.magnitude else f.value x.magnitude

/-- A number without its fraction. -/
def truncate (q : ℚ) : ℤ := if 0 ≤ q then ⌊q⌋ else ⌈q⌉

/-! ## Truncation -/

theorem tdiv_eq_truncate (n : ℤ) {d : ℕ} (hd : 0 < d) : n.tdiv d = truncate (n / d) := by
  have hd' : (0 : ℚ) < d := by exact_mod_cast hd
  unfold truncate
  rcases Int.le_total 0 n with hn | hn
  · have hquotient : (0 : ℚ) ≤ n / d := div_nonneg (by exact_mod_cast hn) hd'.le
    rw [if_pos hquotient, Rat.floor_intCast_div_natCast, Int.tdiv_eq_ediv_of_nonneg hn]
  · rcases hn.lt_or_eq with hn | rfl
    · have hquotient : (n : ℚ) / d < 0 := div_neg_of_neg_of_pos (by exact_mod_cast hn) hd'
      have hceil : ⌈(n : ℚ) / d⌉ = -⌊((-n : ℤ) : ℚ) / d⌋ := by
        rw [← Int.ceil_neg, Int.cast_neg, neg_div, neg_neg]
      rw [if_neg (not_le.2 hquotient), hceil, Rat.floor_intCast_div_natCast,
        ← Int.tdiv_eq_ediv_of_nonneg (by omega), Int.neg_tdiv, neg_neg]
    · simp

theorem le_truncate {l : ℤ} {q : ℚ} (h : (l : ℚ) ≤ q) : l ≤ truncate q := by
  unfold truncate
  split
  · exact Int.le_floor.2 h
  · have := h.trans (Int.le_ceil q)
    exact_mod_cast this

/-- The fraction beyond an integer that is not negative is dropped. -/
theorem truncate_le_iff {g : ℤ} (hg : 0 ≤ g) (q : ℚ) : truncate q ≤ g ↔ q < g + 1 := by
  unfold truncate
  split
  · exact Int.floor_le_iff
  · rename_i hq
    have hg' : (0 : ℚ) ≤ g := by exact_mod_cast hg
    have hceil : ⌈q⌉ ≤ 0 := Int.ceil_le.2 (by push_cast; linarith)
    exact ⟨fun _ => by linarith, fun _ => hceil.trans hg⟩

theorem truncate_intCast (n : ℤ) : truncate n = n := by
  unfold truncate
  split <;> simp

/-! ## Patterns -/

section Binary

variable {f : Format} {x : Binary f}

theorem denotation_of_isFinite (h : x.isFinite = true) :
    x.denotation = .finite x.negative (f.scaled x.magnitude).1 (f.scaled x.magnitude).2 := by
  rw [Binary.denotation, if_pos (of_decide_eq_true h)]

/-- The number of a pattern, as a quotient of integers. -/
theorem toRat_eq_div {m : ℕ} {e : ℤ} (h : f.scaled x.magnitude = (m, e)) :
    x.toRat = ((if x.negative = true then -((m : ℤ) * 2 ^ e.toNat) else m * 2 ^ e.toNat : ℤ) : ℚ) /
      (2 ^ (-e).toNat : ℕ) := by
  rw [Binary.toRat, Format.value, h, zpow_eq_div]
  split <;> push_cast <;> ring

end Binary

/-! ## Integers as reals -/

/-- The real that an integer is rounded to. -/
structure Rounded (z : ℤ) (x : Binary64) : Prop where
  nearest : Format.binary64.IsNearest x.magnitude |(z : ℚ)|
  signed : x.negative = decide (z < 0)

theorem rounded_ofInt (z : ℤ) : Rounded z (.ofInt z) := by
  have hnear := Format.nearest_isNearest (f := .binary64) (by decide) z.natAbs one_pos
  rw [Nat.cast_one, div_one, Nat.cast_natAbs, Int.cast_abs] at hnear
  have hlt : Format.binary64.infinity < Format.binary64.signBit := by decide
  obtain ⟨hsign, hmagnitude⟩ := parts_signed (by decide) (hnear.le.trans_lt hlt) (decide (z < 0))
  rw [← hmagnitude] at hnear
  exact ⟨hnear, hsign⟩

section Rounded

variable {z : ℤ} {x : Binary64}

theorem Rounded.above (h : Rounded z x) (hz : 0 ≤ z) :
    Format.binary64.IsNearest x.magnitude z ∧ x.toRat = Format.binary64.value x.magnitude := by
  have hsign := h.signed.trans (decide_eq_false (not_lt.2 hz))
  refine ⟨?_, by rw [Binary.toRat, hsign, if_neg Bool.false_ne_true]⟩
  have := h.nearest
  rwa [abs_of_nonneg (Int.cast_nonneg hz)] at this

theorem Rounded.below (h : Rounded z x) (hz : z < 0) :
    Format.binary64.IsNearest x.magnitude (-z : ℤ) ∧ x.toRat = -Format.binary64.value x.magnitude := by
  have hsign := h.signed.trans (decide_eq_true hz)
  refine ⟨?_, by rw [Binary.toRat, hsign, if_pos rfl]⟩
  have := h.nearest
  rwa [abs_of_neg (Int.cast_lt_zero.2 hz), ← Int.cast_neg] at this

/-- Integers of up to 53 bits are reals, and so are they times powers of two. -/
theorem Rounded.eq_of_exact (h : Rounded z x) {m i : ℕ} (hm : m < 2 ^ 53) (hi : i ≤ 900) (hz : z.natAbs = m * 2 ^ i) :
    x.toRat = z := by
  obtain ⟨c, hc, hvalue⟩ := Format.exists_value hm hi
  have hcast : Format.binary64.value c = |(z : ℚ)| := by
    rw [hvalue, ← Int.cast_abs, ← Nat.cast_natAbs, hz]
    push_cast
    rfl
  rw [Binary.toRat, h.signed, h.nearest.eq_of_value hc.le hcast, hcast]
  simp only [decide_eq_true_eq]
  split
  · rename_i hneg
    rw [abs_of_neg (Int.cast_lt_zero.2 hneg), neg_neg]
  · rename_i hpos
    rw [abs_of_nonneg (Int.cast_nonneg (not_lt.1 hpos))]

end Rounded

end Number

/-! ## Integers of a width -/

namespace SizedInt

variable {w : IntWidth} {x : Binary64} {i : SizedInt w}

theorem ext_val {j : SizedInt w} (h : i.val = j.val) : i = j := by
  cases i
  cases j
  cases h
  rfl

theorem ofInt?_eq_some_iff {n : ℤ} : ofInt? n = some i ↔ i.val = n := by
  unfold ofInt?
  split
  · rw [Option.some_inj]
    exact ⟨fun h => h ▸ rfl, fun h => ext_val h.symm⟩
  · rename_i hn
    exact ⟨fun h => by simp at h, fun h => absurd ⟨h ▸ i.least_le, h ▸ i.le_greatest⟩ hn⟩

/-- A real has an integer of a width if it is finite, not below the least one, and less than one above the greatest. -/
theorem ofReal?_eq (w : IntWidth) (x : Binary64) :
    (ofReal? x : Option (SizedInt w)) =
      if x.isFinite = true ∧ (w.least : ℚ) ≤ x.toRat ∧ x.toRat < w.greatest + 1 then ofInt? (truncate x.toRat)
      else none := by
  by_cases hfinite : x.isFinite = true
  · rcases hscaled : Format.binary64.scaled x.magnitude with ⟨m, e⟩
    have hden := denotation_of_isFinite hfinite
    rw [hscaled] at hden
    have hquotient := toRat_eq_div hscaled
    have hd : 0 < 2 ^ (-e).toNat := Nat.two_pow_pos _
    rw [ofReal?, hden]
    dsimp only
    generalize (if x.negative = true then -((m : ℤ) * 2 ^ e.toNat) else m * 2 ^ e.toNat : ℤ) = n at hquotient ⊢
    have hcast : (2 : ℤ) ^ (-e).toNat = (2 ^ (-e).toNat : ℕ) := by push_cast; rfl
    rw [hcast]
    generalize 2 ^ (-e).toNat = d at hquotient hd ⊢
    -- the bounds are compared with the numerator over the same denominator
    have hd' : (0 : ℚ) < d := by exact_mod_cast hd
    have hlow : w.least * d ≤ n ↔ (w.least : ℚ) ≤ x.toRat := by
      rw [hquotient, le_div_iff₀ hd']
      exact_mod_cast Iff.rfl
    have hhigh : n < (w.greatest + 1) * d ↔ x.toRat < w.greatest + 1 := by
      rw [hquotient, div_lt_iff₀ hd']
      exact_mod_cast Iff.rfl
    rw [tdiv_eq_truncate n hd, ← hquotient]
    simp only [hlow, hhigh, hfinite, true_and]
  · have hnone : (ofReal? x : Option (SizedInt w)) = none := by
      have hlarge : ¬ x.magnitude < Format.binary64.infinity := fun h => hfinite (decide_eq_true h)
      by_cases hinfinite : x.magnitude = Format.binary64.infinity
      · rw [ofReal?, Binary.denotation, if_neg hlarge, if_pos hinfinite]
      · rw [ofReal?, Binary.denotation, if_neg hlarge, if_neg hinfinite]
    rw [hnone, if_neg fun h => hfinite h.1]

theorem ofReal?_eq_none_of_lt (h : x.toRat < w.least) : (ofReal? x : Option (SizedInt w)) = none := by
  rw [ofReal?_eq, if_neg fun hfits => not_le.2 h hfits.2.1]

theorem ofReal?_eq_none_of_le (h : (w.greatest : ℚ) + 1 ≤ x.toRat) : (ofReal? x : Option (SizedInt w)) = none := by
  rw [ofReal?_eq, if_neg fun hfits => not_lt.2 h hfits.2.2]

/-- Which integer a real becomes, and when. -/
theorem ofReal?_eq_some_iff : ofReal? x = some i ↔
    x.isFinite = true ∧ (w.least : ℚ) ≤ x.toRat ∧ truncate x.toRat ≤ w.greatest ∧ i.val = truncate x.toRat := by
  rw [ofReal?_eq, Option.ite_none_right_eq_some, ofInt?_eq_some_iff, truncate_le_iff w.zero_le_greatest, and_assoc,
    and_assoc]

end SizedInt

/-! ## Bounds -/

namespace IntWidth

/-- The widths of machine integers; those of pointers are 64 bits wide. -/
def machine : List IntWidth :=
  [⟨true, 8⟩, ⟨true, 16⟩, ⟨true, 32⟩, ⟨true, 64⟩, ⟨false, 8⟩, ⟨false, 16⟩, ⟨false, 32⟩, ⟨false, 64⟩]

theorem greatest_succ (w : IntWidth) : ∃ k ≤ w.bits, w.greatest + 1 = 2 ^ k := by
  unfold greatest
  split
  · exact ⟨w.bits - 1, by omega, Int.sub_add_cancel ..⟩
  · exact ⟨w.bits, le_refl _, Int.sub_add_cancel ..⟩

variable {w : IntWidth}

theorem toRat_least (hbits : w.bits ≤ 64) : (Binary.ofInt w.least : Binary64).toRat = w.least := by
  unfold least
  split
  · refine (rounded_ofInt _).eq_of_exact (m := 1) (i := w.bits - 1) (by norm_num) (by omega) ?_
    rw [Int.natAbs_neg, Int.natAbs_pow, one_mul]
    rfl
  · exact (rounded_ofInt _).eq_of_exact (m := 0) (i := 0) (by norm_num) (by omega) rfl

theorem toRat_greatest_succ (hbits : w.bits ≤ 64) :
    (Binary.ofInt (w.greatest + 1) : Binary64).toRat = w.greatest + 1 := by
  obtain ⟨k, hk, hpow⟩ := w.greatest_succ
  have hexact := (rounded_ofInt (w.greatest + 1)).eq_of_exact (m := 1) (i := k) (by norm_num) (by omega) (by
    rw [hpow, Int.natAbs_pow, one_mul]
    rfl)
  rw [hexact]
  push_cast
  rfl

/-- The greatest integer is a real, or it is rounded up to the power of two, and one more is rounded back to it. -/
theorem greatest_or_rounded (h : w ∈ machine) : w.bits ≤ 64 ∧ (w.greatest < 2 ^ 53 ∨
    (Binary.ofInt w.greatest : Binary64) = .ofInt (w.greatest + 1) ∧
      (Binary.ofInt (w.greatest + 1 + 1) : Binary64) = .ofInt (w.greatest + 1)) := by
  have hall : ∀ w ∈ machine, w.bits ≤ 64 ∧ (w.greatest < 2 ^ 53 ∨
      (Binary.ofInt w.greatest : Binary64) = .ofInt (w.greatest + 1) ∧
        (Binary.ofInt (w.greatest + 1 + 1) : Binary64) = .ofInt (w.greatest + 1)) := by decide +kernel
  exact hall w h

/-- The least integer and one more than the greatest are what a machine finds for them with rounding. -/
theorem rounded_bounds (h : w ∈ machine) : (Binary.ofInt w.least : Binary64).toRat = w.least ∧
    ∃ g : ℤ, (Binary.ofInt w.greatest : Binary64).toRat = g ∧
      (Binary.ofInt (g + 1) : Binary64).toRat = w.greatest + 1 := by
  obtain ⟨hbits, hgreatest⟩ := greatest_or_rounded h
  refine ⟨toRat_least hbits, ?_⟩
  rcases hgreatest with hexact | ⟨hup, hback⟩
  · have hzero := w.zero_le_greatest
    exact ⟨w.greatest, (rounded_ofInt _).eq_of_exact (m := w.greatest.natAbs) (i := 0) (by omega) (by omega) (by simp),
      toRat_greatest_succ hbits⟩
  · refine ⟨w.greatest + 1, ?_, ?_⟩
    · rw [hup, toRat_greatest_succ hbits]
      push_cast
      rfl
    · rw [hback, toRat_greatest_succ hbits]

end IntWidth

namespace Value

/-- A real becomes the integer left of it if it is finite, not below the least integer of the width, and the integer
is not above the greatest one. -/
theorem fetch_real (w : IntWidth) (x : Binary64) : (Value.real x).fetch (SizedInt w) =
    if h : x.isFinite = true ∧ (w.least : ℚ) ≤ x.toRat ∧ truncate x.toRat ≤ w.greatest then
      some ⟨truncate x.toRat, le_truncate h.2.1, h.2.2⟩
    else none := by
  change SizedInt.ofReal? x = _
  split
  · rename_i h
    exact SizedInt.ofReal?_eq_some_iff.2 ⟨h.1, h.2.1, h.2.2, rfl⟩
  · rename_i h
    refine Option.eq_none_iff_forall_ne_some.2 fun i hi => h ?_
    obtain ⟨hfinite, hleast, hgreatest, -⟩ := SizedInt.ofReal?_eq_some_iff.1 hi
    exact ⟨hfinite, hleast, hgreatest⟩

/-- -128.5 becomes no integer of eight bits, although -128 is left of it. -/
theorem fetch_real_below : (Value.real (.ofNat 0xc060100000000000)).fetch (SizedInt ⟨true, 8⟩) = none ∧
    (Binary.ofNat 0xc060100000000000 : Binary64).isFinite = true ∧
    truncate (Binary.ofNat 0xc060100000000000 : Binary64).toRat = IntWidth.least ⟨true, 8⟩ ∧
    IntWidth.least ⟨true, 8⟩ ≤ IntWidth.greatest ⟨true, 8⟩ := by
  have hscaled : Format.binary64.scaled (Binary.ofNat 0xc060100000000000 : Binary64).magnitude =
      (2 ^ 52 + 2 ^ 44, -45) := by decide
  have hvalue : (Binary.ofNat 0xc060100000000000 : Binary64).toRat = (-257 : ℤ) / (2 : ℕ) := by
    rw [toRat_eq_div hscaled, if_pos (by decide), show (-45 : ℤ).toNat = 0 from rfl,
      show (-(-45) : ℤ).toNat = 45 from rfl]
    norm_num
  refine ⟨by decide +kernel, by decide, ?_, by decide⟩
  rw [hvalue, ← tdiv_eq_truncate _ (by decide)]
  decide

end Value

end TableJson
