import Mathlib.Algebra.Order.Field.Power
import Mathlib.Data.Rat.Cast.Order
import Mathlib.Tactic.FieldSimp
import Mathlib.Tactic.Linarith
import Mathlib.Tactic.Positivity
import Mathlib.Tactic.Ring
import TableJson.Number.Shortest

/-!
# Rounding — which numbers round to a magnitude

The numbers that round to a magnitude `m * 2 ^ e` form an interval around it, the window that `Window.of` describes:
half a unit to both sides, or a quarter below where the numbers below lie twice as close.  Everything in the window of
a magnitude rounds to it (`nearest_of_near`).

The proof is about rational numbers: `placeFor_spec` says where the last place of a quotient lies, `halfEven_eq` which
integer is nearest.
-/

namespace TableJson.Number

/-! ## Powers of two and quotients -/

theorem zpow_eq_div (b : ℚ) (e : ℤ) : b ^ e = b ^ e.toNat / b ^ (-e).toNat := by
  obtain ⟨k, rfl | rfl⟩ := e.eq_nat_or_neg
  · simp
  · simp [zpow_neg]

theorem unscale_div (n d : ℕ) (e : ℤ) : ((unscale n d e).1 : ℚ) / (unscale n d e).2 = n / d / 2 ^ e := by
  rw [zpow_eq_div 2 e, unscale]
  push_cast
  field_simp

theorem unscale_pos {d : ℕ} (hd : 0 < d) (n : ℕ) (e : ℤ) : 0 < (unscale n d e).2 :=
  Nat.mul_pos hd (Nat.two_pow_pos _)

/-- The integer is at most a half away, and even if it is a half away. -/
theorem halfEven_spec {n d : ℕ} (hd : 0 < d) :
    |(halfEven n d : ℚ) - n / d| ≤ 1 / 2 ∧ (|(halfEven n d : ℚ) - n / d| = 1 / 2 → halfEven n d % 2 = 0) := by
  have hd' : (0 : ℚ) < d := by exact_mod_cast hd
  have hquotient : (n : ℚ) / d = (n / d : ℕ) + (n % d : ℕ) / (d : ℚ) := by
    have hsum : (d : ℚ) * (n / d : ℕ) + (n % d : ℕ) = n := by exact_mod_cast Nat.div_add_mod n d
    rw [← hsum, add_div, mul_div_cancel_left₀ _ hd'.ne']
  have hless (r : ℕ) : 2 * r < d ↔ (r : ℚ) / d < 1 / 2 := by
    rw [div_lt_div_iff₀ hd' two_pos, one_mul, mul_comm]
    exact_mod_cast Iff.rfl
  have hmore (r : ℕ) : d < 2 * r ↔ 1 / 2 < (r : ℚ) / d := by
    rw [div_lt_div_iff₀ two_pos hd', one_mul, mul_comm]
    exact_mod_cast Iff.rfl
  have hone : ((n % d : ℕ) : ℚ) / d < 1 := (div_lt_one hd').2 (by exact_mod_cast Nat.mod_lt n hd)
  have hzero : 0 ≤ ((n % d : ℕ) : ℚ) / d := by positivity
  rw [hquotient]
  unfold halfEven
  dsimp only
  split_ifs with hlow hhigh
  · rw [hless] at hlow
    rw [sub_add_cancel_left, abs_neg, abs_of_nonneg hzero]
    exact ⟨hlow.le, fun heq => absurd heq hlow.ne⟩
  · rw [hmore] at hhigh
    rw [Nat.cast_succ, add_sub_add_left_eq_sub, abs_of_pos (by linarith)]
    exact ⟨by linarith, fun heq => by linarith⟩
  · rw [hless] at hlow
    rw [hmore] at hhigh
    have hhalf : ((n % d : ℕ) : ℚ) / d = 1 / 2 := le_antisymm (not_lt.1 hhigh) (not_lt.1 hlow)
    rw [hhalf, Nat.cast_add, add_sub_add_left_eq_sub]
    rcases Nat.mod_two_eq_zero_or_one (n / d) with hq | hq
    · rw [hq, Nat.cast_zero, zero_sub, abs_neg, abs_of_pos (by norm_num)]
      exact ⟨le_refl _, fun _ => hq⟩
    · rw [hq, Nat.cast_one, abs_of_pos (by norm_num)]
      exact ⟨by norm_num, fun _ => by omega⟩

/-- The integer nearest to a quotient, the even one at a half. -/
theorem halfEven_eq {n d k : ℕ} (hd : 0 < d) (hlow : (k : ℚ) - 1 / 2 ≤ n / d) (hhigh : (n : ℚ) / d ≤ k + 1 / 2)
    (htie : (k : ℚ) - 1 / 2 = n / d ∨ (n : ℚ) / d = k + 1 / 2 → k % 2 = 0) : halfEven n d = k := by
  obtain ⟨hhalf, heven⟩ := halfEven_spec (n := n) hd
  generalize halfEven n d = h at hhalf heven
  obtain ⟨hbelow, habove⟩ := abs_le.1 hhalf
  by_contra hne
  -- two integers that are not the same are one apart, with the quotient in the middle, and cannot both be even
  rcases Nat.lt_or_gt_of_ne hne with hlt | hgt
  · have hle : (h : ℚ) + 1 ≤ k := by exact_mod_cast hlt
    have hk : k % 2 = 0 := htie (Or.inl (by linarith))
    have hh : h % 2 = 0 := heven (by rw [abs_of_neg (by linarith)]; linarith)
    have hone : (k : ℚ) = h + 1 := by linarith
    have hone : k = h + 1 := by exact_mod_cast hone
    omega
  · have hle : (k : ℚ) + 1 ≤ h := by exact_mod_cast hgt
    have hk : k % 2 = 0 := htie (Or.inr (by linarith))
    have hh : h % 2 = 0 := heven (by rw [abs_of_pos (by linarith)]; linarith)
    have hone : (h : ℚ) = k + 1 := by linarith
    have hone : h = k + 1 := by exact_mod_cast hone
    omega

/-! ## The last place -/

namespace Format

variable (f : Format)

theorem two_zpow_sub (i j : ℕ) : (2 : ℚ) ^ ((i : ℤ) - j) = 2 ^ i / 2 ^ j := by
  rw [zpow_sub₀ two_ne_zero, zpow_natCast, zpow_natCast]

/-- A quotient lies between powers of two given by the sizes of its parts. -/
theorem quotient_bounds {n d : ℕ} (hn : 0 < n) (hd : 0 < d) :
    (2 : ℚ) ^ ((Nat.log2 n : ℤ) - Nat.log2 d - 1) < n / d ∧ (n : ℚ) / d < 2 ^ ((Nat.log2 n : ℤ) - Nat.log2 d + 1) := by
  have hd' : (0 : ℚ) < d := by exact_mod_cast hd
  have hn₁ : (2 : ℚ) ^ Nat.log2 n ≤ n := by exact_mod_cast Nat.log2_self_le hn.ne'
  have hn₂ : (n : ℚ) < 2 ^ (Nat.log2 n + 1) := by exact_mod_cast Nat.lt_log2_self
  have hd₁ : (2 : ℚ) ^ Nat.log2 d ≤ d := by exact_mod_cast Nat.log2_self_le hd.ne'
  have hd₂ : (d : ℚ) < 2 ^ (Nat.log2 d + 1) := by exact_mod_cast Nat.lt_log2_self
  constructor
  · rw [show (Nat.log2 n : ℤ) - Nat.log2 d - 1 = (Nat.log2 n : ℤ) - (Nat.log2 d + 1 : ℕ) by push_cast; ring,
      two_zpow_sub, div_lt_div_iff₀ (by positivity) hd']
    nlinarith [pow_pos (two_pos : (0 : ℚ) < 2) (Nat.log2 n)]
  · rw [show (Nat.log2 n : ℤ) - Nat.log2 d + 1 = (Nat.log2 n + 1 : ℕ) - (Nat.log2 d : ℤ) by push_cast; ring,
      two_zpow_sub, div_lt_div_iff₀ hd' (by positivity)]
    nlinarith [pow_pos (two_pos : (0 : ℚ) < 2) (Nat.log2 d), pow_pos (two_pos : (0 : ℚ) < 2) (Nat.log2 n + 1)]

/-- The last place leaves a quotient `precision` bits, and no fewer unless it is the smallest place. -/
theorem placeFor_spec {n d : ℕ} (hn : 0 < n) (hd : 0 < d) :
    f.minExp ≤ f.placeFor n d ∧ (n : ℚ) / d < 2 ^ (f.placeFor n d + f.precision) ∧
      (f.placeFor n d = f.minExp ∨ (2 : ℚ) ^ (f.placeFor n d + f.precision - 1) ≤ n / d) := by
  obtain ⟨hlow, hhigh⟩ := quotient_bounds hn hd
  set guess : ℤ := (Nat.log2 n : ℤ) - Nat.log2 d - f.precision with hguess
  have htest : 2 ^ f.precision * (unscale n d guess).2 ≤ (unscale n d guess).1 ↔
      (2 : ℚ) ^ (guess + f.precision) ≤ n / d := by
    have hpos : (0 : ℚ) < (unscale n d guess).2 := by exact_mod_cast unscale_pos hd n guess
    have hcast : 2 ^ f.precision * (unscale n d guess).2 ≤ (unscale n d guess).1 ↔
        (2 : ℚ) ^ f.precision ≤ (unscale n d guess).1 / (unscale n d guess).2 := by
      rw [le_div_iff₀ hpos]
      exact_mod_cast Iff.rfl
    rw [hcast, unscale_div, le_div_iff₀ (by positivity), add_comm, zpow_add₀ two_ne_zero, zpow_natCast]
  -- the exact place, before it is cut off at the smallest one
  obtain ⟨g, hg, hg₁, hg₂⟩ : ∃ g : ℤ, f.placeFor n d = max f.minExp g ∧ (n : ℚ) / d < 2 ^ (g + f.precision) ∧
      (2 : ℚ) ^ (g + f.precision - 1) ≤ n / d := by
    by_cases h : 2 ^ f.precision * (unscale n d guess).2 ≤ (unscale n d guess).1
    · refine ⟨guess + 1, ?_, ?_, ?_⟩
      · rw [placeFor]
        simp only [← hguess, if_pos h]
      · rwa [show guess + 1 + f.precision = (Nat.log2 n : ℤ) - Nat.log2 d + 1 by rw [hguess]; ring]
      · rw [show guess + 1 + f.precision - 1 = guess + f.precision by ring]
        exact htest.1 h
    · refine ⟨guess, ?_, ?_, ?_⟩
      · rw [placeFor]
        simp only [← hguess, if_neg h]
      · exact not_le.1 fun hle => h (htest.2 hle)
      · rw [show guess + f.precision - 1 = (Nat.log2 n : ℤ) - Nat.log2 d - 1 by rw [hguess]; ring]
        exact hlow.le
  rw [hg]
  refine ⟨le_max_left _ _, hg₁.trans_le (zpow_le_zpow_right₀ one_le_two (by omega)), ?_⟩
  rcases le_total g f.minExp with h | h
  · exact Or.inl (max_eq_left h)
  · rw [max_eq_right h]
    exact Or.inr hg₂

/-! ## Magnitudes -/

section Scaled

variable {f} {b : ℕ}

/-- A magnitude from the integer and the exponent that it stands for. -/
theorem scaled_spec {m : ℕ} {e : ℤ} (h : f.scaled b = (m, e)) :
    f.minExp ≤ e ∧ m < 2 * f.fractionLimit ∧ (e = f.minExp ∨ f.fractionLimit ≤ m) ∧
      b = (e - f.minExp).toNat * f.fractionLimit + m := by
  have hF : 0 < f.fractionLimit := Nat.two_pow_pos _
  have hmod : b % f.fractionLimit < f.fractionLimit := Nat.mod_lt b hF
  have hdiv : f.fractionLimit * (b / f.fractionLimit) + b % f.fractionLimit = b := Nat.div_add_mod b f.fractionLimit
  unfold scaled at h
  dsimp only at h
  split at h
  · rename_i hfield
    obtain ⟨rfl, rfl⟩ := Prod.mk.inj h
    rw [hfield, Nat.mul_zero, Nat.zero_add] at hdiv
    have hzero : (f.minExp - f.minExp).toNat = 0 := by omega
    exact ⟨le_refl _, by omega, Or.inl rfl, by rw [hzero, Nat.zero_mul, Nat.zero_add, hdiv]⟩
  · rename_i hfield
    obtain ⟨rfl, rfl⟩ := Prod.mk.inj h
    obtain ⟨k, hk⟩ := Nat.exists_eq_succ_of_ne_zero hfield
    rw [hk, Nat.mul_succ, Nat.mul_comm] at hdiv
    rw [hk, Nat.succ_sub_one]
    have htoNat : (f.minExp + (k : ℤ) - f.minExp).toNat = k := by omega
    exact ⟨by omega, by omega, Or.inr (by omega), by rw [htoNat]; omega⟩

end Scaled

end Format

/-! ## Windows -/

namespace Window

/-- The lower end of the interval around a magnitude. -/
def lowEnd (m : ℕ) (e : ℤ) (narrow : Bool) : ℚ := (m - if narrow then 1 / 4 else 1 / 2) * 2 ^ e

/-- The upper end of the interval around a magnitude. -/
def highEnd (m : ℕ) (e : ℤ) : ℚ := (m + 1 / 2) * 2 ^ e

/-- The interval around a magnitude: its ends belong to it only if the magnitude is even. -/
structure Near (m : ℕ) (e : ℤ) (narrow : Bool) (v : ℚ) : Prop where
  low : lowEnd m e narrow ≤ v
  high : v ≤ highEnd m e
  tie : lowEnd m e narrow = v ∨ v = highEnd m e → m % 2 = 0

variable {m : ℕ} {e : ℤ} {narrow : Bool} {n d : ℕ}

theorem low_div_den (hm : 0 < m) : ((of m e narrow).low : ℚ) / (of m e narrow).den = lowEnd m e narrow := by
  have hcast : (((if narrow then 4 * m - 1 else 4 * m - 2) : ℕ) : ℚ) = 4 * (m - if narrow then 1 / 4 else 1 / 2) := by
    cases narrow
    · rw [if_neg (by simp), if_neg (by simp), Nat.cast_sub (by omega)]
      push_cast
      ring
    · rw [if_pos rfl, if_pos rfl, Nat.cast_sub (by omega)]
      push_cast
      ring
  rw [lowEnd, zpow_eq_div 2 e, of]
  dsimp only
  push_cast [hcast]
  field_simp

theorem high_div_den (narrow : Bool) : ((of m e narrow).high : ℚ) / (of m e narrow).den = highEnd m e := by
  rw [highEnd, zpow_eq_div 2 e, of]
  push_cast
  field_simp
  ring

theorem value_div_den : ((of m e narrow).value : ℚ) / (of m e narrow).den = m * 2 ^ e := by
  rw [zpow_eq_div 2 e, of]
  push_cast
  field_simp

theorem near_of_contains (hm : 0 < m) (hd : 0 < d) (h : (of m e narrow).contains n d = true) :
    Near m e narrow (n / d) := by
  have hd' : (0 : ℚ) < d := by exact_mod_cast hd
  have hden : (0 : ℚ) < (of m e narrow).den := by
    rw [of]
    positivity
  suffices lowEnd m e narrow ≤ n / d ∧ (n : ℚ) / d ≤ highEnd m e ∧
      (lowEnd m e narrow = n / d ∨ (n : ℚ) / d = highEnd m e → m % 2 = 0) from ⟨this.1, this.2.1, this.2.2⟩
  rw [← low_div_den hm, ← high_div_den narrow]
  rw [div_le_div_iff₀ hden hd', div_le_div_iff₀ hd' hden,
    div_eq_div_iff hden.ne' hd'.ne', div_eq_div_iff hd'.ne' hden.ne']
  norm_cast
  unfold contains at h
  split at h
  · rename_i hclosed
    rw [decide_eq_true_eq] at h
    exact ⟨h.1, h.2, fun _ => by simpa [of] using hclosed⟩
  · rw [decide_eq_true_eq] at h
    exact ⟨h.1.le, h.2.le, by omega⟩

/-- A magnitude is in its own window. -/
theorem near_self (m : ℕ) (e : ℤ) (narrow : Bool) : Near m e narrow (m * 2 ^ e) := by
  have hpos : (0 : ℚ) < 2 ^ e := zpow_pos two_pos e
  have hlow : lowEnd m e narrow < m * 2 ^ e := by
    rw [lowEnd]
    split_ifs <;> nlinarith
  have hhigh : m * 2 ^ e < highEnd m e := by
    rw [highEnd]
    nlinarith
  exact ⟨hlow.le, hhigh.le, fun h => (h.elim hlow.ne hhigh.ne).elim⟩

end Window

/-! ## Rounding in a window -/

namespace Format

open Window

variable {f : Format} {b m n d : ℕ} {e : ℤ}

/-- Whether the magnitude below is half as far as the one above. -/
def narrow (f : Format) (m : ℕ) (e : ℤ) : Bool := m == f.fractionLimit && decide (f.minExp < e)

theorem two_pow_precision (hp : 0 < f.precision) : (2 : ℚ) ^ (f.precision : ℤ) = 2 * f.fractionLimit := by
  rw [zpow_natCast, fractionLimit, ← Nat.succ_pred_eq_of_pos hp, Nat.pred_eq_sub_one, Nat.succ_sub_one, pow_succ']
  push_cast
  rfl

/-- In units of the last place a quotient has `precision` bits before the point, and no fewer unless it is the smallest
place. -/
theorem placeFor_bounds (hp : 0 < f.precision) (hn : 0 < n) (hd : 0 < d) :
    (n : ℚ) / d < 2 * f.fractionLimit * 2 ^ f.placeFor n d ∧
      (f.placeFor n d = f.minExp ∨ f.fractionLimit * 2 ^ f.placeFor n d ≤ (n : ℚ) / d) := by
  obtain ⟨-, hup, hdown⟩ := f.placeFor_spec hn hd
  rw [zpow_add₀ two_ne_zero, two_pow_precision hp] at hup
  rw [add_sub_assoc, zpow_add₀ two_ne_zero, zpow_sub_one₀ two_ne_zero, two_pow_precision hp] at hdown
  exact ⟨by linarith, hdown.imp_right fun hdown => by linarith⟩

/-- A magnitude is the nearest one if its integer is, in units of the last place. -/
theorem nearest_eq_of_half {k : ℕ} (hb : b < f.infinity) (hn : 0 < n) (hd : 0 < d)
    (hlow : ((k : ℚ) - 1 / 2) * 2 ^ f.placeFor n d ≤ n / d) (hhigh : (n : ℚ) / d ≤ (k + 1 / 2) * 2 ^ f.placeFor n d)
    (htie : ((k : ℚ) - 1 / 2) * 2 ^ f.placeFor n d = n / d ∨ (n : ℚ) / d = (k + 1 / 2) * 2 ^ f.placeFor n d → k % 2 = 0)
    (hk : (f.placeFor n d - f.minExp).toNat * f.fractionLimit + k = b) : f.nearest n d = b := by
  have hpos : (0 : ℚ) < 2 ^ f.placeFor n d := zpow_pos two_pos _
  have hhalf : halfEven (unscale n d (f.placeFor n d)).1 (unscale n d (f.placeFor n d)).2 = k := by
    refine halfEven_eq (unscale_pos hd n _) ?_ ?_ ?_
    · rwa [unscale_div, le_div_iff₀ hpos]
    · rwa [unscale_div, div_le_iff₀ hpos]
    · rwa [unscale_div, eq_div_iff hpos.ne', div_eq_iff hpos.ne']
  rw [nearest, if_neg hn.ne']
  dsimp only
  rw [hhalf, hk]
  exact min_eq_right hb.le

/-- What is in a window has no higher a last place than the magnitude. -/
theorem placeFor_le_of_near (hp : 0 < f.precision) (hscaled : f.scaled b = (m, e)) (hn : 0 < n) (hd : 0 < d)
    (h : Near m e (f.narrow m e) (n / d)) : f.placeFor n d ≤ e := by
  obtain ⟨hmin, hlt, -, -⟩ := scaled_spec hscaled
  obtain ⟨-, hdown⟩ := placeFor_bounds hp hn hd
  by_contra hgt
  have hdown := hdown.resolve_left (by omega)
  have hplace : (2 : ℚ) * 2 ^ e ≤ 2 ^ f.placeFor n d := by
    rw [← zpow_one_add₀ two_ne_zero]
    exact zpow_le_zpow_right₀ one_le_two (by omega)
  have hle : (f.fractionLimit : ℚ) * (2 * 2 ^ e) ≤ f.fractionLimit * 2 ^ f.placeFor n d :=
    mul_le_mul_of_nonneg_left hplace (Nat.cast_nonneg _)
  have hmF : (m : ℚ) + 1 ≤ 2 * f.fractionLimit := by exact_mod_cast hlt
  have hhigh : highEnd m e < 2 ^ e * (2 * f.fractionLimit) := by
    rw [highEnd]
    nlinarith [zpow_pos (two_pos : (0 : ℚ) < 2) e]
  have := h.high
  linarith

/-- Where the last place is lower than that of the magnitude, the magnitude is a power of two, and the place the next
one. -/
theorem placeFor_lt_of_near (hp : 0 < f.precision) (hscaled : f.scaled b = (m, e)) (hn : 0 < n) (hd : 0 < d)
    (h : Near m e (f.narrow m e) (n / d)) (hlt : f.placeFor n d < e) :
    m = f.fractionLimit ∧ f.placeFor n d = e - 1 := by
  obtain ⟨-, -, hnormal, -⟩ := scaled_spec hscaled
  have hmin := (f.placeFor_spec hn hd).1
  have hup := (placeFor_bounds hp hn hd).1
  have hF : f.fractionLimit ≤ m := hnormal.resolve_left (by omega)
  have hF₁ : (1 : ℚ) ≤ f.fractionLimit := by exact_mod_cast Nat.one_le_two_pow
  have hbelow (i : ℤ) (hi : f.placeFor n d ≤ i) : (n : ℚ) / d < 2 * f.fractionLimit * 2 ^ i :=
    hup.trans_le (mul_le_mul_of_nonneg_left (zpow_le_zpow_right₀ one_le_two hi) (by positivity))
  have htwo (i : ℤ) : (2 : ℚ) ^ i = 2 ^ (i - 1) * 2 := by
    rw [← zpow_add_one₀ two_ne_zero, sub_add_cancel]
  have hlow := h.low
  have hm : m = f.fractionLimit := by
    by_contra hne
    have hgt : (f.fractionLimit : ℚ) + 1 ≤ m := by exact_mod_cast Nat.lt_of_le_of_ne hF (Ne.symm hne)
    have hup := hbelow (e - 1) (by omega)
    rw [lowEnd, narrow, beq_false_of_ne hne, Bool.false_and, if_neg (by simp), htwo e] at hlow
    nlinarith [zpow_pos (two_pos : (0 : ℚ) < 2) (e - 1)]
  refine ⟨hm, ?_⟩
  by_contra hne
  have hup := hbelow (e - 2) (by omega)
  have hmF : (m : ℚ) = f.fractionLimit := by rw [hm]
  have hquarter : ((m : ℚ) - 1 / 2) * 2 ^ e ≤ lowEnd m e (f.narrow m e) := by
    rw [lowEnd]
    split_ifs <;> nlinarith [zpow_pos (two_pos : (0 : ℚ) < 2) e]
  rw [htwo e, htwo (e - 1), show e - 1 - 1 = e - 2 by ring] at hquarter
  nlinarith [zpow_pos (two_pos : (0 : ℚ) < 2) (e - 2)]

/-- Everything in the window of a magnitude rounds to it. -/
theorem nearest_of_near (hp : 0 < f.precision) (hb : b < f.infinity) (hscaled : f.scaled b = (m, e)) (hn : 0 < n)
    (hd : 0 < d) (h : Near m e (f.narrow m e) (n / d)) : f.nearest n d = b := by
  obtain ⟨-, -, -, hbits⟩ := scaled_spec hscaled
  have hmin := (f.placeFor_spec hn hd).1
  have hpos : (0 : ℚ) < 2 ^ f.placeFor n d := zpow_pos two_pos _
  rcases (placeFor_le_of_near hp hscaled hn hd h).lt_or_eq with hlt | heq
  · -- the quotient is below a power of two, and the magnitude is that power
    obtain ⟨hm, hplace⟩ := placeFor_lt_of_near hp hscaled hn hd h hlt
    have htwo : (2 : ℚ) ^ e = 2 ^ f.placeFor n d * 2 := by
      rw [← zpow_add_one₀ two_ne_zero, hplace, sub_add_cancel]
    have hlow := h.low
    have hhigh := (placeFor_bounds hp hn hd).1
    rw [lowEnd, narrow, hm, beq_self_eq_true, Bool.true_and, decide_eq_true (by omega : f.minExp < e), if_pos rfl,
      htwo] at hlow
    refine nearest_eq_of_half (k := 2 * f.fractionLimit) hb hn hd ?_ ?_ (fun _ => Nat.mul_mod_right 2 _) ?_
    · push_cast
      linarith
    · push_cast
      nlinarith
    · have hsucc : (e - f.minExp).toNat = (f.placeFor n d - f.minExp).toNat + 1 := by omega
      rw [hbits, hm, hsucc]
      ring
  · have hlow : ((m : ℚ) - 1 / 2) * 2 ^ e ≤ lowEnd m e (f.narrow m e) := by
      rw [lowEnd]
      split_ifs <;> nlinarith [heq ▸ hpos]
    rw [← heq] at h hlow hbits
    refine nearest_eq_of_half hb hn hd (hlow.trans h.low) h.high ?_ hbits.symm
    rintro (hv | hv)
    · exact h.tie (Or.inl (le_antisymm h.low (hv ▸ hlow)))
    · exact h.tie (Or.inr hv)

end Format

end TableJson.Number
