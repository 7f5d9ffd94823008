import TableJson.Proofs.Number.RoundTrip

/-!
# Nearest — what a numeral rounds to

A quotient, and a numeral of any size, rounds to the magnitude nearest to it, and to the even one if two are equally
near (`nearest_isNearest`, `magnitude_isNearest`).  Infinity takes part as the power of two that would come next after
the finite magnitudes, so that what lies closer to it than to the largest of them overflows.

Among the multiples of the last place of a quotient, that of the integer `halfEven` is nearest (`halfEven_mul_nearest`).
Magnitudes with a lower last place are no such multiples, but they lie below the least magnitude that has this place
(`value_lt_of_place_lt`).
-/

namespace TableJson.Number

/-! ## The nearest integer -/

/-- No integer is nearer, and if another one is as near, this one is even. -/
theorem halfEven_nearest {n d : ℕ} (hd : 0 < d) (j : ℕ) :
    |(halfEven n d : ℚ) - n / d| ≤ |(j : ℚ) - n / d| ∧
      (|(j : ℚ) - n / d| = |(halfEven n d : ℚ) - n / d| → j ≠ halfEven n d → halfEven n d % 2 = 0) := by
  obtain ⟨hhalf, heven⟩ := halfEven_spec (n := n) hd
  by_cases hj : j = halfEven n d
  · rw [hj]
    exact ⟨le_refl _, fun _ hne => absurd rfl hne⟩
  · -- two integers are at least one apart
    have hone : (1 : ℚ) ≤ |(j : ℚ) - halfEven n d| := by
      have hne : (j : ℤ) - halfEven n d ≠ 0 := by omega
      have := Int.one_le_abs hne
      exact_mod_cast this
    have htriangle : |(j : ℚ) - halfEven n d| ≤ |(j : ℚ) - n / d| + |(halfEven n d : ℚ) - n / d| := by
      rw [abs_sub_comm (halfEven n d : ℚ)]
      exact abs_sub_le _ _ _
    exact ⟨by linarith, fun heq _ => heven (by linarith)⟩

namespace Format

variable (f : Format)

/-! ## Values of magnitudes -/

/-- The number that a magnitude stands for; infinity stands for the power of two that comes next after the finite
ones. -/
def value (b : ℕ) : ℚ := (f.scaled b).1 * 2 ^ (f.scaled b).2

variable {f} {b b' : ℕ}

theorem scaled_parts (b : ℕ) : f.minExp ≤ (f.scaled b).2 ∧ (f.scaled b).1 < 2 * f.fractionLimit ∧
    ((f.scaled b).2 = f.minExp ∨ f.fractionLimit ≤ (f.scaled b).1) ∧
    b = ((f.scaled b).2 - f.minExp).toNat * f.fractionLimit + (f.scaled b).1 :=
  scaled_spec rfl

theorem value_nonneg : 0 ≤ f.value b := mul_nonneg (Nat.cast_nonneg _) (zpow_pos two_pos _).le

/-- A magnitude with a lower last place lies below every one that has this place and needs it. -/
theorem value_lt_of_place_lt {e : ℤ} (h : (f.scaled b).2 < e) : f.value b < f.fractionLimit * 2 ^ e := by
  obtain ⟨-, hlt, -, -⟩ := scaled_parts (f := f) b
  have hlt : ((f.scaled b).1 : ℚ) < 2 * f.fractionLimit := by exact_mod_cast hlt
  have hplace : (2 : ℚ) * 2 ^ (f.scaled b).2 ≤ 2 ^ e := by
    rw [← zpow_one_add₀ two_ne_zero]
    exact zpow_le_zpow_right₀ one_le_two (by omega)
  calc f.value b < 2 * f.fractionLimit * 2 ^ (f.scaled b).2 := mul_lt_mul_of_pos_right hlt (zpow_pos two_pos _)
    _ = f.fractionLimit * (2 * 2 ^ (f.scaled b).2) := by ring
    _ ≤ f.fractionLimit * 2 ^ e := mul_le_mul_of_nonneg_left hplace (Nat.cast_nonneg _)

/-- Magnitudes are ordered as the numbers they stand for. -/
theorem value_strictMono : StrictMono f.value := by
  intro b b' hlt
  obtain ⟨hmin, hm, hnormal, hb⟩ := scaled_parts (f := f) b
  obtain ⟨hmin', hm', hnormal', hb'⟩ := scaled_parts (f := f) b'
  rcases lt_trichotomy (f.scaled b).2 (f.scaled b').2 with hplace | hplace | hplace
  · have hF : (f.fractionLimit : ℚ) ≤ (f.scaled b').1 := by exact_mod_cast hnormal'.resolve_left (by omega)
    exact (value_lt_of_place_lt hplace).trans_le (mul_le_mul_of_nonneg_right hF (zpow_pos two_pos _).le)
  · have hm : ((f.scaled b).1 : ℚ) < (f.scaled b').1 := by
      rw [hplace] at hb
      have : (f.scaled b).1 < (f.scaled b').1 := by omega
      exact_mod_cast this
    rw [value, value, hplace]
    exact mul_lt_mul_of_pos_right hm (zpow_pos two_pos _)
  · -- then the first one would be larger
    exfalso
    have hF : f.fractionLimit ≤ (f.scaled b).1 := hnormal.resolve_left (by omega)
    have hsteps : ((f.scaled b').2 - f.minExp).toNat * f.fractionLimit + f.fractionLimit ≤
        ((f.scaled b).2 - f.minExp).toNat * f.fractionLimit := by
      rw [← Nat.succ_mul]
      exact Nat.mul_le_mul_right _ (by omega)
    omega

/-- A magnitude whose last place is not below `e` is a multiple of it. -/
theorem value_eq_mul {e : ℤ} (h : e ≤ (f.scaled b).2) : ∃ j : ℕ, f.value b = j * 2 ^ e := by
  obtain ⟨i, hi⟩ := Int.le.dest h
  refine ⟨(f.scaled b).1 * 2 ^ i, ?_⟩
  rw [value, ← hi, zpow_add₀ two_ne_zero, zpow_natCast]
  push_cast
  ring

theorem scaled_of_lt {m : ℕ} (h : m < f.fractionLimit) : f.scaled m = (m, f.minExp) := by
  rw [scaled, Nat.div_eq_of_lt h, Nat.mod_eq_of_lt h]
  rfl

theorem scaled_add {m : ℕ} (h : m < f.fractionLimit) (i : ℕ) :
    f.scaled ((i + 1) * f.fractionLimit + m) = (m + f.fractionLimit, f.minExp + i) := by
  have hpos : 0 < f.fractionLimit := Nat.two_pow_pos _
  have hfield : ((i + 1) * f.fractionLimit + m) / f.fractionLimit = i + 1 := by
    rw [Nat.mul_comm, Nat.mul_add_div hpos, Nat.div_eq_of_lt h, Nat.add_zero]
  have hfraction : ((i + 1) * f.fractionLimit + m) % f.fractionLimit = m := by
    rw [Nat.mul_comm, Nat.mul_add_mod, Nat.mod_eq_of_lt h]
  rw [scaled, hfield, hfraction]
  rfl

/-- The pattern of an integer at a place, up to the one that carries into the next place. -/
theorem value_place {e : ℤ} {k : ℕ} (hmin : f.minExp ≤ e) (hnormal : e = f.minExp ∨ f.fractionLimit ≤ k)
    (hk : k ≤ 2 * f.fractionLimit) : f.value ((e - f.minExp).toNat * f.fractionLimit + k) = k * 2 ^ e := by
  obtain ⟨i, rfl⟩ := Int.le.dest hmin
  rw [show (f.minExp + i - f.minExp).toNat = i by omega]
  rcases lt_or_ge k f.fractionLimit with hlt | hge
  · obtain rfl : i = 0 := by omega
    rw [Nat.zero_mul, Nat.zero_add, value, scaled_of_lt hlt, Nat.cast_zero, add_zero]
  · obtain ⟨m, rfl⟩ := Nat.exists_eq_add_of_le hge
    rcases (show m ≤ f.fractionLimit by omega).lt_or_eq with hlt | rfl
    · rw [show i * f.fractionLimit + (f.fractionLimit + m) = (i + 1) * f.fractionLimit + m by ring, value,
        scaled_add hlt, Nat.add_comm]
    · have hzero := scaled_add (f := f) (Nat.two_pow_pos _ : 0 < f.fractionLimit) (i + 1)
      rw [show i * f.fractionLimit + (f.fractionLimit + f.fractionLimit) = (i + 1 + 1) * f.fractionLimit + 0 by ring,
        value, hzero, Nat.cast_succ, ← add_assoc, zpow_add_one₀ two_ne_zero]
      push_cast
      ring

/-! ## The nearest magnitude -/

variable (f) in
/-- No magnitude is nearer to `v`, and if another one is as near, this one is even. -/
structure IsNearest (b : ℕ) (v : ℚ) : Prop where
  le : b ≤ f.infinity
  least : ∀ b' ≤ f.infinity, |f.value b - v| ≤ |f.value b' - v|
  even : ∀ b' ≤ f.infinity, |f.value b' - v| = |f.value b - v| → b' ≠ b → b % 2 = 0

variable {v : ℚ}

theorem isNearest_infinity (h : f.value f.infinity ≤ v) : f.IsNearest f.infinity v := by
  have hless {b : ℕ} (hb : b < f.infinity) : |f.value f.infinity - v| < |f.value b - v| := by
    have hlt := value_strictMono (f := f) hb
    rw [abs_of_nonpos (by linarith), abs_of_neg (by linarith)]
    linarith
  refine ⟨le_refl _, fun b hb => ?_, fun b hb heq hne => ?_⟩
  · rcases hb.lt_or_eq with hlt | rfl
    · exact (hless hlt).le
    · exact le_refl _
  · exact absurd heq (hless (lt_of_le_of_ne hb hne)).ne'

theorem isNearest_zero (hv : 0 ≤ v) (h : 2 * v ≤ f.value 1) : f.IsNearest 0 v := by
  have hzero : f.value 0 = 0 := by
    rw [value, scaled_of_lt (Nat.two_pow_pos _), Nat.cast_zero, zero_mul]
  refine ⟨Nat.zero_le _, fun b _ => ?_, fun _ _ _ _ => rfl⟩
  rw [hzero, zero_sub, abs_neg, abs_of_nonneg hv]
  rcases Nat.eq_zero_or_pos b with rfl | hb
  · rw [hzero, zero_sub, abs_neg, abs_of_nonneg hv]
  · have hle : f.value 1 ≤ f.value b := value_strictMono.monotone hb
    rw [abs_of_nonneg (by linarith)]
    linarith

theorem isNearest_zero_zero : f.IsNearest 0 0 := isNearest_zero (le_refl _) (by rw [mul_zero]; exact value_nonneg)

/-- What is nearest among all magnitudes, however large, is nearest also if those beyond infinity are taken for
infinity. -/
theorem isNearest_min (hleast : ∀ b', |f.value b - v| ≤ |f.value b' - v|)
    (htie : ∀ b', |f.value b' - v| = |f.value b - v| → b' ≠ b → b % 2 = 0) : f.IsNearest (min f.infinity b) v := by
  rcases le_or_gt b f.infinity with hle | hgt
  · rw [min_eq_right hle]
    exact ⟨hle, fun b' _ => hleast b', fun b' _ => htie b'⟩
  · rw [min_eq_left hgt.le]
    refine isNearest_infinity ?_
    -- otherwise infinity would be nearer
    have hlt := value_strictMono (f := f) hgt
    by_contra hv
    have hnear := hleast f.infinity
    rw [abs_of_pos (by linarith), abs_of_pos (by linarith)] at hnear
    linarith

section Quotient

variable {n d : ℕ}

/-- The integer that is rounded to has no more than `precision` bits, but for a carry, and no fewer unless the place is
the smallest one. -/
theorem halfEven_place (hp : 0 < f.precision) (hn : 0 < n) (hd : 0 < d) {k : ℕ}
    (hk : k = halfEven (unscale n d (f.placeFor n d)).1 (unscale n d (f.placeFor n d)).2) :
    (f.placeFor n d = f.minExp ∨ f.fractionLimit ≤ k) ∧ k ≤ 2 * f.fractionLimit := by
  obtain ⟨hup, hdown⟩ := placeFor_bounds hp hn hd
  have hpos : (0 : ℚ) < 2 ^ f.placeFor n d := zpow_pos two_pos _
  have hhalf := (halfEven_spec (n := (unscale n d (f.placeFor n d)).1) (unscale_pos hd n (f.placeFor n d))).1
  rw [← hk, unscale_div, abs_le] at hhalf
  constructor
  · refine hdown.imp_right fun hdown => ?_
    rw [← le_div_iff₀ hpos] at hdown
    have hlt : (f.fractionLimit : ℚ) < k + 1 := by linarith
    have hlt : f.fractionLimit < k + 1 := by exact_mod_cast hlt
    omega
  · rw [← div_lt_iff₀ hpos] at hup
    have hlt : (k : ℚ) < 2 * f.fractionLimit + 1 := by linarith
    have hlt : k < 2 * f.fractionLimit + 1 := by exact_mod_cast hlt
    omega

/-- Among the multiples of a place, that of the integer nearest to the scaled quotient is nearest. -/
theorem halfEven_mul_nearest {e : ℤ} (hd : 0 < d) {k : ℕ} (hk : k = halfEven (unscale n d e).1 (unscale n d e).2)
    (j : ℕ) : |(k : ℚ) * 2 ^ e - n / d| ≤ |(j : ℚ) * 2 ^ e - n / d| ∧
      (|(j : ℚ) * 2 ^ e - n / d| = |(k : ℚ) * 2 ^ e - n / d| → j ≠ k → k % 2 = 0) := by
  have hpos : (0 : ℚ) < 2 ^ e := zpow_pos two_pos e
  have hscale (j : ℕ) : |(j : ℚ) * 2 ^ e - n / d| = |(j : ℚ) - n / d / 2 ^ e| * 2 ^ e := by
    rw [← abs_of_pos hpos, ← abs_mul, abs_of_pos hpos, sub_mul, div_mul_cancel₀ _ hpos.ne']
  obtain ⟨hleast, heven⟩ := halfEven_nearest (n := (unscale n d e).1) (unscale_pos hd n e) j
  rw [← hk, unscale_div] at hleast heven
  rw [hscale, hscale]
  exact ⟨mul_le_mul_of_nonneg_right hleast hpos.le, fun heq => heven (mul_right_cancel₀ hpos.ne' heq)⟩

/-- If a multiple of a place is nearest among all multiples, it is so among all magnitudes, as long as those with lower
places lie below `v`. -/
theorem multiple_nearest {k : ℕ} {e : ℤ} (hmultiple : ∀ j : ℕ, |(k : ℚ) * 2 ^ e - v| ≤ |(j : ℚ) * 2 ^ e - v| ∧
      (|(j : ℚ) * 2 ^ e - v| = |(k : ℚ) * 2 ^ e - v| → j ≠ k → k % 2 = 0))
    (hdown : e = f.minExp ∨ f.fractionLimit * 2 ^ e ≤ v) (b : ℕ) :
    |(k : ℚ) * 2 ^ e - v| ≤ |f.value b - v| ∧
      (|f.value b - v| = |(k : ℚ) * 2 ^ e - v| → f.value b ≠ k * 2 ^ e → k % 2 = 0) := by
  rcases lt_or_ge (f.scaled b).2 e with hlt | hge
  · -- the least magnitude that has the place lies between this one and `v`
    have hless := value_lt_of_place_lt hlt
    have hmin := (scaled_parts (f := f) b).1
    have hdown := hdown.resolve_left (by omega)
    have hfar : |(k : ℚ) * 2 ^ e - v| < |f.value b - v| := by
      refine (hmultiple f.fractionLimit).1.trans_lt ?_
      rw [abs_of_nonpos (by linarith), abs_of_neg (by linarith)]
      linarith
    exact ⟨hfar.le, fun heq => absurd heq hfar.ne'⟩
  · obtain ⟨j, hj⟩ := value_eq_mul hge
    rw [hj]
    exact ⟨(hmultiple j).1, fun heq hne => (hmultiple j).2 heq fun hjk => hne (by rw [hjk])⟩

theorem even_fractionLimit (hp : 2 ≤ f.precision) : f.fractionLimit % 2 = 0 := by
  obtain ⟨p, hp⟩ := Nat.exists_eq_add_of_le hp
  rw [fractionLimit, hp, show 2 + p - 1 = p + 1 by omega, pow_succ, Nat.mul_mod_left]

/-- A quotient is rounded to the magnitude nearest to it. -/
theorem nearest_isNearest (hp : 2 ≤ f.precision) (n : ℕ) (hd : 0 < d) : f.IsNearest (f.nearest n d) (n / d) := by
  by_cases hn : n = 0
  · rw [nearest, if_pos hn, hn, Nat.cast_zero, zero_div]
    exact isNearest_zero_zero
  · have hpos : 0 < n := Nat.pos_of_ne_zero hn
    obtain ⟨k, hk⟩ : ∃ k, k = halfEven (unscale n d (f.placeFor n d)).1 (unscale n d (f.placeFor n d)).2 := ⟨_, rfl⟩
    obtain ⟨hnormal, hcarry⟩ := halfEven_place (by omega) hpos hd hk
    have hvalue := value_place (f.placeFor_spec hpos hd).1 hnormal hcarry
    have hnear := multiple_nearest (halfEven_mul_nearest hd hk) (placeFor_bounds (f := f) (by omega) hpos hd).2
    rw [nearest, if_neg hn]
    dsimp only
    rw [← hk]
    refine isNearest_min (fun b => ?_) fun b heq hne => ?_
    · rw [hvalue]
      exact (hnear b).1
    · rw [hvalue] at heq
      have hk₂ := (hnear b).2 heq fun h => hne (value_strictMono.injective (h.trans hvalue.symm))
      rw [Nat.add_mod, Nat.mul_mod, even_fractionLimit hp, hk₂, Nat.mul_zero]

end Quotient

end Format

/-! ## Exponents -/

/-- What is read below the limit lies below it. -/
theorem foldl_exponent_of_lt {ds : List Char} {n : ℕ}
    (h : ds.foldl (fun n c => if n < Numeral.exponentLimit then 10 * n + digitValue c else n) n <
      Numeral.exponentLimit) : ds.foldl (fun n c => 10 * n + digitValue c) n < Numeral.exponentLimit := by
  induction ds generalizing n with
  | nil => exact h
  | cons d ds ih =>
    rw [List.foldl_cons] at h
    by_cases hn : n < Numeral.exponentLimit
    · rw [if_pos hn] at h
      exact ih h
    · -- the digits that follow are passed over as well
      rw [if_neg hn] at h
      have hle := Numeral.le_foldl_digits ds n
      have := ih h
      omega

/-- An exponent beyond the limit is read as one. -/
theorem le_exponentValue {ds : List Char} (h : Numeral.exponentLimit ≤ digitsValue ds) :
    Numeral.exponentLimit ≤ Numeral.exponentValue ds := by
  rw [digitsValue_eq_foldl] at h
  by_contra hlt
  exact absurd (foldl_exponent_of_lt (Nat.not_le.1 hlt)) (Nat.not_lt.2 h)

/-! ## Numerals -/

section Binary64

open Format

theorem value_infinity : binary64.value binary64.infinity = 2 ^ (1024 : ℤ) := by
  have hscaled : binary64.scaled binary64.infinity = (2 ^ 52, 972) := by decide
  rw [value, hscaled, show (1024 : ℤ) = 52 + 972 by norm_num, zpow_add₀ two_ne_zero]
  exact congrArg (· * (2 : ℚ) ^ (972 : ℤ)) (by norm_num)

theorem value_one : binary64.value 1 = 2 ^ (-1074 : ℤ) := by
  have hscaled : binary64.scaled 1 = (1, -1074) := by decide
  rw [value, hscaled, Nat.cast_one, one_mul]

variable {c : ℕ} {i : ℤ}

/-- Numerals with so large an exponent overflow. -/
theorem isNearest_of_large (hc : c ≠ 0) (h : 1024 ≤ 3 * i) : binary64.IsNearest binary64.infinity (c * 10 ^ i) := by
  have hc₁ : (1 : ℚ) ≤ c := by exact_mod_cast Nat.one_le_iff_ne_zero.2 hc
  refine isNearest_infinity ?_
  rw [value_infinity]
  exact (two_pow_le_ten_pow h).trans (le_mul_of_one_le_left (zpow_pos (by norm_num) _).le hc₁)

/-- Numerals with so small an exponent vanish. -/
theorem isNearest_of_small (h : (Nat.log2 c : ℤ) + 1 + 3 * i < -1074) : binary64.IsNearest 0 (c * 10 ^ i) := by
  refine isNearest_zero (mul_nonneg (Nat.cast_nonneg _) (zpow_pos (by norm_num) _).le) ?_
  have htwo : (2 : ℚ) * 2 ^ (-1075 : ℤ) = 2 ^ (-1074 : ℤ) := by
    rw [← zpow_one_add₀ two_ne_zero]
    norm_num
  have := numeral_lt_two_pow h
  rw [value_one]
  linarith

theorem isNearest_zero_mul (i : ℤ) : binary64.IsNearest 0 ((0 : ℕ) * 10 ^ i) := by
  rw [Nat.cast_zero, zero_mul]
  exact isNearest_zero_zero

theorem magnitude_of_large {d : Numeral} (hc : d.coefficient ≠ 0) (h : 1024 ≤ 3 * d.exponent) :
    d.magnitude .binary64 = binary64.infinity := by
  have hguard : (2 : ℤ) ^ (binary64.expBits - 1) ≤ 3 * d.exponent := h
  rw [Numeral.magnitude, if_neg hc, if_pos hguard]

theorem magnitude_of_small {d : Numeral} (h : (Nat.log2 d.coefficient : ℤ) + 1 + 3 * d.exponent < -1074) :
    d.magnitude .binary64 = 0 := by
  have hnotLarge : ¬ (2 : ℤ) ^ (binary64.expBits - 1) ≤ 3 * d.exponent := by
    have hlimit : (2 : ℤ) ^ (binary64.expBits - 1) = 1024 := rfl
    omega
  have hguard : (Nat.log2 d.coefficient : ℤ) + 1 + 3 * d.exponent < binary64.minExp := h
  rw [Numeral.magnitude, if_neg hnotLarge, if_pos hguard]
  exact ite_self 0

/-- A numeral is rounded to the magnitude nearest to it, of whatever size it is. -/
theorem magnitude_isNearest (d : Numeral) :
    binary64.IsNearest (d.magnitude .binary64) (d.coefficient * 10 ^ d.exponent) := by
  unfold Numeral.magnitude
  split_ifs with hzero hlarge hsmall
  · rw [hzero]
    exact isNearest_zero_mul _
  · exact isNearest_of_large hzero hlarge
  · exact isNearest_of_small hsmall
  · have h := nearest_isNearest (f := binary64) (by decide) (d.coefficient * 10 ^ d.exponent.toNat)
      (Nat.pow_pos (by decide) : 0 < 10 ^ (-d.exponent).toNat)
    push_cast at h
    rwa [mul_div_assoc, ← zpow_eq_div] at h

/-- A pattern from a sign and a magnitude has this sign and this magnitude. -/
theorem parts_signed {f : Format} (hf : 0 < f.width) {b : ℕ} (hb : b < f.signBit) (negative : Bool) :
    (.signed negative b : Binary f).negative = negative ∧ (.signed negative b : Binary f).magnitude = b := by
  have hwidth := two_pow_width hf
  simp only [Binary.negative, Binary.magnitude, Binary.signed, Binary.ofNat, hwidth]
  cases negative
  · rw [if_neg Bool.false_ne_true, Nat.mod_eq_of_lt (by omega : b < 2 * f.signBit)]
    exact ⟨decide_eq_false (Nat.not_le.2 hb), Nat.mod_eq_of_lt hb⟩
  · rw [if_pos rfl, Nat.mod_eq_of_lt (by omega : f.signBit + b < 2 * f.signBit)]
    exact ⟨decide_eq_true (Nat.le_add_right ..), by rw [Nat.add_mod_left, Nat.mod_eq_of_lt hb]⟩

/-- A numeral keeps its sign and its magnitude. -/
theorem parts_round (d : Numeral) :
    (d.round : Binary64).negative = d.negative ∧ (d.round : Binary64).magnitude = d.magnitude .binary64 := by
  have hlt : binary64.infinity < binary64.signBit := by decide
  exact parts_signed (by decide) ((magnitude_isNearest d).le.trans_lt hlt) d.negative

end Binary64

end TableJson.Number
