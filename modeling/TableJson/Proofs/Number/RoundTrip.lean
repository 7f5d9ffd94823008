import TableJson.Proofs.Number.Shortest

/-!
# Round trip — decimal numerals that round to a real

A numeral rounds to a real if it denotes what the shortest digits of the real denote, and has its sign (`round_eq`).
Numerals that lie far out are decided by their exponent alone, but nothing in a window of a finite magnitude lies that
far out (`near_bounds`).
-/

namespace TableJson.Number

open Format Window

section Binary64

variable {b m : ℕ} {e : ℤ} {v : ℚ}

/-- The windows of finite magnitudes lie between the powers of two that are too small and too large. -/
theorem near_bounds (hb : b < binary64.infinity) (hscaled : binary64.scaled b = (m, e)) (hm : 0 < m)
    (h : Near m e (binary64.narrow m e) v) : (2 : ℚ) ^ (-1075 : ℤ) ≤ v ∧ v < 2 ^ (1024 : ℤ) := by
  obtain ⟨hmin, hlt, hnormal, hbits⟩ := scaled_spec hscaled
  have hminExp : binary64.minExp = -1074 := rfl
  have hF : binary64.fractionLimit = 2 ^ 52 := rfl
  have hinfinity : binary64.infinity = 2047 * 2 ^ 52 := rfl
  rw [hminExp] at hmin hnormal hbits
  rw [hF] at hlt hnormal hbits
  have he : e ≤ 971 := by omega
  have hm₁ : (1 : ℚ) ≤ m := by exact_mod_cast hm
  have hm₂ : (m : ℚ) + 1 ≤ 2 * 2 ^ 52 := by exact_mod_cast hlt
  constructor
  · have hsmall : (2 : ℚ) ^ (-1074 : ℤ) ≤ 2 ^ e := zpow_le_zpow_right₀ one_le_two hmin
    have hhalf : (2 : ℚ) ^ (-1075 : ℤ) = 1 / 2 * 2 ^ (-1074 : ℤ) := by
      rw [show (-1075 : ℤ) = -1 + -1074 by norm_num, zpow_add₀ two_ne_zero, zpow_neg_one, one_div]
    refine le_trans ?_ h.low
    rw [lowEnd, hhalf]
    refine mul_le_mul ?_ hsmall (zpow_pos two_pos _).le ?_ <;> split_ifs <;> linarith
  · refine lt_of_le_of_lt h.high ?_
    have hlarge : (2 : ℚ) ^ e ≤ 2 ^ (971 : ℤ) := zpow_le_zpow_right₀ one_le_two he
    have hprod : (2 : ℚ) ^ (1024 : ℤ) = 2 * 2 ^ 52 * 2 ^ (971 : ℤ) := by
      rw [show (1024 : ℤ) = 53 + 971 by norm_num, zpow_add₀ two_ne_zero, mul_left_inj' (zpow_ne_zero _ two_ne_zero)]
      norm_num
    have hpos : (0 : ℚ) < 2 ^ e := zpow_pos two_pos e
    rw [highEnd, hprod]
    exact mul_lt_mul (by linarith) hlarge hpos (by positivity)

/-- A numeral with so large an exponent is too large for a finite real. -/
theorem two_pow_le_ten_pow {i : ℤ} (h : 1024 ≤ 3 * i) : (2 : ℚ) ^ (1024 : ℤ) ≤ 10 ^ i :=
  calc (2 : ℚ) ^ (1024 : ℤ) ≤ 2 ^ (3 * 342 : ℤ) := zpow_le_zpow_right₀ one_le_two (by norm_num)
    _ = 8 ^ (342 : ℤ) := by rw [zpow_mul]; norm_num
    _ ≤ 10 ^ (342 : ℤ) := zpow_le_zpow_left₀ (by norm_num) (by norm_num) (by norm_num)
    _ ≤ 10 ^ i := zpow_le_zpow_right₀ (by norm_num) (by omega)

theorem ten_pow_le_two_pow {i : ℤ} (h : i ≤ 0) : (10 : ℚ) ^ i ≤ 2 ^ (3 * i) := by
  have hinv : (8 : ℚ) ^ (-i) ≤ 10 ^ (-i) := zpow_le_zpow_left₀ (by omega) (by norm_num) (by norm_num)
  rw [zpow_neg, zpow_neg, inv_le_inv₀ (zpow_pos (by norm_num) _) (zpow_pos (by norm_num) _)] at hinv
  rwa [zpow_mul, show (2 : ℚ) ^ (3 : ℤ) = 8 by norm_num]

/-- A numeral with so small an exponent is too small for a real that is not zero. -/
theorem numeral_lt_two_pow {c : ℕ} {i : ℤ} (h : (Nat.log2 c : ℤ) + 1 + 3 * i < -1074) :
    (c : ℚ) * 10 ^ i < 2 ^ (-1075 : ℤ) := by
  have hc : (c : ℚ) < 2 ^ ((Nat.log2 c : ℤ) + 1) := by
    have : (c : ℚ) < 2 ^ (Nat.log2 c + 1) := by exact_mod_cast Nat.lt_log2_self
    rw [← zpow_natCast] at this
    exact_mod_cast this
  have hten : (0 : ℚ) < 10 ^ i := zpow_pos (by norm_num) _
  calc (c : ℚ) * 10 ^ i < 2 ^ ((Nat.log2 c : ℤ) + 1) * 2 ^ (3 * i) :=
        mul_lt_mul hc (ten_pow_le_two_pow (by omega)) hten (zpow_pos two_pos _).le
    _ = 2 ^ ((Nat.log2 c : ℤ) + 1 + 3 * i) := (zpow_add₀ two_ne_zero _ _).symm
    _ ≤ 2 ^ (-1075 : ℤ) := zpow_le_zpow_right₀ one_le_two (by omega)

/-- What lies in the window of a magnitude rounds to it, however it is written. -/
theorem magnitude_of_near (hb : b < binary64.infinity) (hscaled : binary64.scaled b = (m, e)) (hm : 0 < m) {d : Numeral}
    (h : Near m e (binary64.narrow m e) (d.coefficient * 10 ^ d.exponent)) : d.magnitude .binary64 = b := by
  obtain ⟨hlow, hhigh⟩ := near_bounds hb hscaled hm h
  have hten : (0 : ℚ) < 10 ^ d.exponent := zpow_pos (by norm_num) _
  have hc : 0 < d.coefficient := by
    have := (mul_pos_iff_of_pos_right hten).1 (h.pos hm)
    exact_mod_cast this
  have hc₁ : (1 : ℚ) ≤ d.coefficient := by exact_mod_cast hc
  have hnotLarge : ¬ (2 : ℤ) ^ (binary64.expBits - 1) ≤ 3 * d.exponent := by
    intro hle
    have hpow : (2 : ℚ) ^ (1024 : ℤ) ≤ 10 ^ d.exponent := two_pow_le_ten_pow hle
    exact absurd hhigh (not_lt.2 (hpow.trans (le_mul_of_one_le_left hten.le hc₁)))
  have hnotSmall : ¬ (Nat.log2 d.coefficient : ℤ) + 1 + 3 * d.exponent < binary64.minExp := fun hlt =>
    absurd hlow (not_le.2 (numeral_lt_two_pow hlt))
  rw [Numeral.magnitude, if_neg hc.ne', if_neg hnotLarge, if_neg hnotSmall]
  refine nearest_of_near (by decide) hb hscaled (Nat.mul_pos hc (Nat.pow_pos (by decide))) (Nat.pow_pos (by decide)) ?_
  push_cast
  rwa [mul_div_assoc, ← zpow_eq_div]

end Binary64

/-! ## Patterns -/

theorem two_pow_width {f : Format} (hf : 0 < f.width) : 2 ^ f.width = 2 * f.signBit := by
  rw [signBit, ← pow_succ', Nat.sub_add_cancel hf]

theorem signed_magnitude {f : Format} (hf : 0 < f.width) (x : Binary f) : .signed x.negative x.magnitude = x := by
  obtain ⟨bits, hbits⟩ := x
  have hwidth := two_pow_width hf
  have hmod : bits % f.signBit < f.signBit := Nat.mod_lt _ (Nat.two_pow_pos _)
  simp only [Binary.signed, Binary.ofNat, Binary.negative, Binary.magnitude, Binary.mk.injEq, decide_eq_true_eq]
  by_cases h : f.signBit ≤ bits
  · have hmagnitude : bits % f.signBit = bits - f.signBit := by
      rw [Nat.mod_eq_sub_mod h, Nat.mod_eq_of_lt (by omega)]
    rw [if_pos h, hmagnitude, Nat.mod_eq_of_lt (by omega)]
    omega
  · rw [if_neg h, Nat.mod_eq_of_lt (Nat.not_le.1 h), Nat.mod_eq_of_lt hbits]

variable {x : Binary64}

theorem scaled_pos (hx : x.isZero = false) : 0 < (binary64.scaled x.magnitude).1 := by
  rcases hscaled : binary64.scaled x.magnitude with ⟨m, e⟩
  obtain ⟨-, -, hnormal, hbits⟩ := scaled_spec hscaled
  have hmagnitude : x.magnitude ≠ 0 := by simpa [Binary.isZero] using hx
  have hF : 0 < binary64.fractionLimit := Nat.two_pow_pos _
  refine Nat.pos_of_ne_zero fun (hm : m = 0) => ?_
  rcases hnormal with hmin | hle
  · rw [hm, hmin, sub_self] at hbits
    exact hmagnitude (by simpa using hbits)
  · omega

theorem shortest_spec (hx : x.isZero = false) :
    Near (binary64.scaled x.magnitude).1 (binary64.scaled x.magnitude).2
        (binary64.narrow (binary64.scaled x.magnitude).1 (binary64.scaled x.magnitude).2) x.shortest.value ∧
      Leading x.shortest.digits :=
  shortest_near (scaled_pos hx) _ _

/-- A numeral that denotes what the shortest digits denote rounds to the real. -/
theorem round_eq (hfinite : x.isFinite = true) (hx : x.isZero = false) {d : Numeral} (hsign : d.negative = x.negative)
    (hvalue : d.coefficient * 10 ^ d.exponent = x.shortest.value) : d.round = x := by
  have hnear := (shortest_spec hx).1
  rw [← hvalue] at hnear
  rw [Numeral.round, magnitude_of_near (by simpa [Binary.isFinite] using hfinite) rfl (scaled_pos hx) hnear, hsign]
  exact signed_magnitude (by decide) x

/-- Zeros keep their sign. -/
theorem round_zero (hx : x.isZero = true) {d : Numeral} (hsign : d.negative = x.negative) (hzero : d.coefficient = 0) :
    d.round = x := by
  have hmagnitude : x.magnitude = 0 := by simpa [Binary.isZero] using hx
  rw [Numeral.round, Numeral.magnitude, if_pos hzero, hsign, ← hmagnitude]
  exact signed_magnitude (by decide) x

/-- The exponents of shortest digits have few digits. -/
theorem exponent_bounds (hfinite : x.isFinite = true) (hx : x.isZero = false) :
    -1075 < x.shortest.exponent ∧ x.shortest.exponent ≤ 1024 := by
  obtain ⟨hnear, hleading⟩ := shortest_spec hx
  obtain ⟨hlow, hhigh⟩ := near_bounds (by simpa [Binary.isFinite] using hfinite) rfl (scaled_pos hx) hnear
  obtain ⟨hfew, hmany⟩ := hleading.bounds
  have hlength : 0 < x.shortest.digits.length := List.length_pos_of_ne_nil hleading.ne_nil
  rw [Decimal.value] at hlow hhigh
  generalize x.shortest.digits.length = l at hfew hmany hlow hhigh hlength
  have hten : (0 : ℚ) < 10 ^ (x.shortest.exponent - l) := zpow_pos (by norm_num) _
  constructor
  · have hmany : (digitsValue x.shortest.digits : ℚ) < 10 ^ (l : ℤ) := by exact_mod_cast hmany
    have hlt : (2 : ℚ) ^ (-1075 : ℤ) < 10 ^ x.shortest.exponent := by
      refine lt_of_le_of_lt hlow ?_
      rw [← add_sub_cancel (l : ℤ) x.shortest.exponent, zpow_add₀ (by norm_num)]
      rw [add_sub_cancel_left]
      exact mul_lt_mul_of_pos_right hmany hten
    by_contra hle
    have hsmall : (10 : ℚ) ^ x.shortest.exponent ≤ 10 ^ (-1075 : ℤ) := zpow_le_zpow_right₀ (by norm_num) (by omega)
    have hbase : (10 : ℚ) ^ (-1075 : ℤ) ≤ 2 ^ (-1075 : ℤ) := by
      rw [zpow_neg, zpow_neg, inv_le_inv₀ (zpow_pos (by norm_num) _) (zpow_pos (by norm_num) _)]
      exact zpow_le_zpow_left₀ (by norm_num) (by norm_num) (by norm_num)
    exact absurd hlt (not_lt.2 (hsmall.trans hbase))
  · have hfew : (10 : ℚ) ^ ((l : ℤ) - 1) ≤ digitsValue x.shortest.digits := by
      have hcast : (l : ℤ) - 1 = (l - 1 : ℕ) := by omega
      rw [hcast, zpow_natCast]
      exact_mod_cast hfew
    have hlt : (10 : ℚ) ^ (x.shortest.exponent - 1) < 2 ^ (1024 : ℤ) := by
      refine lt_of_le_of_lt ?_ hhigh
      rw [show x.shortest.exponent - 1 = (l - 1) + (x.shortest.exponent - l) by ring, zpow_add₀ (by norm_num)]
      exact mul_le_mul_of_nonneg_right hfew hten.le
    by_contra hle
    have hlarge : (10 : ℚ) ^ (1024 : ℤ) ≤ 10 ^ (x.shortest.exponent - 1) :=
      zpow_le_zpow_right₀ (by norm_num) (by omega)
    have hbase : (2 : ℚ) ^ (1024 : ℤ) ≤ 10 ^ (1024 : ℤ) := zpow_le_zpow_left₀ (by norm_num) (by norm_num) (by norm_num)
    exact absurd hlt (not_lt.2 (hbase.trans hlarge))

end TableJson.Number
