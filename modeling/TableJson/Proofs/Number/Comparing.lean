import TableJson.Proofs.Number.Nearest

/-!
# Comparing — rounding and order

A number that lies on one side of a magnitude is not rounded to the other side of it (`IsNearest.le_of_value`,
`IsNearest.ge_of_value`), and the middle between two magnitudes decides between them (`IsNearest.lt_of_middle`,
`IsNearest.eq_of_middle`).  So where an integer of up to 53 bits (`exists_value`) is a bound of a number, it is one of
what the number is rounded to (`IsNearest.exact_le`).
-/

namespace TableJson.Number.Format

section Order

variable {f : Format} {b c : ℕ} {v : ℚ}

theorem IsNearest.le_of_value (h : f.IsNearest b v) (hc : c ≤ f.infinity) (hv : f.value c ≤ v) : c ≤ b := by
  by_contra hlt
  have hvalue := value_strictMono (f := f) (not_le.1 hlt)
  have hnear := h.least c hc
  rw [abs_of_neg (by linarith), abs_of_nonpos (by linarith)] at hnear
  linarith

theorem IsNearest.ge_of_value (h : f.IsNearest b v) (hc : c ≤ f.infinity) (hv : v ≤ f.value c) : b ≤ c := by
  by_contra hlt
  have hvalue := value_strictMono (f := f) (not_le.1 hlt)
  have hnear := h.least c hc
  rw [abs_of_pos (by linarith), abs_of_nonneg (by linarith)] at hnear
  linarith

/-- A magnitude is rounded to itself. -/
theorem IsNearest.eq_of_value (h : f.IsNearest b v) (hc : c ≤ f.infinity) (hv : f.value c = v) : b = c :=
  le_antisymm (h.ge_of_value hc hv.ge) (h.le_of_value hc hv.le)

/-- Above the middle to the next magnitude, a number is not rounded down. -/
theorem IsNearest.lt_of_middle (h : f.IsNearest b v) (hc : c + 1 ≤ f.infinity)
    (hv : f.value c + f.value (c + 1) < 2 * v) : c < b := by
  by_contra hle
  have hvalue : f.value b ≤ f.value c := value_strictMono.monotone (not_lt.1 hle)
  have hstep := value_strictMono (f := f) (Nat.lt_succ_self c)
  have hnear := h.least (c + 1) hc
  rw [abs_of_neg (a := f.value b - v) (by linarith)] at hnear
  rcases le_total (f.value (c + 1)) v with hnext | hnext
  · rw [abs_of_nonpos (by linarith)] at hnear
    linarith
  · rw [abs_of_nonneg (by linarith)] at hnear
    linarith

/-- Up to the middle to the next magnitude, the middle included, a number is rounded down to an even one. -/
theorem IsNearest.eq_of_middle (h : f.IsNearest b v) (hc : c + 1 ≤ f.infinity) (heven : c % 2 = 0)
    (hlow : f.value c ≤ v) (hv : 2 * v ≤ f.value c + f.value (c + 1)) : b = c := by
  have hstep := value_strictMono (f := f) (Nat.lt_succ_self c)
  have hnear := h.least c (by omega)
  rw [abs_of_nonpos (a := f.value c - v) (by linarith)] at hnear
  by_contra hne
  have hnext : c + 1 ≤ b := lt_of_le_of_ne (h.le_of_value (by omega) hlow) (Ne.symm hne)
  have hvalue : f.value (c + 1) ≤ f.value b := value_strictMono.monotone hnext
  rw [abs_of_nonneg (a := f.value b - v) (by linarith)] at hnear
  -- then it is the next one, as near, and odd
  have hb : b = c + 1 := (value_strictMono (f := f)).injective (by linarith)
  have hodd := h.even c (by omega)
    (by rw [abs_of_nonpos (by linarith), abs_of_nonneg (by linarith)]; linarith) (Ne.symm hne)
  omega

end Order

/-! ## Integers -/

/-- Integers of up to 53 bits are finite magnitudes, and so are they times powers of two. -/
theorem exists_value {m i : ℕ} (h : m < 2 ^ 53) (hi : i ≤ 900) :
    ∃ c < binary64.infinity, binary64.value c = m * 2 ^ i := by
  rcases Nat.eq_zero_or_pos m with rfl | hm
  · refine ⟨0, by decide, ?_⟩
    rw [value, scaled_of_lt (Nat.two_pow_pos _), Nat.cast_zero, zero_mul, zero_mul]
  have hlog : Nat.log2 m ≤ 52 := Nat.lt_succ_iff.1 ((Nat.log2_lt hm.ne').2 h)
  obtain ⟨k, hk⟩ := Nat.exists_eq_add_of_le hlog
  have hfraction : binary64.fractionLimit = 2 ^ 52 := rfl
  have hmin : binary64.minExp = -1074 := rfl
  have hinfinity : binary64.infinity = 2047 * 2 ^ 52 := by decide
  have hlow : 2 ^ 52 ≤ m * 2 ^ k := by
    rw [hk, pow_add]
    exact Nat.mul_le_mul_right _ (Nat.log2_self_le hm.ne')
  have hhigh : m * 2 ^ k ≤ 2 * 2 ^ 52 := by
    have hlt : m < 2 ^ (Nat.log2 m + 1) := Nat.lt_log2_self
    calc m * 2 ^ k ≤ 2 ^ (Nat.log2 m + 1) * 2 ^ k := Nat.mul_le_mul_right _ hlt.le
      _ = 2 * 2 ^ 52 := by rw [hk]; ring
  have hvalue := value_place (f := binary64) (e := i - k) (k := m * 2 ^ k) (by omega) (Or.inr hlow) hhigh
  refine ⟨_, ?_, hvalue.trans ?_⟩
  · have hplace : ((i : ℤ) - k - binary64.minExp).toNat ≤ 1974 := by omega
    have := Nat.mul_le_mul_right (2 ^ 52) hplace
    rw [hfraction, hinfinity]
    omega
  · rw [zpow_sub₀ two_ne_zero, zpow_natCast, zpow_natCast]
    push_cast
    field_simp

/-- A number that is not below such an integer is not rounded to less. -/
theorem IsNearest.exact_le {b m i : ℕ} {v : ℚ} (h : binary64.IsNearest b v) (hm : m < 2 ^ 53) (hi : i ≤ 900)
    (hv : (m : ℚ) * 2 ^ i ≤ v) : (m : ℚ) * 2 ^ i ≤ binary64.value b := by
  obtain ⟨c, hc, hvalue⟩ := exists_value hm hi
  rw [← hvalue] at hv ⊢
  exact value_strictMono.monotone (h.le_of_value hc.le hv)

end TableJson.Number.Format
