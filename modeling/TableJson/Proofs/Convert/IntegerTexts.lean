import TableJson.Proofs.Convert.Truncating
import TableJson.Proofs.Grammar.Numbers
import TableJson.Proofs.Number.Shortest

/-!
# Texts of integers — the integers that they become

A text of a sign and digits is read twice.  It is read as an integer of any size first, and if that does not fit the
width, as a real, which is rounded.  The bounds of the widths are powers of two, so that rounding carries hardly any
integer across them: next to the least integer of 64 bits the reals are 2048 apart, and the 1024 integers below it are
rounded onto it (`Carried`).  All others become what they denote, or nothing (`fetch_integerText`).
-/

namespace TableJson

open Number Format

/-- A text of an optional sign and digits, and the integer that it denotes. -/
inductive IntegerText : List Char → ℤ → Prop where
  | plain {ds : List Char} (hsome : ds ≠ []) (hdigits : ∀ d ∈ ds, d.isDigit = true) :
      IntegerText ds (Nat.ofDigitChars 10 ds 0)
  | plus {ds : List Char} (hsome : ds ≠ []) (hdigits : ∀ d ∈ ds, d.isDigit = true) :
      IntegerText ('+' :: ds) (Nat.ofDigitChars 10 ds 0)
  | minus {ds : List Char} (hsome : ds ≠ []) (hdigits : ∀ d ∈ ds, d.isDigit = true) :
      IntegerText ('-' :: ds) (-Nat.ofDigitChars 10 ds 0)

/-- The integers that are rounded onto the least integer of a width. -/
def Carried (w : IntWidth) (z : ℤ) : Prop := w = ⟨true, 64⟩ ∧ w.least - 1024 ≤ z ∧ z < w.least

/-! ## Reading -/

section Reading

variable {cs : List Char} {z : ℤ}

/-- The integer of a sign and a size. -/
theorem IntegerText.split (h : IntegerText cs z) : ∃ negative ds, splitSign cs = (negative, ds) ∧ ds ≠ [] ∧
    (∀ d ∈ ds, d.isDigit = true) ∧ z = if negative = true then -(digitsValue ds : ℤ) else digitsValue ds := by
  simp only [digitsValue_eq_ofDigitChars]
  cases h with
  | @plain ds hsome hdigits =>
    obtain ⟨d, ds, rfl⟩ := List.exists_cons_of_ne_nil hsome
    exact ⟨false, d :: ds, Grammar.splitSign_digit (hdigits d (List.mem_cons_self ..)) ds, hsome, hdigits, rfl⟩
  | @plus ds hsome hdigits => exact ⟨false, ds, rfl, hsome, hdigits, rfl⟩
  | @minus ds hsome hdigits => exact ⟨true, ds, rfl, hsome, hdigits, rfl⟩

theorem numeral_read?_digits {ds : List Char} {negative : Bool} (hsign : splitSign cs = (negative, ds))
    (hsome : ds ≠ []) (hdigits : ∀ d ∈ ds, d.isDigit = true) :
    Numeral.read? cs = some ⟨negative, digitsValue ds, 0⟩ := by
  have hwhole := Grammar.takeWhile_digits hdigits (Grammar.stops_nil _)
  have hrest := Grammar.dropWhile_digits hdigits (Grammar.stops_nil _)
  rw [List.append_nil] at hwhole hrest
  simp only [Numeral.read?, hsign, hwhole, hrest, Numeral.splitFraction, hsome, false_and, if_false, List.append_nil]
  rfl

/-- What the two readings find. -/
theorem IntegerText.readings (h : IntegerText cs z) : readInt? cs = some z ∧ ∃ negative, ∃ n : ℕ,
    z = (if negative = true then -(n : ℤ) else n) ∧
    Binary.read? cs = some (Numeral.round ⟨negative, n, 0⟩ : Binary64) := by
  obtain ⟨negative, ds, hsign, hsome, hdigits, rfl⟩ := h.split
  refine ⟨?_, negative, digitsValue ds, rfl, ?_⟩
  · have hall : ds ≠ [] ∧ ds.all Char.isDigit = true := ⟨hsome, List.all_eq_true.2 hdigits⟩
    simp only [readInt?, hsign, readDigits?, if_pos hall]
    rfl
  · obtain ⟨d, ds', rfl⟩ := List.exists_cons_of_ne_nil hsome
    have hword := Grammar.special_read?_digit (hdigits d (List.mem_cons_self ..)) ds'
    simp only [Binary.read?, hsign, hword, numeral_read?_digits hsign hsome hdigits, Option.map_some]

/-- Only a zero may keep a sign that the integer does not have. -/
theorem rounded_round {negative : Bool} {n : ℕ} (hz : z = if negative = true then -(n : ℤ) else n) (hzero : z ≠ 0) :
    Rounded z (Numeral.round ⟨negative, n, 0⟩) := by
  have hnear := magnitude_isNearest ⟨negative, n, 0⟩
  rw [zpow_zero, mul_one] at hnear
  obtain ⟨hsign, hmagnitude⟩ := parts_round ⟨negative, n, 0⟩
  rw [← hmagnitude] at hnear
  cases negative
  · rw [if_neg Bool.false_ne_true] at hz
    refine ⟨?_, hsign.trans (decide_eq_false (by omega)).symm⟩
    rwa [hz, Int.cast_natCast, Nat.abs_cast]
  · rw [if_pos rfl] at hz
    refine ⟨?_, hsign.trans (decide_eq_true (by omega)).symm⟩
    rwa [hz, Int.cast_neg, abs_neg, Int.cast_natCast, Nat.abs_cast]

/-- Where the first reading does not fit, the second one decides. -/
theorem IntegerText.ofText?_outside {w : IntWidth} (h : IntegerText cs z) (hout : ¬(w.least ≤ z ∧ z ≤ w.greatest)) :
    ∃ x, Rounded z x ∧ (SizedInt.ofText? cs : Option (SizedInt w)) = SizedInt.ofReal? x := by
  obtain ⟨hint, negative, n, hz, hreal⟩ := h.readings
  have hzero : z ≠ 0 := by
    rintro rfl
    exact hout ⟨w.least_le_zero, w.zero_le_greatest⟩
  refine ⟨_, rounded_round hz hzero, ?_⟩
  have hnone : (SizedInt.ofInt? z : Option (SizedInt w)) = none := dif_neg hout
  rw [SizedInt.ofText?, hint, Option.bind_some, hnone, hreal]
  rfl

end Reading

/-! ## Beyond the bounds -/

section Bounds

variable {w : IntWidth} {z : ℤ} {x : Binary64}

/-- An integer above the greatest one is not rounded to less than the one after it. -/
theorem Number.Rounded.none_above (h : Rounded z x) (hbits : w.bits ≤ 64) (hz : w.greatest < z) :
    (SizedInt.ofReal? x : Option (SizedInt w)) = none := by
  obtain ⟨hnear, hx⟩ := h.above (w.zero_le_greatest.trans hz.le)
  obtain ⟨k, hk, hpow⟩ := w.greatest_succ
  have hbound : (w.greatest : ℚ) + 1 = (1 : ℕ) * 2 ^ k := by
    rw [Nat.cast_one, one_mul]
    exact_mod_cast hpow
  have hle : (w.greatest : ℚ) + 1 ≤ z := by exact_mod_cast hz
  refine SizedInt.ofReal?_eq_none_of_le ?_
  rw [hx, hbound]
  exact hnear.exact_le (by norm_num) (by omega) (hbound ▸ hle)

/-- An integer below the least one is rounded to less than it, as long as all integers there are reals. -/
theorem Number.Rounded.none_below (h : Rounded z x) (hleast : -2 ^ 52 < w.least) (hz : z < w.least) :
    (SizedInt.ofReal? x : Option (SizedInt w)) = none := by
  have hzero := w.least_le_zero
  obtain ⟨hnear, hx⟩ := h.below (hz.trans_le hzero)
  obtain ⟨m, hm⟩ := Int.eq_ofNat_of_zero_le (show 0 ≤ 1 - w.least by omega)
  have hbound : 1 - (w.least : ℚ) = m * 2 ^ 0 := by
    rw [pow_zero, mul_one]
    exact_mod_cast hm
  have hle : 1 - (w.least : ℚ) ≤ (-z : ℤ) := by exact_mod_cast (by omega : 1 - w.least ≤ -z)
  have hrounded := hnear.exact_le (by omega) (by omega) (hbound ▸ hle)
  refine SizedInt.ofReal?_eq_none_of_lt ?_
  rw [hx]
  linarith

/-! ## Below the least integer of 64 bits -/

/-- The magnitude of the least integer of 64 bits. -/
def leastMagnitude : ℕ := 1086 * 2 ^ 52

theorem value_leastMagnitude : binary64.value leastMagnitude = 2 ^ 63 := by
  have hscaled : binary64.scaled leastMagnitude = (2 ^ 52, 11) := by decide
  rw [value, hscaled]
  norm_num

theorem value_succ_leastMagnitude : binary64.value (leastMagnitude + 1) = 2 ^ 63 + 2 ^ 11 := by
  have hscaled : binary64.scaled (leastMagnitude + 1) = (2 ^ 52 + 1, 11) := by decide
  rw [value, hscaled]
  norm_num

theorem succ_leastMagnitude_lt : leastMagnitude + 1 < binary64.infinity := by decide

theorem least_signed : IntWidth.least ⟨true, 64⟩ = -2 ^ 63 := by decide

/-- Up to half a step below the least integer, an integer is rounded onto it. -/
theorem Number.Rounded.least_of_carried (h : Rounded z x) (hlow : -2 ^ 63 - 1024 ≤ z) (hz : z < -2 ^ 63) :
    ∃ i : SizedInt ⟨true, 64⟩, SizedInt.ofReal? x = some i ∧ i.val = IntWidth.least ⟨true, 64⟩ := by
  obtain ⟨hnear, hx⟩ := h.below (by omega)
  have hlow : (-2 ^ 63 - 1024 : ℚ) ≤ z := by exact_mod_cast hlow
  have hz : (z : ℚ) < -2 ^ 63 := by exact_mod_cast hz
  have hmagnitude : x.magnitude = leastMagnitude := by
    refine hnear.eq_of_middle succ_leastMagnitude_lt.le (by decide) ?_ ?_
    · rw [value_leastMagnitude]
      push_cast
      linarith
    · rw [value_leastMagnitude, value_succ_leastMagnitude]
      push_cast
      linarith
  have htoRat : x.toRat = (-2 ^ 63 : ℤ) := by
    rw [hx, hmagnitude, value_leastMagnitude]
    norm_num
  have hgreatest : IntWidth.least ⟨true, 64⟩ ≤ IntWidth.greatest ⟨true, 64⟩ := by decide
  refine ⟨⟨IntWidth.least ⟨true, 64⟩, le_refl _, hgreatest⟩, SizedInt.ofReal?_eq_some_iff.2 ⟨?_, ?_, ?_, ?_⟩, rfl⟩
  · rw [Binary.isFinite, hmagnitude]
    exact decide_eq_true ((Nat.lt_succ_self _).trans succ_leastMagnitude_lt)
  · rw [htoRat, least_signed]
  · rw [htoRat, truncate_intCast, ← least_signed]
    exact hgreatest
  · rw [htoRat, truncate_intCast]
    exact least_signed

/-- Further below it is not. -/
theorem Number.Rounded.none_of_farBelow (h : Rounded z x) (hz : z < -2 ^ 63 - 1024) :
    (SizedInt.ofReal? x : Option (SizedInt ⟨true, 64⟩)) = none := by
  obtain ⟨hnear, hx⟩ := h.below (by omega)
  have hz : (z : ℚ) < -2 ^ 63 - 1024 := by exact_mod_cast hz
  have hlt : leastMagnitude < x.magnitude := by
    refine hnear.lt_of_middle succ_leastMagnitude_lt.le ?_
    rw [value_leastMagnitude, value_succ_leastMagnitude]
    push_cast
    linarith
  have hvalue := value_strictMono (f := binary64) hlt
  rw [value_leastMagnitude] at hvalue
  refine SizedInt.ofReal?_eq_none_of_lt ?_
  rw [hx, least_signed]
  push_cast
  linarith

/-! ## Conversions -/

/-- Only the signed integers of 64 bits reach so far down that not all integers there are reals. -/
theorem IntWidth.machine_bounds {w : IntWidth} (h : w ∈ machine) :
    w.bits ≤ 64 ∧ (w = ⟨true, 64⟩ ∨ -2 ^ 52 < w.least) := by
  have hall : ∀ w ∈ machine, w.bits ≤ 64 ∧ (w = ⟨true, 64⟩ ∨ -2 ^ 52 < w.least) := by decide
  exact hall w h

/-- What does not fit and is not carried becomes nothing. -/
theorem Number.Rounded.none (h : Rounded z x) (hw : w ∈ IntWidth.machine) (hout : ¬(w.least ≤ z ∧ z ≤ w.greatest))
    (hcarried : ¬Carried w z) : (SizedInt.ofReal? x : Option (SizedInt w)) = none := by
  obtain ⟨hbits, hleast⟩ := IntWidth.machine_bounds hw
  rcases lt_or_ge w.greatest z with habove | hfits
  · exact h.none_above hbits habove
  · have hbelow : z < w.least := not_le.1 fun hle => hout ⟨hle, hfits⟩
    rcases hleast with rfl | hleast
    · have hfar : z < IntWidth.least ⟨true, 64⟩ - 1024 := not_le.1 fun hle => hcarried ⟨rfl, hle, hbelow⟩
      rw [least_signed] at hfar
      exact h.none_of_farBelow hfar
    · exact h.none_below hleast hbelow

end Bounds

/-- The text of an integer becomes this integer if it fits the width, and nothing if it does not, unless it is carried
onto the least integer. -/
theorem Value.fetch_integerText {w : IntWidth} (hw : w ∈ IntWidth.machine) {s : String} {z : ℤ}
    (h : IntegerText (Text.trim s.toList) z) :
    (¬Carried w z → (Value.string s).fetch (SizedInt w) =
      if hfits : w.least ≤ z ∧ z ≤ w.greatest then some ⟨z, hfits.1, hfits.2⟩ else none) ∧
    (Carried w z → ∃ i, (Value.string s).fetch (SizedInt w) = some i ∧ i.val = w.least ∧ i.val ≠ z) := by
  change (_ → SizedInt.ofText? _ = SizedInt.ofInt? z) ∧ (_ → ∃ i, SizedInt.ofText? _ = some i ∧ _)
  constructor
  · intro hcarried
    by_cases hfits : w.least ≤ z ∧ z ≤ w.greatest
    · have hint : (SizedInt.ofInt? z : Option (SizedInt w)) = some ⟨z, hfits.1, hfits.2⟩ := dif_pos hfits
      rw [SizedInt.ofText?, h.readings.1, Option.bind_some, hint]
    · obtain ⟨x, hrounded, htext⟩ := h.ofText?_outside hfits
      rw [htext, hrounded.none hw hfits hcarried, SizedInt.ofInt?, dif_neg hfits]
  · rintro ⟨rfl, hlow, hbelow⟩
    obtain ⟨x, hrounded, htext⟩ := h.ofText?_outside fun hfits => not_le.2 hbelow hfits.1
    rw [least_signed] at hlow hbelow
    obtain ⟨i, hi, hval⟩ := hrounded.least_of_carried hlow hbelow
    refine ⟨i, htext.trans hi, hval, ?_⟩
    rw [hval, least_signed]
    exact hbelow.ne'

/-- Half a step below the least integer of 64 bits, between blanks. -/
theorem Value.fetch_integerText_half : ⟨true, 64⟩ ∈ IntWidth.machine ∧
    IntegerText (Text.trim " -9223372036854776832\n".toList) (-9223372036854776832) ∧
    ∃ i, (Value.string " -9223372036854776832\n").fetch (SizedInt ⟨true, 64⟩) = some i ∧
      i.val = -9223372036854775808 ∧ i.val ≠ -9223372036854776832 := by
  have hw : ⟨true, 64⟩ ∈ IntWidth.machine := by decide
  have htext : IntegerText (Text.trim " -9223372036854776832\n".toList) (-9223372036854776832) :=
    @IntegerText.minus "9223372036854776832".toList (by decide) (Grammar.forall_mem_of_all (by decide))
  exact ⟨hw, htext, (Value.fetch_integerText hw htext).2 ⟨rfl, by decide, by decide⟩⟩

/-- One below the least integer of 64 bits becomes the least one. -/
theorem Value.fetch_integerText_carried :
    ((Value.string "-9223372036854775809").fetch (SizedInt ⟨true, 64⟩)).map SizedInt.val =
      some (-9223372036854775808) ∧
    IntegerText (Text.trim "-9223372036854775809".toList) (-9223372036854775809) ∧
    ¬IntWidth.least ⟨true, 64⟩ ≤ -9223372036854775809 := by
  refine ⟨by decide +kernel, ?_, by decide⟩
  exact @IntegerText.minus "9223372036854775809".toList (by decide) (Grammar.forall_mem_of_all (by decide))

end TableJson
