import TableJson.Number.Numeral
import TableJson.Number.Text
import TableJson.Proofs.Number.Rounding

/-!
# Shortest digits — what is written for a magnitude

The digits that `shortest` finds denote a number in the window of the magnitude (`shortest_near`), so that they round
back to it, and start with a digit other than zero, as those of every positive integer do.
-/

namespace TableJson.Number

/-! ## Digits -/

theorem digitsValue_eq_ofDigitChars (ds : List Char) : digitsValue ds = Nat.ofDigitChars 10 ds 0 :=
  digitsValue_eq_foldl ds

@[simp] theorem digitsValue_toDigits (n : ℕ) : digitsValue (Nat.toDigits 10 n) = n := by
  rw [digitsValue_eq_ofDigitChars, Nat.ofDigitChars_ten_toDigits]

theorem digitsValue_append (ds es : List Char) :
    digitsValue (ds ++ es) = 10 ^ es.length * digitsValue ds + digitsValue es := by
  simp only [digitsValue_eq_ofDigitChars]
  rw [Nat.ofDigitChars_append, Nat.ofDigitChars_eq_ofDigitChars_zero]

theorem digitsValue_singleton (d : Char) : digitsValue [d] = d.toNat - 48 := by
  rw [digitsValue_eq_foldl]
  show 10 * 0 + digitValue d = d.toNat - 48
  rw [Nat.mul_zero, Nat.zero_add]
  rfl

theorem digitsValue_replicate_zero (n : ℕ) : digitsValue (List.replicate n '0') = 0 := by
  rw [digitsValue_eq_ofDigitChars, Nat.ofDigitChars_replicate_zero, Nat.mul_zero]

/-- Decimal digits, the first of which is not zero. -/
structure Leading (ds : List Char) : Prop where
  digits : ∀ c ∈ ds, c.isDigit = true
  head : ∃ d rest, ds = d :: rest ∧ d ≠ '0'

theorem Leading.ne_nil {ds : List Char} (h : Leading ds) : ds ≠ [] := by
  obtain ⟨d, rest, rfl, -⟩ := h.head
  exact List.cons_ne_nil _ _

theorem isDigit_of_mem_toDigits {n : ℕ} : ∀ c ∈ Nat.toDigits 10 n, c.isDigit = true := fun _ hc =>
  Nat.isDigit_of_mem_toDigits (by decide) (by decide) hc

theorem leading_toDigits {n : ℕ} (hn : 0 < n) : Leading (Nat.toDigits 10 n) := by
  refine ⟨isDigit_of_mem_toDigits, ?_⟩
  induction n using Nat.strong_induction_on with
  | _ n ih =>
    rw [Nat.toDigits_eq_if (by decide)]
    split
    · rename_i hlt
      have hall : ∀ k < 10, 0 < k → k.digitChar ≠ '0' := by decide
      exact ⟨_, [], rfl, hall n hlt hn⟩
    · rename_i hge
      obtain ⟨d, rest, hd, hne⟩ := ih (n / 10) (by omega) (by omega)
      exact ⟨d, rest ++ [(n % 10).digitChar], by rw [hd, List.cons_append], hne⟩

/-- So many digits denote no larger number. -/
theorem digitsValue_lt {ds : List Char} (h : ∀ c ∈ ds, c.isDigit = true) : digitsValue ds < 10 ^ ds.length := by
  induction ds using List.reverseRecOn with
  | nil => simp [digitsValue_eq_foldl]
  | append_singleton ds d ih =>
    have hd := h d (by simp)
    have hds := ih fun c hc => h c (List.mem_append_left _ hc)
    have hval : digitsValue [d] < 10 := by
      have : 48 ≤ d.toNat ∧ d.toNat ≤ 57 := Char.isDigit_iff_toNat.1 hd
      rw [digitsValue_singleton]
      omega
    rw [digitsValue_append, List.length_append, List.length_singleton, pow_succ]
    omega

/-- The bounds that the number of digits gives. -/
theorem Leading.bounds {ds : List Char} (h : Leading ds) :
    10 ^ (ds.length - 1) ≤ digitsValue ds ∧ digitsValue ds < 10 ^ ds.length := by
  obtain ⟨d, rest, rfl, hne⟩ := h.head
  refine ⟨?_, digitsValue_lt h.digits⟩
  have hd : 1 ≤ digitsValue [d] := by
    have : 48 ≤ d.toNat ∧ d.toNat ≤ 57 := Char.isDigit_iff_toNat.1 (h.digits d (List.mem_cons_self ..))
    have hzero : d.toNat ≠ 48 := fun h => hne (Char.toNat_inj.1 h)
    rw [digitsValue_singleton]
    omega
  have := digitsValue_append [d] rest
  rw [List.singleton_append] at this
  rw [this, List.length_cons, Nat.add_sub_cancel]
  nlinarith [Nat.pos_of_ne_zero (pow_ne_zero rest.length (by decide : (10 : ℕ) ≠ 0))]

/-- Zeros at the end of a number shift its digits. -/
theorem stripZeros_spec (fuel : ℕ) {k : ℕ} (hk : 0 < k) :
    ∃ j, k = stripZeros fuel k * 10 ^ j ∧
      (Nat.toDigits 10 k).length = (Nat.toDigits 10 (stripZeros fuel k)).length + j := by
  induction fuel generalizing k with
  | zero => exact ⟨0, by simp [stripZeros], rfl⟩
  | succ fuel ih =>
    unfold stripZeros
    split
    · rename_i hzero
      obtain ⟨j, hj, hlen⟩ := ih (show 0 < k / 10 by omega)
      refine ⟨j + 1, ?_, ?_⟩
      · rw [pow_succ, ← Nat.mul_assoc, ← hj]
        omega
      · rw [Nat.toDigits_of_base_le (by decide) (show 10 ≤ k by omega), List.length_append, hlen, List.length_singleton]
        omega
    · exact ⟨0, by simp, rfl⟩

/-! ## What the search finds -/

/-- The number that digits and a power of ten denote. -/
def Decimal.value (d : Decimal) : ℚ := digitsValue d.digits * 10 ^ (d.exponent - d.digits.length)

namespace Window

theorem contains_of_hit? {w : Window} {place : ℤ} {k : ℕ} (h : w.hit? place = some k) :
    w.contains (k * 10 ^ place.toNat) (10 ^ (-place).toNat) = true := by
  unfold hit? at h
  dsimp only at h
  split at h
  · rename_i habove
    obtain rfl := Option.some.inj h
    exact habove.1
  · split at h
    · rename_i hbelow
      obtain rfl := Option.some.inj h
      exact hbelow
    · simp at h

theorem contains_of_search {w : Window} {tries : ℕ} {place : ℤ} {found : ℕ × ℤ}
    (h : w.search tries place = some found) :
    w.contains (found.1 * 10 ^ found.2.toNat) (10 ^ (-found.2).toNat) = true := by
  induction tries generalizing place with
  | zero => simp [search] at h
  | succ tries ih =>
    unfold search at h
    split at h
    · rename_i hhit
      obtain rfl := Option.some.inj h
      exact contains_of_hit? hhit
    · exact ih h

variable {m : ℕ} {e : ℤ} {narrow : Bool}

theorem full_eq (m : ℕ) (e : ℤ) (narrow : Bool) :
    ((of m e narrow).full.1 : ℚ) * 10 ^ (of m e narrow).full.2 = m * 2 ^ e := by
  have hlog : Nat.log2 (of m e narrow).den = 2 + (-e).toNat := by
    rw [of, show 4 * 2 ^ (-e).toNat = 2 ^ (2 + (-e).toNat) by rw [pow_add]; rfl, Nat.log2_two_pow]
  have hvalue : ((of m e narrow).value : ℚ) / (of m e narrow).den = m * 2 ^ e := value_div_den
  rw [full, ← hvalue, hlog, zpow_neg, zpow_natCast, show (10 : ℚ) = 5 * 2 by norm_num, mul_pow]
  have hden : ((of m e narrow).den : ℚ) = 2 ^ (2 + (-e).toNat) := by
    rw [of, pow_add]
    norm_num
  rw [hden]
  push_cast
  field_simp

theorem Near.pos {v : ℚ} (hm : 0 < m) (h : Near m e narrow v) : 0 < v := by
  have hpos : (0 : ℚ) < 2 ^ e := zpow_pos two_pos e
  have hm' : (1 : ℚ) ≤ m := by exact_mod_cast hm
  refine lt_of_lt_of_le ?_ h.low
  rw [lowEnd]
  refine mul_pos ?_ hpos
  split_ifs <;> linarith

/-- The point that is chosen on a decimal grid lies in the window. -/
theorem near_chosen (hm : 0 < m) (e : ℤ) (narrow : Bool) (tries : ℕ) (place : ℤ) :
    Near m e narrow
      ((((of m e narrow).search tries place).getD (of m e narrow).full).1 *
        10 ^ (((of m e narrow).search tries place).getD (of m e narrow).full).2) := by
  cases hsearch : (of m e narrow).search tries place with
  | none =>
    rw [Option.getD_none, full_eq]
    exact near_self m e narrow
  | some found =>
    have h := near_of_contains hm (Nat.pow_pos (by decide)) (contains_of_search hsearch)
    rw [Option.getD_some, zpow_eq_div 10]
    push_cast at h
    rwa [mul_div_assoc] at h

end Window

open Window

/-- Digits without the zeros at the end, and with the point put back where it was. -/
theorem stripped_digits {k : ℕ} (hk : 0 < k) (place : ℤ) :
    Decimal.value ⟨Nat.toDigits 10 (stripZeros (Nat.toDigits 10 k).length k), place + (Nat.toDigits 10 k).length⟩ =
        k * 10 ^ place ∧
      Leading (Nat.toDigits 10 (stripZeros (Nat.toDigits 10 k).length k)) := by
  obtain ⟨j, hj, hlen⟩ := stripZeros_spec (Nat.toDigits 10 k).length hk
  generalize stripZeros (Nat.toDigits 10 k).length k = stripped at hj hlen
  have hpos : 0 < stripped := Nat.pos_of_ne_zero fun h => by
    rw [h, Nat.zero_mul] at hj
    omega
  refine ⟨?_, leading_toDigits hpos⟩
  have hexp : place + ((Nat.toDigits 10 k).length : ℤ) - (Nat.toDigits 10 stripped).length = place + j := by
    rw [hlen]
    push_cast
    ring
  rw [Decimal.value, digitsValue_toDigits, hexp, zpow_add₀ (by norm_num), zpow_natCast, hj]
  push_cast
  ring

/-- The shortest digits denote a number in the window, and start with a digit other than zero. -/
theorem shortest_near {m : ℕ} (hm : 0 < m) (e : ℤ) (narrow : Bool) :
    Near m e narrow (shortest m e narrow).value ∧ Leading (shortest m e narrow).digits := by
  have hnear := near_chosen hm e narrow 17 (decimalExponent (of m e narrow).value (of m e narrow).den - 1)
  unfold shortest
  dsimp only
  generalize ((of m e narrow).search 17 (decimalExponent (of m e narrow).value (of m e narrow).den - 1)).getD
    (of m e narrow).full = found at hnear
  have hk : 0 < found.1 := by
    have := (mul_pos_iff_of_pos_right (zpow_pos (by norm_num) _)).1 (hnear.pos hm)
    exact_mod_cast this
  obtain ⟨hvalue, hleading⟩ := stripped_digits hk found.2
  rw [hvalue]
  exact ⟨hnear, hleading⟩

end TableJson.Number
