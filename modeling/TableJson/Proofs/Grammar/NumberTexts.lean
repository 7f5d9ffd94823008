import TableJson.Proofs.Grammar.Numbers
import TableJson.Proofs.Number.RoundTrip

/-!
# Number texts — what the texts of numbers read as

The text of an integer is a literal without fraction and exponent, and denotes the integer (`exists_literal_int`).
The text of a finite real is a literal with a fraction or an exponent, and reads back as that very real
(`exists_literal_real`).
-/

namespace TableJson.Grammar

open Number

/-! ## Integers -/

theorem integral_of_leading {ds : List Char} (h : Leading ds) : Integral ds := by
  obtain ⟨d, rest, rfl, hne⟩ := h.head
  exact .digits (h.digits d (List.mem_cons_self ..)) hne fun c hc => h.digits c (List.mem_cons_of_mem _ hc)

theorem integral_toDigits (n : Nat) : Integral (Nat.toDigits 10 n) := by
  rcases Nat.eq_zero_or_pos n with rfl | hn
  · exact .zero
  · exact integral_of_leading (leading_toDigits hn)

/-- The text of an integer: its sign, and the digits of its absolute value. -/
theorem intText_eq (i : Int) : intText i = (if i < 0 then ['-'] else []) ++ Nat.toDigits 10 i.natAbs := by
  unfold intText
  split
  · rfl
  · rw [List.nil_append, show i.toNat = i.natAbs by omega]

theorem exists_literal_int (i : Int) : ∃ l : Literal, l.text = intText i ∧ l.frac = [] ∧ l.exp = [] ∧
    l.sign = (if i < 0 then ['-'] else []) ∧ l.whole = i.natAbs := by
  refine ⟨⟨if i < 0 then ['-'] else [], Nat.toDigits 10 i.natAbs, [], [], ?_, integral_toDigits _, Or.inl rfl,
    Or.inl rfl⟩, ?_, rfl, rfl, rfl, digitsValue_toDigits _⟩
  · split
    · exact Or.inr rfl
    · exact Or.inl rfl
  · rw [intText_eq, Literal.text, List.append_nil, List.append_nil]

/-! ## Exponents -/

/-- What the digits and the sign after an exponent marker denote. -/
theorem splitSign_intText (i : Int) : splitSign (intText i) = (decide (i < 0), Nat.toDigits 10 i.natAbs) := by
  have hdigits : ∀ c ∈ Nat.toDigits 10 i.natAbs, c.isDigit = true := isDigit_of_mem_toDigits
  rw [intText_eq]
  by_cases h : i < 0
  · rw [if_pos h, splitSign_append (Or.inr (Or.inl rfl)) Nat.toDigits_ne_nil hdigits,
      decide_eq_true rfl, decide_eq_true h]
  · rw [if_neg h, splitSign_append (Or.inl rfl) Nat.toDigits_ne_nil hdigits, decide_eq_false h]
    rfl

theorem exponent_intText (i : Int) : Exponent ('e' :: intText i) := by
  rw [intText_eq]
  refine .marked (Or.inl rfl) ?_ Nat.toDigits_ne_nil isDigit_of_mem_toDigits
  split
  · exact Or.inr (Or.inl rfl)
  · exact Or.inl rfl

theorem exponent_eq {l : Literal} {i : Int} (h : l.exp = 'e' :: intText i) (hi : i.natAbs < Numeral.exponentLimit) :
    l.exponent = i := by
  have hvalue : Numeral.exponentValue (Nat.toDigits 10 i.natAbs) = i.natAbs := by
    rw [Numeral.exponentValue_eq_digitsValue (by rwa [digitsValue_toDigits]), digitsValue_toDigits]
  rw [Literal.exponent, h, List.drop_one, List.tail_cons, splitSign_intText]
  dsimp only
  rw [hvalue]
  split
  · rename_i hneg
    rw [decide_eq_true_eq] at hneg
    omega
  · rename_i hneg
    rw [decide_eq_true_eq] at hneg
    omega

theorem exponent_nil {l : Literal} (h : l.exp = []) : l.exponent = 0 := by
  rw [Literal.exponent, h]
  rfl

/-! ## Decimals -/

/-- The text stands for a decimal: it is that of a literal with a point or an exponent, of the same value. -/
def Writes (sign text : List Char) (d : Decimal) : Prop :=
  ∃ l : Literal, l.sign = sign ∧ l.text = sign ++ text ∧ ¬ (l.frac = [] ∧ l.exp = []) ∧
    (l.numeral.coefficient : ℚ) * 10 ^ l.numeral.exponent = d.value

section Decimals

variable {sign : List Char} {d : Decimal}

/-- A literal with a point whose digits are those of the decimal, up to zeros at both ends. -/
theorem writes_point (hsign : sign = [] ∨ sign = ['-']) {int frac : List Char} (hint : Integral int) (hsome : frac ≠ [])
    (hfrac : ∀ c ∈ frac, c.isDigit = true) (before after : Nat)
    (hdigits : int ++ frac = List.replicate before '0' ++ d.digits ++ List.replicate after '0')
    (hplace : d.exponent - d.digits.length = after - frac.length) : Writes sign (int ++ '.' :: frac) d := by
  let l : Literal := ⟨sign, int, '.' :: frac, [], hsign, hint, Or.inr (.point hsome hfrac), Or.inl rfl⟩
  have hexponent : l.exponent = 0 := exponent_nil rfl
  refine ⟨l, rfl, ?_, by simp [l], ?_⟩
  · simp [l, Literal.text]
  · have hcoefficient : l.numeral.coefficient =
        digitsValue (List.replicate before '0' ++ d.digits ++ List.replicate after '0') := congrArg digitsValue hdigits
    have hscale : l.numeral.exponent = -(frac.length : ℤ) := by
      rw [show l.numeral.exponent = l.exponent - frac.length from rfl, hexponent, zero_sub]
    rw [hcoefficient, hscale, digitsValue_append, digitsValue_append, digitsValue_replicate_zero,
      digitsValue_replicate_zero, List.length_replicate, Nat.mul_zero, Nat.zero_add, Nat.add_zero, Decimal.value,
      hplace, sub_eq_add_neg, zpow_add₀ (by norm_num), zpow_natCast]
    push_cast
    ring

theorem writes_positional (hsign : sign = [] ∨ sign = ['-']) (h : Leading d.digits) :
    Writes sign (d.positional ['.', '0']) d := by
  have hzero (n : Nat) : ∀ c ∈ List.replicate n '0', c.isDigit = true :=
    fun c hc => by rw [List.eq_of_mem_replicate hc]; rfl
  unfold Decimal.positional
  split
  · -- nothing before the point
    rename_i hexp
    refine writes_point hsign .zero ?_ ?_ ((-d.exponent).toNat + 1) 0 ?_ ?_
    · simp [h.ne_nil]
    · intro c hc
      exact (List.mem_append.1 hc).elim (hzero _ c) (h.digits c)
    · rw [List.replicate_succ, List.replicate_zero, List.append_nil]
      rfl
    · rw [List.length_append, List.length_replicate]
      omega
  · rename_i hexp
    split
    · -- nothing after the point
      rename_i hle
      obtain ⟨first, rest, hd, hne⟩ := h.head
      have hint : Integral (d.digits ++ List.replicate (d.exponent.toNat - d.digits.length) '0') := by
        refine integral_of_leading ⟨fun c hc => ?_, first, _, by rw [hd, List.cons_append], hne⟩
        exact (List.mem_append.1 hc).elim (h.digits c) (hzero _ c)
      refine writes_point hsign hint (List.cons_ne_nil _ _) (hzero 1) 0 (d.exponent.toNat - d.digits.length + 1) ?_ ?_
      · rw [List.replicate_succ', List.replicate_zero, List.nil_append, List.append_assoc]
      · rw [List.length_singleton]
        omega
    · -- the point among the digits
      rename_i hlt
      obtain ⟨first, rest, hd, hne⟩ := h.head
      have hint : Integral (d.digits.take d.exponent.toNat) := by
        obtain ⟨k, hk⟩ : ∃ k, d.exponent.toNat = k + 1 := ⟨d.exponent.toNat - 1, by omega⟩
        refine integral_of_leading ⟨fun c hc => h.digits c (List.mem_of_mem_take hc), first, rest.take k, ?_, hne⟩
        rw [hd, hk, List.take_succ_cons]
      refine writes_point hsign hint ?_ (fun c hc => h.digits c (List.mem_of_mem_drop hc)) 0 0 ?_ ?_
      · rw [Ne, List.drop_eq_nil_iff]
        omega
      · rw [List.take_append_drop, List.replicate_zero, List.nil_append, List.append_nil]
      · rw [List.length_drop]
        omega

theorem writes_scientific (hsign : sign = [] ∨ sign = ['-']) (h : Leading d.digits)
    (hexp : (d.exponent - 1).natAbs < Numeral.exponentLimit) : Writes sign d.scientific d := by
  obtain ⟨first, rest, hd, hne⟩ := h.head
  have hint : Integral (d.digits.take 1) := by
    rw [hd]
    exact integral_of_leading ⟨fun c hc => h.digits c (hd ▸ List.mem_of_mem_take hc), first, [], rfl, hne⟩
  have hfrac : (if (d.digits.drop 1).isEmpty then [] else '.' :: d.digits.drop 1) = [] ∨
      Fraction (if (d.digits.drop 1).isEmpty then [] else '.' :: d.digits.drop 1) := by
    split
    · exact Or.inl rfl
    · rename_i hsome
      exact Or.inr (.point (by simpa using hsome) fun c hc => h.digits c (List.mem_of_mem_drop hc))
  have hdrop : (if (d.digits.drop 1).isEmpty then [] else '.' :: d.digits.drop 1).drop 1 = d.digits.drop 1 := by
    split
    · rename_i hnone
      rw [List.isEmpty_iff.1 hnone, List.drop_nil]
    · rfl
  refine ⟨⟨sign, d.digits.take 1, _, _, hsign, hint, hfrac,
    Or.inr (exponent_intText (d.exponent - 1))⟩, rfl, ?_, by simp, ?_⟩
  · simp [Literal.text, Decimal.scientific]
  · have hexponent := exponent_eq
      (l := ⟨sign, d.digits.take 1, _, _, hsign, hint, hfrac, Or.inr (exponent_intText (d.exponent - 1))⟩) rfl hexp
    simp only [Literal.numeral, hexponent, hdrop, List.take_append_drop]
    have hlength : d.digits.length = (d.digits.drop 1).length + 1 := by rw [hd]; rfl
    rw [Decimal.value, hlength]
    push_cast
    rw [sub_sub, add_comm (1 : Int)]

theorem writes_text (hsign : sign = [] ∨ sign = ['-']) (h : Leading d.digits)
    (hexp : (d.exponent - 1).natAbs < Numeral.exponentLimit) : Writes sign d.text d := by
  unfold Decimal.text
  split
  · exact writes_positional hsign h
  · exact writes_scientific hsign h hexp

end Decimals

/-! ## Reals -/

/-- The text of a finite real reads back as the real. -/
theorem exists_literal_real {x : Binary64} (hx : x.isFinite = true) :
    ∃ l : Literal, l.text = x.text ∧ l.real = x ∧ ¬ (l.frac = [] ∧ l.exp = []) := by
  have hsign : (if x.negative then ['-'] else []) = [] ∨ (if x.negative then ['-'] else []) = ['-'] := by
    cases x.negative
    · exact Or.inl rfl
    · exact Or.inr rfl
  have hnegative {l : Literal} (h : l.sign = if x.negative then ['-'] else []) : l.numeral.negative = x.negative := by
    simp only [Literal.numeral, h]
    cases x.negative <;> rfl
  have hnan : x.isNaN = false := by
    simp only [Binary.isFinite, Binary.isNaN, decide_eq_true_eq, decide_eq_false_iff_not] at hx ⊢
    omega
  have htext : x.text = (if x.negative then ['-'] else []) ++
      if x.isZero then ['0', '.', '0'] else x.shortest.text := by
    simp only [Binary64.text, Binary64.textWith, hnan, hx, Bool.false_eq_true, if_false, Bool.not_true]
    split <;> rfl
  rw [htext]
  cases hzero : x.isZero with
  | true =>
    refine ⟨⟨_, ['0'], ['.', '0'], [], hsign, .zero, Or.inr (.point (List.cons_ne_nil _ _) (by simp)),
      Or.inl rfl⟩, ?_, ?_, ?_⟩
    · simp [Literal.text]
    · exact round_zero hzero (hnegative rfl) (digitsValue_replicate_zero 2)
    · simp
  | false =>
    obtain ⟨hlow, hhigh⟩ := exponent_bounds hx hzero
    have hlimit : Numeral.exponentLimit = 65536 := rfl
    obtain ⟨l, hl, htext, hreal, hvalue⟩ := writes_text hsign (shortest_spec hzero).2 (by rw [hlimit]; omega)
    exact ⟨l, htext, round_eq hx hzero (hnegative hl) hvalue, hreal⟩

end TableJson.Grammar
