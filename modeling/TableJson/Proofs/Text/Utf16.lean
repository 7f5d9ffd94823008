import TableJson.Text.Unescape

/-!
# UTF-16 — units and the characters they spell

A character below U+10000 is one unit, any other a pair of surrogates.  In a sequence of units a high surrogate and a
low one after it make a pair; every other surrogate is unpaired.

* `decode` reads units and puts U+FFFD for each unpaired surrogate.
* `Paired` says that there is none.
-/

namespace TableJson.Text.Utf16

/-- Half of a surrogate pair. -/
def isSurrogate (u : Nat) : Bool := isHighSurrogate u || isLowSurrogate u

/-- The units that spell a character. -/
def units (c : Char) : List Nat :=
  if c.toNat < 0x10000 then [c.toNat]
  else [0xD800 + (c.toNat - 0x10000) / 0x400, 0xDC00 + (c.toNat - 0x10000) % 0x400]

/-- The character of a unit that is not part of a pair. -/
def single (u : Nat) : Char := if isSurrogate u then '\uFFFD' else Char.ofNat u

/-- The characters that units spell. -/
def decode : List Nat → List Char
  | [] => []
  | [u] => [single u]
  | u :: v :: us =>
    if isHighSurrogate u && isLowSurrogate v then pairChar u v :: decode us else single u :: decode (v :: us)

/-- No surrogate is unpaired. -/
def Paired : List Nat → Prop
  | [] => True
  | [u] => isSurrogate u = false
  | u :: v :: us =>
    if isHighSurrogate u && isLowSurrogate v then Paired us else isSurrogate u = false ∧ Paired (v :: us)

/-! ## One character -/

theorem toNat_bounds (c : Char) : c.toNat < 0xD800 ∨ 0xDFFF < c.toNat ∧ c.toNat < 0x110000 := by
  rcases c.valid with h | h
  · exact Or.inl h
  · exact Or.inr h

theorem isSurrogate_toNat (c : Char) : isSurrogate c.toNat = false := by
  have := toNat_bounds c
  simp only [isSurrogate, isHighSurrogate, isLowSurrogate, Bool.or_eq_false_iff, decide_eq_false_iff_not]
  omega

theorem single_toNat (c : Char) : single c.toNat = c := by
  rw [single, isSurrogate_toNat]
  simp

/-- A pair of surrogates spells the character they were made from. -/
theorem pairChar_units {c : Char} (h : 0x10000 ≤ c.toNat) :
    pairChar (0xD800 + (c.toNat - 0x10000) / 0x400) (0xDC00 + (c.toNat - 0x10000) % 0x400) = c := by
  have hn : 0x10000 + (0xD800 + (c.toNat - 0x10000) / 0x400 - 0xD800) * 0x400 +
      (0xDC00 + (c.toNat - 0x10000) % 0x400 - 0xDC00) = c.toNat := by
    omega
  rw [pairChar, hn, Char.ofNat_toNat]

/-! ## Sequences of units -/

/-- The first unit is a low surrogate. -/
def StartsLow (us : List Nat) : Prop := ∃ u rest, us = u :: rest ∧ isLowSurrogate u = true

/-- A unit that pairs with nothing after it is read by itself. -/
theorem decode_cons {u : Nat} {us : List Nat} (h : isHighSurrogate u = true → ¬ StartsLow us) :
    decode (u :: us) = single u :: decode us := by
  cases us with
  | nil => rfl
  | cons v us =>
    have hf : ¬ (isHighSurrogate u && isLowSurrogate v) = true := by
      rw [Bool.and_eq_true]
      exact fun hb => h hb.1 ⟨v, us, rfl, hb.2⟩
    rw [decode, if_neg hf]

theorem paired_cons {u : Nat} {us : List Nat} (h : isHighSurrogate u = true → ¬ StartsLow us) :
    Paired (u :: us) ↔ isSurrogate u = false ∧ Paired us := by
  cases us with
  | nil => simp [Paired]
  | cons v us =>
    have hf : ¬ (isHighSurrogate u && isLowSurrogate v) = true := by
      rw [Bool.and_eq_true]
      exact fun hb => h hb.1 ⟨v, us, rfl, hb.2⟩
    rw [Paired, if_neg hf]

theorem decode_pair {u v : Nat} (hu : isHighSurrogate u = true) (hv : isLowSurrogate v = true) (us : List Nat) :
    decode (u :: v :: us) = pairChar u v :: decode us := by
  simp [decode, hu, hv]

theorem paired_pair {u v : Nat} (hu : isHighSurrogate u = true) (hv : isLowSurrogate v = true) (us : List Nat) :
    Paired (u :: v :: us) ↔ Paired us := by
  simp [Paired, hu, hv]

theorem not_startsLow_units (c : Char) (us : List Nat) : ¬ StartsLow (units c ++ us) := by
  rintro ⟨u, rest, he, hu⟩
  have := toNat_bounds c
  simp only [isLowSurrogate, decide_eq_true_eq] at hu
  unfold units at he
  split at he
  · obtain ⟨rfl, -⟩ := List.cons.inj he
    omega
  · obtain ⟨rfl, -⟩ := List.cons.inj he
    omega

/-- The units of a character are read as that character, whatever follows. -/
theorem decode_units_append (c : Char) (us : List Nat) : decode (units c ++ us) = c :: decode us := by
  have hb := toNat_bounds c
  unfold units
  split
  · have hs := isSurrogate_toNat c
    rw [isSurrogate, Bool.or_eq_false_iff] at hs
    rw [List.singleton_append, decode_cons (fun h => absurd h (by simp [hs.1])), single_toNat]
  · rw [List.cons_append, List.singleton_append, decode_pair, pairChar_units (by omega)]
    · simp only [isHighSurrogate, decide_eq_true_eq]
      omega
    · simp only [isLowSurrogate, decide_eq_true_eq]
      omega

theorem paired_units_append (c : Char) (us : List Nat) : Paired (units c ++ us) ↔ Paired us := by
  have hb := toNat_bounds c
  unfold units
  split
  · have hs := isSurrogate_toNat c
    have hh := hs
    rw [isSurrogate, Bool.or_eq_false_iff] at hh
    rw [List.singleton_append, paired_cons (fun h => absurd h (by simp [hh.1]))]
    simp [hs]
  · rw [List.cons_append, List.singleton_append, paired_pair]
    · simp only [isHighSurrogate, decide_eq_true_eq]
      omega
    · simp only [isLowSurrogate, decide_eq_true_eq]
      omega

end TableJson.Text.Utf16
