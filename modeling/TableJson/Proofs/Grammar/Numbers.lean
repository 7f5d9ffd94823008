import TableJson.Proofs.Grammar.NumberTable

/-!
# Values of numbers

A session keeps the parts of a number as bytes and reads them again.  It finds what the number denotes, and it finds
that unless the number is no integer that a word holds and lies beyond all finite reals (`scalar?_eq_some_iff`).
-/

namespace TableJson.Grammar

open Machine Utf8 Number

/-! ## Numerals -/

section Numeral

variable {sign int frac exp : List Char}

theorem splitSign_digit {d : Char} (hd : d.isDigit = true) (cs : List Char) :
    splitSign (d :: cs) = (false, d :: cs) := by
  unfold splitSign
  split
  · rename_i heq
    obtain ⟨rfl, -⟩ := List.cons.inj heq
    simp at hd
  · rename_i heq
    obtain ⟨rfl, -⟩ := List.cons.inj heq
    simp at hd
  · rfl

theorem Integral.all_digits (h : Integral int) : ∀ c ∈ int, c.isDigit = true := by
  cases h with
  | zero =>
    intro c hc
    obtain rfl := List.mem_singleton.1 hc
    rfl
  | digits first nonzero rest =>
    rintro c (_ | ⟨_, hc⟩)
    · exact first
    · exact rest c hc

theorem Integral.ne_nil (h : Integral int) : int ≠ [] := by cases h <;> simp

theorem takeWhile_digits {ds r : List Char} (hds : ∀ c ∈ ds, c.isDigit = true) (hr : Stops Char.isDigit r) :
    (ds ++ r).takeWhile Char.isDigit = ds := by
  rw [← takeChars_none _ 0]
  exact takeChars_of_stops hds hr

theorem dropWhile_digits {ds r : List Char} (hds : ∀ c ∈ ds, c.isDigit = true) (hr : Stops Char.isDigit r) :
    (ds ++ r).dropWhile Char.isDigit = r := by
  have h : (ds ++ r).takeWhile Char.isDigit ++ (ds ++ r).dropWhile Char.isDigit = ds ++ r :=
    List.takeWhile_append_dropWhile
  rw [takeWhile_digits hds hr] at h
  exact List.append_cancel_left h

theorem splitFraction_eq (hf : frac = [] ∨ Fraction frac) (he : exp = [] ∨ Exponent exp) :
    Numeral.splitFraction (frac ++ exp) = (frac.drop 1, exp) := by
  have hdigit : Stops Char.isDigit exp := by
    have := stops_exp (p := Char.isDigit) he ⟨rfl, rfl⟩ (stops_nil _)
    rwa [List.append_nil] at this
  rcases hf with rfl | ⟨hsome, hdigits⟩
  · rcases he with rfl | ⟨rfl | rfl, -, -, -⟩ <;> rfl
  · simp only [List.cons_append, Numeral.splitFraction, takeWhile_digits hdigits hdigit,
      dropWhile_digits hdigits hdigit]
    rfl

theorem splitSign_append {ds : List Char} (hs : sign = [] ∨ sign = ['-'] ∨ sign = ['+']) (hsome : ds ≠ [])
    (hdigits : ∀ c ∈ ds, c.isDigit = true) : splitSign (sign ++ ds) = (decide (sign = ['-']), ds) := by
  rcases hs with rfl | rfl | rfl
  · obtain ⟨d, ds, rfl⟩ := List.exists_cons_of_ne_nil hsome
    exact splitSign_digit (hdigits d (List.mem_cons_self ..)) ds
  · rfl
  · rfl

theorem readExponent?_eq (l : Literal) : Numeral.readExponent? l.exp = some l.exponent := by
  obtain ⟨sign, int, frac, exp, hs, hi, hf, he⟩ := l
  rcases he with rfl | @⟨e, esign, ds, marker, signed, hsome, hdigits⟩
  · rfl
  · have hall : ds.all Char.isDigit = true := List.all_eq_true.2 hdigits
    simp only [Numeral.readExponent?, Literal.exponent, List.drop_one, List.tail_cons,
      splitSign_append signed hsome hdigits]
    rw [if_pos ⟨marker, hsome, hall⟩]

theorem read?_text (l : Literal) : Numeral.read? l.text = some l.numeral := by
  have hexp := readExponent?_eq l
  obtain ⟨sign, int, frac, exp, hs, hi, hf, he⟩ := l
  have hdigit : Stops Char.isDigit (frac ++ exp) := by
    rcases hf with rfl | ⟨-, -⟩
    · have := stops_exp (p := Char.isDigit) he ⟨rfl, rfl⟩ (stops_nil _)
      rwa [List.append_nil] at this
    · exact stops_cons _ rfl
  have htext : sign ++ int ++ frac ++ exp = sign ++ (int ++ (frac ++ exp)) := by simp
  have hsplit : splitSign (sign ++ (int ++ (frac ++ exp))) = (decide (sign ≠ []), int ++ (frac ++ exp)) := by
    rcases hs with rfl | rfl
    · obtain ⟨d, ds, rfl⟩ := List.exists_cons_of_ne_nil hi.ne_nil
      exact splitSign_digit (hi.all_digits d (List.mem_cons_self ..)) _
    · rfl
  simp only [Literal.text, Numeral.read?, htext, hsplit, takeWhile_digits hi.all_digits hdigit,
    dropWhile_digits hi.all_digits hdigit, splitFraction_eq hf he]
  rw [if_neg (fun h => hi.ne_nil h.1)]
  simp only [hexp, Option.map_some]
  rfl

/-- A number starts with no word. -/
theorem special_read?_digit {d : Char} (hd : d.isDigit = true) (cs : List Char) : Special.read? (d :: cs) = none := by
  have hall : ∀ k < 58, 48 ≤ k → (Char.ofNat k).toLower = Char.ofNat k := by decide
  have hlower : d.toLower = d := by
    have h := isDigit_iff.1 hd
    have := hall d.toNat (by omega) h.1
    rwa [Char.ofNat_toNat] at this
  have hi : d ≠ 'i' := by rintro rfl; simp at hd
  have hn : d ≠ 'n' := by rintro rfl; simp at hd
  simp [Special.read?, hlower, hi, hn]

/-- The text of a number reads as the real nearest to it. -/
theorem binary_read?_text (l : Literal) : (Binary.read? l.text : Option Binary64) = some l.real := by
  have hsplit : ∃ negative d cs, d.isDigit = true ∧ splitSign l.text = (negative, d :: cs) := by
    obtain ⟨sign, int, frac, exp, hs, hi, hf, he⟩ := l
    obtain ⟨d, ds, rfl⟩ := List.exists_cons_of_ne_nil hi.ne_nil
    have hd := hi.all_digits d (List.mem_cons_self ..)
    rcases hs with rfl | rfl
    · exact ⟨false, d, ds ++ frac ++ exp, hd, splitSign_digit hd _⟩
    · exact ⟨true, d, ds ++ frac ++ exp, hd, rfl⟩
  obtain ⟨negative, d, cs, hd, hword⟩ := hsplit
  simp only [Binary.read?, hword, special_read?_digit hd, read?_text]
  rfl

end Numeral

/-! ## What a session finds -/

/-- A word holds the integer of a literal with a sign. -/
theorem Literal.toInt_signed {l : Literal} (hfits : l.FitsWord) (hsign : l.sign ≠ []) :
    (Int64.ofInt (-l.whole)).toInt = -l.whole := by
  obtain ⟨-, -, h⟩ := hfits
  have hwhole := (h.resolve_left fun h => hsign h.1).2
  exact Int64.toInt_ofInt_of_le (by omega) (by omega)

/-- ASCII characters are their bytes. -/
theorem chars_encode {cs : List Char} (h : ∀ c ∈ cs, c.toNat < 128) (o : Nat) :
    NumberParts.chars ⟨o, encode cs⟩ = cs := by
  have hall : ∀ k < 128, (String.utf8EncodeChar (Char.ofNat k)).map (fun b => Char.ofNat b.toNat) = [Char.ofNat k] := by
    decide
  show (encode cs).map (fun b => Char.ofNat b.toNat) = cs
  induction cs with
  | nil => rfl
  | cons c cs ih =>
    have hc := hall c.toNat (h c (List.mem_cons_self ..))
    rw [Char.ofNat_toNat] at hc
    rw [encode_cons, List.map_append, hc, ih fun d hd => h d (List.mem_cons_of_mem _ hd)]
    rfl

theorem isEmpty_encode (cs : List Char) : (encode cs).isEmpty = decide (cs = []) := by
  cases cs with
  | nil => rfl
  | cons c cs => simp [String.utf8EncodeChar_ne_nil]

theorem ascii_of_isDigit {c : Char} (h : c.isDigit = true) : c.toNat < 128 := by
  have := isDigit_iff.1 h
  omega

/-- The characters of a number are ASCII. -/
theorem Literal.ascii (l : Literal) : ∀ c ∈ l.text, c.toNat < 128 := by
  obtain ⟨sign, int, frac, exp, hs, hi, hf, he⟩ := l
  have hsign : ∀ c ∈ sign, c.toNat < 128 := by
    rcases hs with rfl | rfl <;> simp
  have hfrac : ∀ c ∈ frac, c.toNat < 128 := by
    rcases hf with rfl | ⟨-, hdigits⟩
    · simp
    · rintro c (_ | ⟨_, hc⟩)
      · decide
      · exact ascii_of_isDigit (hdigits c hc)
  have hexp : ∀ c ∈ exp, c.toNat < 128 := by
    rcases he with rfl | ⟨marker, signed, -, hdigits⟩
    · simp
    · rintro c (_ | ⟨_, hc⟩)
      · rcases marker with rfl | rfl <;> decide
      · rcases List.mem_append.1 hc with hc | hc
        · rcases signed with rfl | rfl | rfl
          · simp at hc
          · obtain rfl := List.mem_singleton.1 hc
            decide
          · obtain rfl := List.mem_singleton.1 hc
            decide
        · exact ascii_of_isDigit (hdigits c hc)
  intro c hc
  simp only [Literal.text, List.mem_append] at hc
  rcases hc with ((hc | hc) | hc) | hc
  · exact hsign c hc
  · exact ascii_of_isDigit (hi.all_digits c hc)
  · exact hfrac c hc
  · exact hexp c hc

/-- The parts of a number, as a session keeps them. -/
def Literal.parts (l : Literal) (o : Nat) : NumberParts where
  sign := ⟨o, encode l.sign⟩
  integral := ⟨o + size l.sign, encode l.integral⟩
  frac := ⟨o + size (l.sign ++ l.integral), encode l.frac⟩
  exp := ⟨o + size (l.sign ++ l.integral ++ l.frac), encode l.exp⟩

theorem Literal.literal_parts (l : Literal) (o : Nat) : (l.parts o).literal = l.text := by
  have hascii := l.ascii
  simp only [Literal.text, List.mem_append] at hascii
  simp only [NumberParts.literal, Literal.parts, Literal.text]
  rw [chars_encode fun c hc => hascii c (Or.inl (Or.inl (Or.inl hc))),
    chars_encode fun c hc => hascii c (Or.inl (Or.inl (Or.inr hc))),
    chars_encode fun c hc => hascii c (Or.inl (Or.inr hc)), chars_encode fun c hc => hascii c (Or.inr hc)]

/-- What a session makes of a number. -/
theorem scalar?_eq_some_iff (l : Literal) (o : Nat) (v : Scalar) :
    (l.parts o).scalar? = some v ↔ l.Representable ∧ v = l.scalar := by
  have hwhole : digitsValue (NumberParts.chars (l.parts o).integral) = l.whole := by
    rw [Literal.parts, chars_encode fun c hc => ascii_of_isDigit (l.isIntegral.all_digits c hc), Literal.whole]
  simp only [NumberParts.scalar?, hwhole, l.literal_parts, binary_read?_text]
  simp only [Literal.parts, isEmpty_encode, Bool.and_eq_true, Bool.not_eq_true', decide_eq_true_eq,
    decide_eq_false_iff_not, Literal.Representable, Literal.scalar]
  by_cases hfits : l.FitsWord
  · rw [if_pos hfits]
    obtain ⟨hf, he, ⟨hs, hw⟩ | ⟨hs, hw⟩⟩ := id hfits
    · rw [if_pos ⟨⟨⟨hf, he⟩, hs⟩, hw⟩, if_pos hs, Option.some.injEq]
      exact ⟨fun h => ⟨fun hn => absurd hfits hn, h.symm⟩, fun h => h.2.symm⟩
    · rw [if_neg (fun h => hs h.1.2), if_pos ⟨⟨⟨hf, he⟩, hs⟩, hw⟩, if_neg hs, Option.some.injEq]
      exact ⟨fun h => ⟨fun hn => absurd hfits hn, h.symm⟩, fun h => h.2.symm⟩
  · rw [if_neg fun h => hfits ⟨h.1.1.1, h.1.1.2, Or.inl ⟨h.1.2, h.2⟩⟩,
      if_neg fun h => hfits ⟨h.1.1.1, h.1.1.2, Or.inr ⟨h.1.2, h.2⟩⟩, if_neg hfits]
    by_cases hfinite : l.real.isFinite = true
    · rw [if_pos hfinite, Option.some.injEq]
      exact ⟨fun h => ⟨fun _ => hfinite, h.symm⟩, fun h => h.2.symm⟩
    · rw [if_neg hfinite]
      exact ⟨fun h => by simp at h, fun h => absurd (h.1 hfits) hfinite⟩

end TableJson.Grammar
