import TableJson.Proofs.Grammar.Lexing

/-!
# Values of strings

A session unescapes the body of a string.  It finds the characters that the UTF-16 units of the string spell, and it
finds them unless a surrogate is unpaired and may not be replaced (`decode?_eq_some_iff`).  A body without a backslash
is not walked through, which makes no difference (`unescape?_eq_unescapeWithin`).
-/

namespace TableJson.Grammar

open Machine Utf8 Text

/-! ## Escapes of units -/

theorem hexValue?_of_isHexDigit {c : Char} (h : isHexDigit c = true) : hexValue? c = some (hexDigitValue c) := by
  have hc := isHexDigit_iff.1 h
  have hd : c.isDigit = true ↔ 48 ≤ c.toNat ∧ c.toNat ≤ 57 := isDigit_iff
  simp only [hexValue?, hexDigitValue, Char.le_def, UInt32.le_iff_toNat_le, Char.toNat_val, Char.reduceToNat]
  by_cases h₁ : 48 ≤ c.toNat ∧ c.toNat ≤ 57
  · rw [if_pos h₁, if_pos (hd.2 h₁)]
  · rw [if_neg h₁, if_neg (fun h => h₁ (hd.1 h))]
    by_cases h₂ : 97 ≤ c.toNat ∧ c.toNat ≤ 102
    · rw [if_pos h₂, if_neg (by omega)]
    · have h₃ : 65 ≤ c.toNat ∧ c.toNat ≤ 70 := by omega
      rw [if_neg h₂, if_pos h₃, if_pos h₃.2]

theorem unit?_hex {a b c d : Char} (h : ∀ x ∈ [a, b, c, d], isHexDigit x = true) (cs : List Char) :
    unit? (a :: b :: c :: d :: cs) = some (hexUnit a b c d, cs) := by
  simp only [List.forall_mem_cons] at h
  obtain ⟨ha, hb, hc, hd, -⟩ := h
  simp only [unit?, hexValue?_of_isHexDigit ha, hexValue?_of_isHexDigit hb, hexValue?_of_isHexDigit hc,
    hexValue?_of_isHexDigit hd]
  rfl

theorem not_unit_of_mem_shortEscapes {m c : Char} (h : (m, c) ∈ shortEscapes) : ¬ (m = 'u' ∨ m = 'U') := by
  have hall : ∀ p ∈ shortEscapes, ¬ (p.1 = 'u' ∨ p.1 = 'U') := by decide
  exact hall _ h

theorem shortEscape?_of_mem {m c : Char} (h : (m, c) ∈ shortEscapes) : shortEscape? m = some c := by
  have hall : ∀ p ∈ shortEscapes, shortEscape? p.1 = some p.2 := by decide
  exact hall _ h

/-- The escape of a unit stands at the head of a body only if the string starts with one. -/
theorem unitEscape?_body (s : Quoted) :
    (∃ m a b c d isMarker hex s', s = Piece.unit m a b c d isMarker hex :: s' ∧
      unitEscape? s.body = some (hexUnit a b c d, Quoted.body s')) ∨
    (unitEscape? s.body = none ∧ ¬ Utf16.StartsLow s.units) := by
  cases s with
  | nil => exact Or.inr ⟨rfl, by rintro ⟨_, _, h, -⟩; simp [Quoted.units] at h⟩
  | cons p s =>
    cases p with
    | plain c isPlain =>
      refine Or.inr ⟨?_, Utf16.not_startsLow_units c _⟩
      have hc := (ne_of_isUnescaped isPlain).2
      simp only [Quoted.body, List.flatMap_cons, Piece.text, List.singleton_append]
      unfold unitEscape?
      split
      · rename_i heq
        exact absurd (List.cons.inj heq).1 hc
      · rfl
    | short m c known =>
      refine Or.inr ⟨?_, Utf16.not_startsLow_units c _⟩
      simp [Quoted.body, Piece.text, unitEscape?, not_unit_of_mem_shortEscapes known]
    | unit m a b c d isMarker hex =>
      refine Or.inl ⟨m, a, b, c, d, isMarker, hex, s, rfl, ?_⟩
      simp [Quoted.body, Piece.text, unitEscape?, isMarker, unit?_hex hex]

/-! ## Bodies -/

section Unescape

variable (replace : Bool) {fuel : Nat} {cs : List Char}

theorem unescapeWithin_plain (fuel : Nat) {c : Char} (hc : c ≠ '\\') (cs : List Char) :
    unescapeWithin replace (fuel + 1) (c :: cs) = (unescapeWithin replace fuel cs).map (c :: ·) := by
  simp [unescapeWithin, hc]

theorem escaped?_unit {m a b c d : Char} (isMarker : m = 'u' ∨ m = 'U')
    (hex : ∀ x ∈ [a, b, c, d], isHexDigit x = true) (cs : List Char) :
    escaped? replace m (a :: b :: c :: d :: cs) = unitChar? replace (hexUnit a b c d) cs := by
  simp [escaped?, isMarker, unit?_hex hex]

theorem unescapeWithin_escape (fuel : Nat) (m : Char) (cs : List Char) :
    unescapeWithin replace (fuel + 1) ('\\' :: m :: cs) =
      (escaped? replace m cs).bind fun p => (unescapeWithin replace fuel p.2).map (p.1 :: ·) := by
  simp only [unescapeWithin, if_true]
  rcases escaped? replace m cs with _ | ⟨c, rest⟩
  · rfl
  · cases h : unescapeWithin replace fuel rest <;> simp [h]

/-- What is returned as it is would come out of the walk as it is. -/
theorem unescape?_eq_unescapeWithin (body : List Char) :
    unescape? replace body = unescapeWithin replace body.length body := by
  have hplain (cs : List Char) (h : '\\' ∉ cs) : unescapeWithin replace cs.length cs = some cs := by
    induction cs with
    | nil => rfl
    | cons c cs ih =>
      obtain ⟨hc, hcs⟩ := List.ne_and_not_mem_of_not_mem_cons h
      rw [List.length_cons, unescapeWithin_plain replace _ (Ne.symm hc), ih hcs, Option.map_some]
  by_cases h : '\\' ∈ body
  · rw [unescape?, if_pos h]
  · rw [unescape?, if_neg h, hplain body h]

/-- With `fuel` steps the body of `s` reads as the characters of its units. -/
def Unescapes (fuel : Nat) (s : Quoted) : Prop :=
  ∀ cs, unescapeWithin replace fuel s.body = some cs ↔ (replace = true ∨ s.Paired) ∧ cs = Utf16.decode s.units

variable {replace}

/-- A character before a string comes first in what it reads as. -/
theorem Unescapes.cons_map {s : Quoted} (h : Unescapes replace fuel s) (c : Char) :
    (unescapeWithin replace fuel s.body).map (c :: ·) = some cs ↔
      (replace = true ∨ s.Paired) ∧ cs = c :: Utf16.decode s.units := by
  rw [Option.map_eq_some_iff]
  constructor
  · rintro ⟨ds, hds, rfl⟩
    obtain ⟨hp, rfl⟩ := (h ds).1 hds
    exact ⟨hp, rfl⟩
  · rintro ⟨hp, rfl⟩
    exact ⟨_, (h _).2 ⟨hp, rfl⟩, rfl⟩

/-- An unpaired surrogate before a string is refused or replaced. -/
theorem Unescapes.lone {s : Quoted} (h : Unescapes replace fuel s) {u : Nat} (hu : Utf16.isSurrogate u = true)
    (hlow : isHighSurrogate u = true → ¬ Utf16.StartsLow s.units) :
    (((loneSurrogate replace).map (·, s.body)).bind fun p => (unescapeWithin replace fuel p.2).map (p.1 :: ·)) =
        some cs ↔
      (replace = true ∨ Utf16.Paired (u :: s.units)) ∧ cs = Utf16.decode (u :: s.units) := by
  rw [Utf16.paired_cons hlow, Utf16.decode_cons hlow, Utf16.single, hu]
  cases replace with
  | false => simp [loneSurrogate]
  | true =>
    have hrest : unescapeWithin true fuel s.body = some (Utf16.decode s.units) := (h _).2 ⟨Or.inl rfl, rfl⟩
    simp [loneSurrogate, hrest, eq_comm]

theorem Unescapes.nil (fuel : Nat) : Unescapes replace fuel [] := by
  intro cs
  cases fuel <;>
    simp [Quoted.body, Quoted.units, Quoted.Paired, unescapeWithin, Utf16.decode, Utf16.Paired, eq_comm]

theorem Unescapes.plain {s : Quoted} (h : Unescapes replace fuel s) (c : Char) (isPlain : isUnescaped c = true) :
    Unescapes replace (fuel + 1) (.plain c isPlain :: s) := by
  intro cs
  rw [Quoted.body_cons, Quoted.Paired, Quoted.units_cons, Piece.text, Piece.units, Utf16.paired_units_append,
    Utf16.decode_units_append, List.singleton_append,
    unescapeWithin_plain replace fuel (ne_of_isUnescaped isPlain).2]
  exact h.cons_map c

theorem Unescapes.short {s : Quoted} (h : Unescapes replace fuel s) (m c : Char) (known : (m, c) ∈ shortEscapes) :
    Unescapes replace (fuel + 1) (.short m c known :: s) := by
  intro cs
  rw [Quoted.body_cons, Quoted.Paired, Quoted.units_cons, Piece.text, Piece.units, Utf16.paired_units_append,
    Utf16.decode_units_append, List.cons_append, List.singleton_append, unescapeWithin_escape, escaped?,
    if_neg (not_unit_of_mem_shortEscapes known), shortEscape?_of_mem known]
  exact h.cons_map c

/-- The escape of a unit.  That of a high surrogate may take the piece after it along, so more is needed than for `s`.
-/
theorem Unescapes.unit {s : Quoted} (h : ∀ s' : Quoted, s'.body.length ≤ s.body.length → Unescapes replace fuel s')
    (m a b c d : Char) (isMarker : m = 'u' ∨ m = 'U') (hex : ∀ x ∈ [a, b, c, d], isHexDigit x = true) :
    Unescapes replace (fuel + 1) (.unit m a b c d isMarker hex :: s) := by
  intro cs
  have hs := h s (Nat.le_refl _)
  show unescapeWithin replace (fuel + 1) ('\\' :: m :: a :: b :: c :: d :: s.body) = some cs ↔
    (replace = true ∨ Utf16.Paired (hexUnit a b c d :: s.units)) ∧ cs = Utf16.decode (hexUnit a b c d :: s.units)
  rw [unescapeWithin_escape, escaped?_unit replace isMarker hex, unitChar?]
  by_cases hhigh : isHighSurrogate (hexUnit a b c d) = true
  · have hsurrogate : Utf16.isSurrogate (hexUnit a b c d) = true := by simp [Utf16.isSurrogate, hhigh]
    rw [if_pos hhigh]
    rcases unitEscape?_body s with ⟨m', a', b', c', d', isMarker', hex', s', rfl, hnext⟩ | ⟨hnext, hlow⟩
    · rw [hnext]
      by_cases hlow : isLowSurrogate (hexUnit a' b' c' d') = true
      · simp only [if_pos hlow]
        rw [Quoted.units_cons, Piece.units, List.singleton_append, Utf16.paired_pair hhigh hlow,
          Utf16.decode_pair hhigh hlow, Option.bind_some]
        have hs' : Unescapes replace fuel s' := by
          refine h s' ?_
          rw [Quoted.body_cons, List.length_append]
          omega
        dsimp only
        exact hs'.cons_map _
      · simp only [if_neg hlow]
        refine hs.lone hsurrogate fun _ => ?_
        rintro ⟨v, vs, hv, hvlow⟩
        obtain ⟨rfl, -⟩ := List.cons.inj hv
        exact hlow hvlow
    · rw [hnext]
      exact hs.lone hsurrogate fun _ => hlow
  · have hsingle : isHighSurrogate (hexUnit a b c d) = true → ¬ Utf16.StartsLow s.units := fun h => absurd h hhigh
    rw [if_neg hhigh]
    by_cases hlow : isLowSurrogate (hexUnit a b c d) = true
    · have hsurrogate : Utf16.isSurrogate (hexUnit a b c d) = true := by simp [Utf16.isSurrogate, hlow]
      rw [if_pos hlow]
      exact hs.lone hsurrogate hsingle
    · have hsurrogate : Utf16.isSurrogate (hexUnit a b c d) = false := by simp [Utf16.isSurrogate, hhigh, hlow]
      rw [if_neg hlow, Utf16.paired_cons hsingle, Utf16.decode_cons hsingle, Utf16.single, hsurrogate]
      simp only [true_and, Bool.false_eq_true, if_false]
      exact hs.cons_map _

theorem unescapes (s : Quoted) (fuel : Nat) (hfuel : s.body.length ≤ fuel) : Unescapes replace fuel s := by
  induction fuel generalizing s with
  | zero =>
    cases s with
    | nil => exact .nil 0
    | cons p s =>
      rw [Quoted.body_cons, List.length_append] at hfuel
      cases p <;> simp [Piece.text] at hfuel
  | succ fuel ih =>
    have htail (p : Piece) (s : Quoted) (h : (Quoted.body (p :: s)).length ≤ fuel + 1) : s.body.length ≤ fuel := by
      rw [Quoted.body_cons, List.length_append] at h
      cases p <;> simp [Piece.text] at h <;> omega
    cases s with
    | nil => exact .nil _
    | cons p s =>
      have hs : (Quoted.body s).length ≤ fuel := htail p s hfuel
      cases p with
      | plain c isPlain => exact (ih s hs).plain c isPlain
      | short m c known => exact (ih s hs).short m c known
      | unit m a b c d isMarker hex =>
        exact .unit (fun s' hs' => ih s' (Nat.le_trans hs' hs)) m a b c d isMarker hex

/-- What the body of a string stands for. -/
theorem unescape?_eq_some_iff (s : Quoted) :
    unescape? replace s.body = some cs ↔ (replace = true ∨ s.Paired) ∧ cs = Utf16.decode s.units := by
  rw [unescape?_eq_unescapeWithin]
  exact unescapes s _ (Nat.le_refl _) cs

end Unescape

/-- A session takes the quotes off and unescapes what is between them. -/
theorem decode?_quoted (options : Options) (s : Quoted) (o : Nat) :
    decode? options ⟨o, encode s.text⟩ = (unescape? options.replaceInvalidSurrogates s.body).map String.ofList := by
  have hbytes : ((encode s.text).drop 1).dropLast = encode s.body := by
    have hq : String.utf8EncodeChar '"' = [34] := by decide
    simp [Quoted.text, hq]
  have hbody : Utf8.decode? (encode s.body) = some s.body := Utf8.decode?_eq_some_iff.2 rfl
  simp only [decode?, hbytes, hbody]
  cases h : unescape? options.replaceInvalidSurrogates s.body <;> simp [h]

/-- What a session makes of a string. -/
theorem decode?_eq_some_iff (options : Options) (s : Quoted) (o : Nat) (text : String) :
    decode? options ⟨o, encode s.text⟩ = some text ↔
      (options.replaceInvalidSurrogates = true ∨ s.Paired) ∧ text = s.value := by
  rw [decode?_quoted, Option.map_eq_some_iff]
  constructor
  · rintro ⟨cs, hcs, rfl⟩
    obtain ⟨hp, rfl⟩ := (unescape?_eq_some_iff s).1 hcs
    exact ⟨hp, rfl⟩
  · rintro ⟨hp, rfl⟩
    exact ⟨_, (unescape?_eq_some_iff s).2 ⟨hp, rfl⟩, rfl⟩

end TableJson.Grammar
