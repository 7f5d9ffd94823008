import TableJson.Proofs.Grammar.Lexing

/-!
# Strings in text — the table of a string

* `string_of_reads`: what the table takes is a string, and it hands nothing over.
* `reads_string_text`: a string that is ahead is taken, whatever follows it.
* `reads_string_other`: where no quote is ahead there is no string.
-/

namespace TableJson.Grammar

open Machine Utf8 Scan

/-! ## Characters -/

theorem isUnescaped_iff {c : Char} :
    isUnescaped c = true ↔ ' ' ≤ c ∧ c ≤ '!' ∨ '#' ≤ c ∧ c ≤ '[' ∨ ']' ≤ c ∧ c ≤ lastChar := by
  have hlast : lastChar.toNat = 0x10FFFF := by decide
  have hc := Text.Utf16.toNat_bounds c
  simp only [isUnescaped, decide_eq_true_eq, Char.le_def, UInt32.le_iff_toNat_le, Char.toNat_val, hlast]
  simp only [Char.reduceToNat]
  omega

/-- The markers of the short escapes. -/
theorem mem_shortEscapes_iff {m : Char} : m ∈ "\"\\/bfnrt".toList ↔ ∃ c, (m, c) ∈ shortEscapes := by
  constructor
  · intro h
    have hall : ∀ m ∈ "\"\\/bfnrt".toList, ∃ p ∈ shortEscapes, p.1 = m := forall_mem_of_all (by decide)
    obtain ⟨⟨_, c⟩, hc, rfl⟩ := hall m h
    exact ⟨c, hc⟩
  · rintro ⟨c, h⟩
    have hall : ∀ p ∈ shortEscapes, p.1 ∈ "\"\\/bfnrt".toList := by decide
    exact hall _ h

/-- A marker and four digits in base 16 stand for a code unit. -/
theorem unit_of_sets {m : Char} {ds : List Char} (hm : m ∈ "uU".toList) (hds : ∀ c ∈ ds, inSet hexDigits c = true)
    (hlen : ds.length = 4) : ∃ p : Piece, '\\' :: m :: ds = p.text := by
  have hm : m = 'u' ∨ m = 'U' := by simpa using hm
  obtain ⟨a, b, c, d, rfl⟩ : ∃ a b c d, ds = [a, b, c, d] := by
    match ds, hlen with
    | [a, b, c, d], _ => exact ⟨a, b, c, d, rfl⟩
  refine ⟨.unit m a b c d hm fun x hx => ?_, rfl⟩
  rw [← inSet_hexDigits]
  exact hds x hx

/-! ## What is taken -/

section Sound

variable (n : Nat)

theorem lexes_unescaped : Lexes (reads n .unescaped) fun ds => ∃ c, ds = [c] ∧ isUnescaped c = true := by
  cases n with
  | zero => exact Lexes.zero _
  | succ n =>
    rw [show reads (n + 1) .unescaped = _ from funext (reads_unescaped n)]
    refine ((Lexes.range ..).orElse ((Lexes.range ..).orElse (Lexes.range ..))).mono ?_
    rintro _ (⟨c, rfl, hc⟩ | ⟨c, rfl, hc⟩ | ⟨c, rfl, hc⟩)
    · exact ⟨c, rfl, isUnescaped_iff.2 (Or.inl hc)⟩
    · exact ⟨c, rfl, isUnescaped_iff.2 (Or.inr (Or.inl hc))⟩
    · exact ⟨c, rfl, isUnescaped_iff.2 (Or.inr (Or.inr hc))⟩

theorem lexes_unicode :
    Lexes (reads n .unicode) fun ds => ∃ p : Piece, '\\' :: ds = p.text := by
  cases n with
  | zero => exact Lexes.zero _
  | succ n =>
    rw [show reads (n + 1) .unicode = _ from funext (reads_unicode n)]
    refine ((Lexes.oneOf "uU").andThen (Lexes.repeatOneOf hexDigits 4 (some 4))).mono ?_
    rintro _ ⟨_, ds, rfl, ⟨m, rfl, hm⟩, hds, hmin, hmax⟩
    exact unit_of_sets hm hds (Nat.le_antisymm (hmax 4 rfl) hmin)

theorem lexes_char : Lexes (reads n .char) fun ds => ∃ p : Piece, ds = p.text := by
  have hescapedChar : ∀ n, Lexes (reads n .escapedChar) fun ds => ∃ p : Piece, '\\' :: ds = p.text := by
    intro n
    cases n with
    | zero => exact Lexes.zero _
    | succ n =>
      rw [show reads (n + 1) .escapedChar = _ from funext (reads_escapedChar n)]
      refine ((Lexes.oneOf _).orElse (lexes_unicode n)).mono ?_
      rintro _ (⟨m, rfl, hm⟩ | hp)
      · obtain ⟨c, hc⟩ := mem_shortEscapes_iff.1 hm
        exact ⟨.short m c hc, rfl⟩
      · exact hp
  have hescaped : ∀ n, Lexes (reads n .escaped) fun ds => ∃ p : Piece, ds = p.text := by
    intro n
    cases n with
    | zero => exact Lexes.zero _
    | succ n =>
      rw [show reads (n + 1) .escaped = _ from funext (reads_escaped n)]
      refine ((Lexes.oneOf "\\").andThen (hescapedChar n)).mono ?_
      rintro _ ⟨_, ds, rfl, ⟨c, rfl, hc⟩, p, hp⟩
      obtain rfl : c = '\\' := by simpa using hc
      exact ⟨p, hp⟩
  cases n with
  | zero => exact Lexes.zero _
  | succ n =>
    rw [show reads (n + 1) .char = _ from funext (reads_char n)]
    refine ((lexes_unescaped n).orElse (hescaped n)).mono ?_
    rintro _ (⟨c, rfl, hc⟩ | hp)
    · exact ⟨.plain c hc, rfl⟩
    · exact hp

theorem Piece.text_ne_nil (p : Piece) : p.text ≠ [] := by
  cases p <;> simp [Piece.text]

theorem exists_pieces {ws : List (List Char)} (h : ∀ w ∈ ws, ∃ p : Piece, w = p.text) :
    ∃ s : Quoted, ws = s.map Piece.text := by
  induction ws with
  | nil => exact ⟨[], rfl⟩
  | cons w ws ih =>
    obtain ⟨p, rfl⟩ := h w (List.mem_cons_self ..)
    obtain ⟨s, rfl⟩ := ih fun w hw => h w (List.mem_cons_of_mem _ hw)
    exact ⟨p :: s, rfl⟩

theorem lexes_string : Lexes (reads n .string) fun ds => ∃ s : Quoted, ds = s.text := by
  cases n with
  | zero => exact Lexes.zero _
  | succ n =>
    rw [show reads (n + 1) .string = _ from funext (reads_string n)]
    have hbody := (lexes_char n).repeatTable fun ds ⟨p, hp⟩ => hp ▸ p.text_ne_nil
    refine ((Lexes.oneOf "\"").andThen (hbody.andThen (Lexes.oneOf "\""))).mono ?_
    rintro _ ⟨_, _, rfl, ⟨c, rfl, hc⟩, _, _, rfl, ⟨ws, hws, rfl⟩, ⟨d, rfl, hd⟩⟩
    obtain rfl : c = '"' := by simpa using hc
    obtain rfl : d = '"' := by simpa using hd
    obtain ⟨s, rfl⟩ := exists_pieces hws
    exact ⟨s, by simp [Quoted.text, Quoted.body, List.flatMap]⟩

end Sound

/-! ## What is ahead -/

section Complete

variable (n o : Nat)

theorem reads_unescaped_cons (c : Char) (r : List Char) :
    reads (n + 1) .unescaped (.text o (c :: r)) =
      (if isUnescaped c then .matched (.text (o + c.utf8Size) r) else .mismatch, []) := by
  rw [reads_unescaped, tests_range_cons, tests_range_cons, tests_range_cons]
  by_cases h₁ : ' ' ≤ c ∧ c ≤ '!'
  · rw [if_pos h₁, if_pos (isUnescaped_iff.2 (Or.inl h₁))]
    rfl
  · by_cases h₂ : '#' ≤ c ∧ c ≤ '['
    · rw [if_neg h₁, if_pos h₂, if_pos (isUnescaped_iff.2 (Or.inr (Or.inl h₂)))]
      rfl
    · have hiff : isUnescaped c = true ↔ ']' ≤ c ∧ c ≤ lastChar := by
        rw [isUnescaped_iff, or_iff_right h₁, or_iff_right h₂]
      rw [if_neg h₁, if_neg h₂]
      simp only [hiff]
      rfl

/-- One piece of a string is taken, whatever follows it. -/
theorem reads_char_text (p : Piece) (r : List Char) :
    reads (n + 4) .char (.text o (p.text ++ r)) = (.matched (.text (o + size p.text) r), []) := by
  cases p with
  | plain c isPlain => simp [Piece.text, reads_char, reads_unescaped_cons, isPlain]
  | short marker c known =>
    have hm : inSet "\"\\/bfnrt" marker = true := decide_eq_true (mem_shortEscapes_iff.2 ⟨c, known⟩)
    have hb : isUnescaped '\\' = false := rfl
    have hs : inSet "\\" '\\' = true := by decide
    simp [Piece.text, reads_char, reads_unescaped_cons, reads_escaped, reads_escapedChar, hb, hs, hm, Nat.add_assoc]
  | unit marker a b c d isMarker hex =>
    have hb : isUnescaped '\\' = false := rfl
    have hs : inSet "\\" '\\' = true := by decide
    have hshort : inSet "\"\\/bfnrt" marker = false := by
      rcases isMarker with rfl | rfl <;> decide
    have hm : inSet "uU" marker = true := by
      rcases isMarker with rfl | rfl <;> decide
    have hdigits (o : Nat) : tests n (.repeatOneOf hexDigits 4 (some 4)) (.text o (a :: b :: c :: d :: r)) =
        (.matched (.text (o + size [a, b, c, d]) r), []) := by
      have htake : takeChars (inSet hexDigits) (some 4) 0 (a :: b :: c :: d :: r) = [a, b, c, d] := by
        simp only [List.forall_mem_cons] at hex
        obtain ⟨ha, hb, hc, hd, -⟩ := hex
        cases r <;> simp [takeChars, belowMax, inSet_hexDigits, ha, hb, hc, hd]
      rw [tests, plain_repeatOneOf, htake]
      rfl
    simp [Piece.text, reads_char, reads_unescaped_cons, reads_escaped, reads_escapedChar, reads_unicode, hb, hs, hshort,
      hm, hdigits, Nat.add_assoc]

theorem reads_char_quote (r : List Char) : reads (n + 4) .char (.text o ('"' :: r)) = (.mismatch, []) := by
  have hq : isUnescaped '"' = false := rfl
  have hs : inSet "\\" '"' = false := by decide
  simp [reads_char, reads_unescaped_cons, reads_escaped, hq, hs]

/-- The pieces of a string are taken one after another. -/
theorem chain_pieces (s : Quoted) (r : List Char) :
    Chain (reads (n + 4) .char) (.text o (s.body ++ r)) (.text (o + size s.body) r) [] := by
  induction s generalizing o with
  | nil => exact .nil _
  | cons p s ih =>
    have hpos := size_pos p.text_ne_nil
    have hrest := ih (o + size p.text)
    rw [Nat.add_assoc, ← size_append] at hrest
    rw [Quoted.body_cons, List.append_assoc]
    refine .cons (reads_char_text n o p _) ?_ ?_ hrest
    · simp
      omega
    · simp only [Cursor.rest_text, length_encode, size_append]
      omega

/-- A string that is ahead is taken. -/
theorem reads_string_text (s : Quoted) (r : List Char) :
    reads (n + 5) .string (.text o (s.text ++ r)) = (.matched (.text (o + size s.text) r), []) := by
  have hquote : inSet "\"" '"' = true := by decide
  have hbody := repeatScan_of_chain (chain_pieces n (o + '"'.utf8Size) s ('"' :: r)) (reads_char_quote n _ r)
    _ (Nat.le_refl _) 0
  rw [reads_string, Quoted.text, List.cons_append, tests_oneOf_cons, hquote, if_pos rfl, andThen_matched, after_nil,
    tests_repeatTable, List.append_assoc, List.singleton_append, hbody]
  simp [hquote, Nat.add_assoc]

/-- Where no quote is ahead there is no string. -/
theorem reads_string_other {cs : List Char} (h : Stops (· == '"') cs) :
    reads (n + 1) .string (.text o cs) = (.mismatch, []) := by
  rw [reads_string]
  cases cs with
  | nil => simp
  | cons c cs =>
    have hc : inSet "\"" c = false := by simpa [inSet] using h c rfl
    simp [hc]

end Complete

end TableJson.Grammar
