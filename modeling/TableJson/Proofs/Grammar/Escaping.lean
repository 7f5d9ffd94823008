import TableJson.Proofs.Grammar.Decoding
import TableJson.Proofs.Grammar.StringTexts
import TableJson.Proofs.Text.Spelling

/-!
# Escaping — what is written between quotes, and read back

What is written for a string is the body of a string, made of one piece for each character.  So the table of a string
takes it with its quotes and nothing else, and unescaping gives the characters back (`escape_spec`).

* `odd_backslashes_before_quote`: in the body of any string a quote comes after an odd number of backslashes.
* `isClean_escapeChar`: what is written has no control characters and no separators of lines or paragraphs.
-/

namespace TableJson.Grammar

open Machine Utf8 Text

/-! ## Quotes in a body -/

/-- How many backslashes stand at the end. -/
def backslashes (cs : List Char) : Nat := (cs.reverse.takeWhile (· == '\\')).length

theorem backslashes_backslash (cs : List Char) : backslashes (cs ++ ['\\']) = backslashes cs + 1 := by
  simp [backslashes]

theorem backslashes_other (cs : List Char) {c : Char} (h : c ≠ '\\') : backslashes (cs ++ [c]) = 0 := by
  simp [backslashes, h]

section Pieces

variable {before after : List Char}

/-- After a whole piece, and an even number of backslashes before it, the number of backslashes is even. -/
theorem even_backslashes_piece (p : Piece) (h : backslashes before % 2 = 0) :
    backslashes (before ++ p.text) % 2 = 0 := by
  cases p with
  | plain c isPlain => rw [Piece.text, backslashes_other _ (ne_of_isUnescaped isPlain).2]
  | short m c known =>
    rw [Piece.text, List.append_cons]
    by_cases hm : m = '\\'
    · rw [hm, backslashes_backslash, backslashes_backslash]
      omega
    · rw [backslashes_other _ hm]
  | unit m a b c d isMarker hex =>
    have hd : d ≠ '\\' := (ne_of_isHexDigit (hex d (by simp))).2
    have htext : before ++ ['\\', m, a, b, c, d] = (before ++ ['\\', m, a, b, c]) ++ [d] := by simp
    rw [Piece.text, htext, backslashes_other _ hd]

/-- The only quote in a piece is the one that it escapes. -/
theorem eq_backslash_of_piece (p : Piece) (h : p.text = before ++ '"' :: after) : before = ['\\'] := by
  cases p with
  | plain c isPlain =>
    obtain ⟨hbefore, hquote⟩ : before = [] ∧ c = '"' := by
      cases before with
      | nil => exact ⟨rfl, (List.cons.inj h).1⟩
      | cons b before => simp [Piece.text] at h
    rw [hquote] at isPlain
    cases isPlain
  | short m c known =>
    rcases before with _ | ⟨b, _ | ⟨b', before⟩⟩
    · cases (List.cons.inj h).1
    · rw [← (List.cons.inj h).1]
    · simp [Piece.text] at h
  | unit m a b c d isMarker hex =>
    have hmem : '"' ∈ '\\' :: m :: [a, b, c, d] := by
      have htext : '\\' :: m :: [a, b, c, d] = before ++ '"' :: after := h
      rw [htext]
      exact List.mem_append_right _ List.mem_cons_self
    rcases List.mem_cons.1 hmem with hbackslash | hmem
    · cases hbackslash
    · rcases List.mem_cons.1 hmem with rfl | hmem
      · rcases isMarker with hm | hm <;> cases hm
      · exact absurd rfl (ne_of_isHexDigit (hex _ hmem)).1

/-- In the body of a string a quote comes after an odd number of backslashes, also if an even number stands before the
body. -/
theorem odd_backslashes_before_quote (q : Quoted) {front : List Char} (hfront : backslashes front % 2 = 0)
    (h : q.body = before ++ '"' :: after) : backslashes (front ++ before) % 2 = 1 := by
  induction q generalizing front before with
  | nil => simp [Quoted.body] at h
  | cons p q ih =>
    have heven : backslashes (front ++ p.text) % 2 = 0 := even_backslashes_piece p hfront
    rw [Quoted.body_cons] at h
    rcases List.append_eq_append_iff.1 h with ⟨between, rfl, hq⟩ | ⟨between, hp, hq⟩
    · -- the quote stands in a later piece
      rw [← List.append_assoc]
      exact ih heven hq
    · cases between with
      | nil =>
        -- it stands at the start of the next piece
        rw [List.append_nil] at hp
        have hnext : backslashes (front ++ p.text ++ []) % 2 = 1 := ih heven hq.symm
        rwa [List.append_nil, hp] at hnext
      | cons c between =>
        obtain ⟨rfl, -⟩ := List.cons.inj hq
        rw [eq_backslash_of_piece p hp, backslashes_backslash]
        omega

end Pieces

/-! ## What is written -/

section Written

/-- No control character, and no separator of lines or paragraphs. -/
def isClean (c : Char) : Bool := !isControl c && c != '\u2028' && c != '\u2029'

theorem isClean_iff {c : Char} :
    isClean c = true ↔
      0x20 ≤ c.toNat ∧ ¬ (0x7F ≤ c.toNat ∧ c.toNat ≤ 0x9F) ∧ c.toNat ≠ 0x2028 ∧ c.toNat ≠ 0x2029 := by
  have htoNat (d : Char) : c ≠ d ↔ c.toNat ≠ d.toNat := not_congr Char.toNat_inj.symm
  simp only [isClean, isControl, Bool.and_eq_true, Bool.not_eq_true', decide_eq_false_iff_not, bne_iff_ne, htoNat,
    Char.reduceToNat]
  omega

theorem isClean_hexDigit {n : Nat} (h : n < 16) : isClean (hexDigit n) = true := by
  have hall : ∀ k < 16, isClean (hexDigit k) = true := by decide
  exact hall n h

theorem isClean_unitEscape (c : Char) : ∀ x ∈ unitEscape c, isClean x = true := by
  intro x hx
  simp only [unitEscape, List.mem_cons, List.not_mem_nil, or_false] at hx
  rcases hx with rfl | rfl | rfl | rfl | rfl | rfl
  · decide
  · decide
  all_goals exact isClean_hexDigit (by omega)

/-- What is written for a character is clean. -/
theorem isClean_escapeChar (c : Char) : ∀ x ∈ escapeChar c, isClean x = true := by
  unfold escapeChar
  split_ifs with hquote hbackslash hb hf hn hr ht hunit
  iterate 7 exact forall_mem_of_all (by decide)
  · exact isClean_unitEscape c
  · intro x hx
    rw [not_or, not_or, Bool.not_eq_true] at hunit
    obtain rfl := List.mem_singleton.1 hx
    simp [isClean, hunit]

end Written

/-- What is written for a string, with quotes around it, is what the table of a string takes, whatever follows, and a
walk hands nothing over for it.  Unescaping gives the string back, in either way with unpaired surrogates.  Each quote
in it comes after an odd number of backslashes, and there are no control characters and no separators of lines or
paragraphs in it. -/
theorem escape_spec (s : String) :
    Sink.unlimited (putQuoted s) = .ofList ('"' :: (escape s.toList ++ ['"'])) ∧
    (∀ {σ : Type} (act : Context Action σ) (n o : Nat) (rest : List Char) (state : State σ), ∃ state',
      run rows act rowsPerTable (n + 5) .string (.text o ('"' :: (escape s.toList ++ '"' :: rest))) state =
          (.matched (.text (o + size ('"' :: (escape s.toList ++ ['"']))) rest), state') ∧
        state'.context = state.context) ∧
    (∀ replace, unescape? replace (escape s.toList) = some s.toList) ∧
    (∀ before after, escape s.toList = before ++ '"' :: after → backslashes before % 2 = 1) ∧
    ∀ c ∈ escape s.toList,
      0x20 ≤ c.toNat ∧ ¬ (0x7F ≤ c.toNat ∧ c.toNat ≤ 0x9F) ∧ c.toNat ≠ 0x2028 ∧ c.toNat ≠ 0x2029 := by
  obtain ⟨q, hbody, hunits⟩ := exists_body s.toList
  refine ⟨(spells_quoted s).unlimited, ?_, ?_, ?_, ?_⟩
  · intro σ act n o rest state
    have htext : '"' :: (escape s.toList ++ '"' :: rest) = q.text ++ rest := by
      rw [Quoted.text, hbody, List.cons_append, List.append_assoc, List.singleton_append]
    have hquoted : '"' :: (escape s.toList ++ ['"']) = q.text := by rw [Quoted.text, hbody]
    rw [htext, hquoted]
    exact run_of_reads act (reads_string_text n o q rest) state
  · intro replace
    rw [← hbody, unescape?_eq_some_iff, hunits, decode_flatMap_units]
    refine ⟨.inr ?_, rfl⟩
    rw [Quoted.Paired, hunits]
    exact paired_flatMap_units s.toList
  · intro before after h
    have hodd : backslashes ([] ++ before) % 2 = 1 := odd_backslashes_before_quote q rfl (hbody.trans h)
    rwa [List.nil_append] at hodd
  · intro c hc
    obtain ⟨d, -, hd⟩ := List.mem_flatMap.1 hc
    exact isClean_iff.1 (isClean_escapeChar d c hd)

end TableJson.Grammar
