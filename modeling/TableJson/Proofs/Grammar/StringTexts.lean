import Mathlib.Tactic.SplitIfs
import TableJson.Proofs.Grammar.Lexeme
import TableJson.Text.Escape

/-!
# String texts — what escaped strings read as

Each character is written as a piece of a string that spells its own units (`exists_piece`).  So what is written for a
string denotes the string, and leaves no surrogate unpaired (`exists_quoted`).
-/

namespace TableJson.Grammar

open Text

theorem isHexDigit_hexDigit {n : Nat} (h : n < 16) : isHexDigit (hexDigit n) = true := by
  have hall : ∀ k < 16, isHexDigit (hexDigit k) = true := by decide
  exact hall n h

theorem hexDigitValue_hexDigit {n : Nat} (h : n < 16) : hexDigitValue (hexDigit n) = n := by
  have hall : ∀ k < 16, hexDigitValue (hexDigit k) = k := by decide
  exact hall n h

/-- The digits of a unit escape are those of the unit. -/
theorem hexUnit_hexDigit {n : Nat} (h : n < 0x10000) :
    hexUnit (hexDigit (n / 0x1000 % 16)) (hexDigit (n / 0x100 % 16)) (hexDigit (n / 0x10 % 16))
      (hexDigit (n % 16)) = n := by
  rw [hexUnit, hexDigitValue_hexDigit (by omega), hexDigitValue_hexDigit (by omega), hexDigitValue_hexDigit (by omega),
    hexDigitValue_hexDigit (by omega)]
  omega

theorem exists_unit {c : Char} (h : c.toNat < 0x10000) :
    ∃ p : Piece, p.text = unitEscape c ∧ p.units = Utf16.units c := by
  refine ⟨.unit 'u' _ _ _ _ (Or.inl rfl) ?_, rfl, ?_⟩
  · intro x hx
    simp only [List.mem_cons, List.not_mem_nil, or_false] at hx
    rcases hx with rfl | rfl | rfl | rfl <;> exact isHexDigit_hexDigit (by omega)
  · rw [Utf16.units, if_pos h]
    exact congrArg (· :: []) (hexUnit_hexDigit h)

theorem exists_short {m c : Char} (h : (m, c) ∈ shortEscapes) :
    ∃ p : Piece, p.text = ['\\', m] ∧ p.units = Utf16.units c :=
  ⟨.short m c h, rfl, rfl⟩

theorem exists_plain {c : Char} (hquote : c ≠ '"') (hbackslash : c ≠ '\\') (hcontrol : isControl c = false) :
    ∃ p : Piece, p.text = [c] ∧ p.units = Utf16.units c := by
  have hquote : c.toNat ≠ 0x22 := fun h => hquote (Char.toNat_inj.1 h)
  have hbackslash : c.toNat ≠ 0x5C := fun h => hbackslash (Char.toNat_inj.1 h)
  rw [isControl, decide_eq_false_iff_not] at hcontrol
  refine ⟨.plain c ?_, rfl, rfl⟩
  rw [isUnescaped, decide_eq_true_eq]
  omega

theorem lt_of_isControl {c : Char} (h : isControl c = true) : c.toNat < 0x10000 := by
  rw [isControl, decide_eq_true_eq] at h
  omega

/-- What is written for a character spells its units. -/
theorem exists_piece (c : Char) : ∃ p : Piece, p.text = escapeChar c ∧ p.units = Utf16.units c := by
  unfold escapeChar
  split_ifs with hquote hbackslash hb hf hn hr ht hunit
  · rw [hquote]
    exact exists_short (by decide)
  · rw [hbackslash]
    exact exists_short (by decide)
  · rw [hb]
    exact exists_short (by decide)
  · rw [hf]
    exact exists_short (by decide)
  · rw [hn]
    exact exists_short (by decide)
  · rw [hr]
    exact exists_short (by decide)
  · rw [ht]
    exact exists_short (by decide)
  · rcases hunit with hcontrol | rfl | rfl
    · exact exists_unit (lt_of_isControl hcontrol)
    · exact exists_unit (by decide)
    · exact exists_unit (by decide)
  · exact exists_plain hquote hbackslash (Bool.eq_false_iff.2 fun hcontrol => hunit (Or.inl hcontrol))

theorem exists_body (cs : List Char) : ∃ q : Quoted, q.body = escape cs ∧ q.units = cs.flatMap Utf16.units := by
  induction cs with
  | nil => exact ⟨[], rfl, rfl⟩
  | cons c cs ih =>
    obtain ⟨q, hbody, hunits⟩ := ih
    obtain ⟨p, htext, hspells⟩ := exists_piece c
    refine ⟨p :: q, ?_, ?_⟩
    · rw [Quoted.body_cons, htext, hbody]
      rfl
    · rw [Quoted.units_cons, hspells, hunits]
      rfl

theorem decode_flatMap_units (cs : List Char) : Utf16.decode (cs.flatMap Utf16.units) = cs := by
  induction cs with
  | nil => rfl
  | cons c cs ih => rw [List.flatMap_cons, Utf16.decode_units_append, ih]

theorem paired_flatMap_units (cs : List Char) : Utf16.Paired (cs.flatMap Utf16.units) := by
  induction cs with
  | nil => trivial
  | cons c cs ih => rwa [List.flatMap_cons, Utf16.paired_units_append]

/-- What is written for a string denotes the string. -/
theorem exists_quoted (s : String) :
    ∃ q : Quoted, q.text = '"' :: (escape s.toList ++ ['"']) ∧ q.value = s ∧ q.Paired := by
  obtain ⟨q, hbody, hunits⟩ := exists_body s.toList
  refine ⟨q, by rw [Quoted.text, hbody], ?_, ?_⟩
  · rw [Quoted.value, hunits, decode_flatMap_units, String.ofList_toList]
  · rw [Quoted.Paired, hunits]
    exact paired_flatMap_units _

end TableJson.Grammar
