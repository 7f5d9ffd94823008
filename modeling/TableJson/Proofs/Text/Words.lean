import TableJson.Proofs.Grammar.NumberTexts
import TableJson.Proofs.Grammar.StringTexts
import TableJson.Proofs.Text.Spelling

/-!
# Words — texts without the gaps between their words

The words of a text are its structural characters, its strings and what stands between those; spaces and newlines
outside strings are gaps.  `condense` takes the gaps out, `split` takes the text apart at them, and what is left of a
text is its words one after another (`flatten_split`).

A value has words of its own (`Value.words`).  They are the words of whatever is spelled for it with spaces and
newlines as blanks (`split_spell`), so pretty text has the words of compact text, and without gaps it is compact text
(`pretty_condensed`).
-/

namespace TableJson.Text

open Grammar Number

/-! ## Taking texts apart -/

/-- A space or a newline. -/
def isGap (c : Char) : Bool := c == ' ' || c == '\n'

/-- A structural character. -/
def isMark (c : Char) : Bool := c == '[' || c == ']' || c == '\x7b' || c == '\x7d' || c == ',' || c == ':'

/-- A character of a word that is no string. -/
def isPlain (c : Char) : Bool := !isGap c && !isMark c && c != '"'

/-- What a character stands in. -/
inductive Zone where
  | outside
  | string
  /-- Behind a backslash in a string. -/
  | escape
deriving DecidableEq

/-- What the character after `c` stands in. -/
def Zone.after : Zone → Char → Zone
  | outside, c => if c = '"' then string else outside
  | string, c => if c = '"' then outside else if c = '\\' then escape else string
  | escape, _ => string

/-- A text without its gaps. -/
def condense : Zone → List Char → List Char
  | _, [] => []
  | zone, c :: cs =>
    if zone = .outside ∧ isGap c then condense zone cs else c :: condense (zone.after c) cs

/-- A word that has come to its end, if there is one. -/
def finish (word : List Char) : List (List Char) := if word = [] then [] else [word]

/-- The words of a text; `word` is what has been read of the first one. -/
def split : Zone → List Char → List Char → List (List Char)
  | _, word, [] => finish word
  | .outside, word, c :: cs =>
    if isGap c then finish word ++ split .outside [] cs
    else if isMark c then finish word ++ [c] :: split .outside [] cs
    else if c = '"' then finish word ++ split .string [c] cs
    else split .outside (word ++ [c]) cs
  | .string, word, c :: cs =>
    if c = '"' then (word ++ [c]) :: split .outside [] cs
    else split (Zone.string.after c) (word ++ [c]) cs
  | .escape, word, c :: cs => split .string (word ++ [c]) cs

theorem flatten_finish (word : List Char) : (finish word).flatten = word := by
  unfold finish
  split
  · rename_i h
    rw [h, List.flatten_nil]
  · rw [List.flatten_singleton]

/-- The words of a text, one after another, are the text without its gaps. -/
theorem flatten_split (zone : Zone) (word cs : List Char) :
    (split zone word cs).flatten = word ++ condense zone cs := by
  fun_induction split zone word cs with
  | case1 zone word => rw [flatten_finish, condense, List.append_nil]
  | case2 word c cs hgap ih =>
    rw [List.flatten_append, flatten_finish, ih, condense, if_pos ⟨rfl, hgap⟩, List.nil_append]
  | case3 word c cs hgap hmark ih =>
    have hquote : c ≠ '"' := by
      rintro rfl
      cases hmark
    rw [List.flatten_append, flatten_finish, List.flatten_cons, ih, condense, if_neg (fun h => hgap h.2), Zone.after,
      if_neg hquote]
    rfl
  | case4 word cs hgap hmark ih =>
    rw [List.flatten_append, flatten_finish, ih, condense, if_neg (fun h => hgap h.2)]
    rfl
  | case5 word c cs hgap hmark hquote ih =>
    rw [ih, condense, if_neg (fun h => hgap h.2), Zone.after, if_neg hquote, List.append_assoc]
    rfl
  | case6 word cs ih =>
    rw [List.flatten_cons, ih, condense, if_neg (fun h => Zone.noConfusion h.1), List.append_assoc]
    rfl
  | case7 word c cs hquote ih =>
    rw [ih, condense, if_neg (fun h => Zone.noConfusion h.1), List.append_assoc]
    rfl
  | case8 word c cs ih =>
    rw [ih, condense, if_neg (fun h => Zone.noConfusion h.1), List.append_assoc]
    rfl

/-! ## Words and what follows them -/

section Outside

variable {c : Char} {word cs rest : List Char}

theorem split_gap (word cs : List Char) (h : isGap c = true) :
    split .outside word (c :: cs) = finish word ++ split .outside [] cs := by
  rw [split, if_pos h]

theorem split_mark (word cs : List Char) (h : isMark c = true) :
    split .outside word (c :: cs) = finish word ++ [c] :: split .outside [] cs := by
  have hgap : ¬ isGap c = true := by
    intro hgap
    simp only [isGap, Bool.or_eq_true, beq_iff_eq] at hgap
    rcases hgap with rfl | rfl <;> cases h
  rw [split, if_neg hgap, if_pos h]

theorem split_quote (word cs : List Char) :
    split .outside word ('"' :: cs) = finish word ++ split .string ['"'] cs := rfl

theorem split_plain (word cs : List Char) (h : isPlain c = true) :
    split .outside word (c :: cs) = split .outside (word ++ [c]) cs := by
  simp only [isPlain, Bool.and_eq_true, Bool.not_eq_true', bne_iff_ne] at h
  obtain ⟨⟨hgap, hmark⟩, hquote⟩ := h
  rw [split, if_neg (by rw [hgap]; decide), if_neg (by rw [hmark]; decide), if_neg hquote]

/-- A word comes to its end where no character goes on with it. -/
theorem split_of_stops (word : List Char) (h : Stops isPlain rest) :
    split .outside word rest = finish word ++ split .outside [] rest := by
  cases rest with
  | nil => exact (List.append_nil _).symm
  | cons c rest =>
    have hc : isPlain c = false := h c rfl
    by_cases hgap : isGap c = true
    · rw [split_gap word rest hgap, split_gap [] rest hgap]
      rfl
    · by_cases hmark : isMark c = true
      · rw [split_mark word rest hmark, split_mark [] rest hmark]
        rfl
      · obtain rfl : c = '"' := by simpa [isPlain, hgap, hmark] using hc
        rfl

theorem split_gaps {gaps : List Char} (h : ∀ c ∈ gaps, isGap c = true) (rest : List Char) :
    split .outside [] (gaps ++ rest) = split .outside [] rest := by
  induction gaps with
  | nil => rfl
  | cons c gaps ih =>
    obtain ⟨hc, hgaps⟩ := List.forall_mem_cons.1 h
    rw [List.cons_append, split_gap [] _ hc]
    exact ih hgaps

theorem split_plains (word cs rest : List Char) (h : ∀ c ∈ cs, isPlain c = true) :
    split .outside word (cs ++ rest) = split .outside (word ++ cs) rest := by
  induction cs generalizing word with
  | nil => rw [List.append_nil, List.nil_append]
  | cons c cs ih =>
    obtain ⟨hc, hcs⟩ := List.forall_mem_cons.1 h
    rw [List.cons_append, split_plain word _ hc, ih _ hcs, List.append_assoc, List.singleton_append]

/-- Characters that no gap and no mark parts are a word. -/
theorem split_word (cs : List Char) (hne : cs ≠ []) (h : ∀ c ∈ cs, isPlain c = true) (hrest : Stops isPlain rest) :
    split .outside [] (cs ++ rest) = cs :: split .outside [] rest := by
  rw [split_plains [] cs rest h, List.nil_append, split_of_stops cs hrest, finish, if_neg hne]
  rfl

end Outside

/-! ## Strings -/

theorem split_other {c : Char} (h : c ≠ '"' ∧ c ≠ '\\') (word cs : List Char) :
    split .string word (c :: cs) = split .string (word ++ [c]) cs := by
  rw [split, if_neg h.1, Zone.after, if_neg h.1, if_neg h.2]

theorem split_others {ds : List Char} (h : ∀ c ∈ ds, c ≠ '"' ∧ c ≠ '\\') (word cs : List Char) :
    split .string word (ds ++ cs) = split .string (word ++ ds) cs := by
  induction ds generalizing word with
  | nil => rw [List.append_nil, List.nil_append]
  | cons d ds ih =>
    obtain ⟨hd, hds⟩ := List.forall_mem_cons.1 h
    rw [List.cons_append, split_other hd, ih hds, List.append_assoc, List.singleton_append]

theorem split_escape (c : Char) (word cs : List Char) :
    split .string word ('\\' :: c :: cs) = split .string (word ++ ['\\', c]) cs := by
  rw [List.append_cons word '\\' [c]]
  rfl

theorem split_piece (p : Piece) (word cs : List Char) :
    split .string word (p.text ++ cs) = split .string (word ++ p.text) cs := by
  cases p with
  | plain c isPlain => exact split_other (ne_of_isUnescaped isPlain) word cs
  | short marker c known => exact split_escape marker word cs
  | unit marker a b c d isMarker hex =>
    have hdigits := split_others (fun x hx => ne_of_isHexDigit (hex x hx)) (word ++ ['\\', marker]) cs
    rw [List.append_assoc] at hdigits
    exact (split_escape marker word ([a, b, c, d] ++ cs)).trans hdigits

theorem split_body (q : Quoted) (word rest : List Char) :
    split .string word (q.body ++ '"' :: rest) = (word ++ q.body ++ ['"']) :: split .outside [] rest := by
  induction q generalizing word with
  | nil =>
    rw [show Quoted.body [] = [] from rfl, List.append_nil]
    rfl
  | cons p q ih => rw [Quoted.body_cons, List.append_assoc, split_piece, ih, List.append_assoc word]

/-- What is written for a string is one word, whatever is in the string. -/
theorem split_quoted (s : String) (rest : List Char) :
    split .outside [] ('"' :: (escape s.toList ++ ['"']) ++ rest) =
      ('"' :: (escape s.toList ++ ['"'])) :: split .outside [] rest := by
  obtain ⟨q, hbody, -⟩ := exists_body s.toList
  rw [← hbody, List.cons_append, List.append_assoc, split_quote]
  exact split_body q ['"'] rest

/-! ## Numbers -/

theorem isPlain_of_isDigit {c : Char} (h : c.isDigit = true) : isPlain c = true := by
  simp only [isPlain, isGap, isMark, Bool.and_eq_true, Bool.not_eq_true', Bool.or_eq_false_iff, beq_eq_false_iff_ne,
    bne_iff_ne]
  refine ⟨⟨⟨?_, ?_⟩, ⟨⟨⟨⟨?_, ?_⟩, ?_⟩, ?_⟩, ?_⟩, ?_⟩, ?_⟩
  all_goals
    rintro rfl
    cases h

section Literals

variable {ds : List Char}

theorem isPlain_of_digits (h : ∀ c ∈ ds, c.isDigit = true) : ∀ c ∈ ds, isPlain c = true :=
  fun c hc => isPlain_of_isDigit (h c hc)

theorem isPlain_integral (h : Integral ds) : ∀ c ∈ ds, isPlain c = true := by
  cases h with
  | zero => exact forall_mem_of_all (by decide)
  | digits first nonzero rest => exact isPlain_of_digits (List.forall_mem_cons.2 ⟨first, rest⟩)

theorem isPlain_fraction (h : Fraction ds) : ∀ c ∈ ds, isPlain c = true := by
  cases h with
  | point some digits => exact List.forall_mem_cons.2 ⟨by decide, isPlain_of_digits digits⟩

theorem isPlain_exponent (h : Exponent ds) : ∀ c ∈ ds, isPlain c = true := by
  cases h with
  | @marked e sign ds marker signed some digits =>
    have hmarker : isPlain e = true := by rcases marker with rfl | rfl <;> decide
    have hsign : ∀ c ∈ sign, isPlain c = true := by
      rcases signed with rfl | rfl | rfl <;> exact forall_mem_of_all (by decide)
    exact List.forall_mem_cons.2 ⟨hmarker, List.forall_mem_append.2 ⟨hsign, isPlain_of_digits digits⟩⟩

/-- No gap, no mark and no quote is in a number. -/
theorem isPlain_literal (l : Literal) : ∀ c ∈ l.text, isPlain c = true := by
  have hsign : ∀ c ∈ l.sign, isPlain c = true := by
    rcases l.isSign with h | h <;> rw [h] <;> exact forall_mem_of_all (by decide)
  have hfrac : ∀ c ∈ l.frac, isPlain c = true := by
    rcases l.isFraction with h | h
    · rw [h]
      exact forall_mem_of_all (by decide)
    · exact isPlain_fraction h
  have hexp : ∀ c ∈ l.exp, isPlain c = true := by
    rcases l.isExponent with h | h
    · rw [h]
      exact forall_mem_of_all (by decide)
    · exact isPlain_exponent h
  simp only [Literal.text, List.forall_mem_append]
  exact ⟨⟨⟨hsign, isPlain_integral l.isIntegral⟩, hfrac⟩, hexp⟩

theorem literal_ne_nil (l : Literal) : l.text ≠ [] := by
  have hintegral : l.integral ≠ [] := by
    intro h
    cases h ▸ l.isIntegral
  simp [Literal.text, hintegral]

end Literals

theorem split_int (i : Int) {rest : List Char} (hrest : Stops isPlain rest) :
    split .outside [] (intText i ++ rest) = intText i :: split .outside [] rest := by
  obtain ⟨l, htext, -⟩ := exists_literal_int i
  rw [← htext]
  exact split_word l.text (literal_ne_nil l) (isPlain_literal l) hrest

theorem split_real (x : Binary64) {rest : List Char} (hrest : Stops isPlain rest) :
    split .outside [] (realText x ++ rest) = realText x :: split .outside [] rest := by
  unfold realText
  split
  · rename_i hx
    obtain ⟨l, htext, -⟩ := exists_literal_real hx
    rw [← htext]
    exact split_word l.text (literal_ne_nil l) (isPlain_literal l) hrest
  · exact split_word ['n', 'u', 'l', 'l'] (by decide) (forall_mem_of_all (by decide)) hrest

end TableJson.Text

/-! ## Values -/

namespace TableJson.Value

open Text Number Grammar

mutual

/-- The words of a value. -/
def words : Value → List (List Char)
  | .null => [nullText]
  | .boolean b => [booleanText b]
  | .integer n => [intText n.toInt]
  | .uinteger n => [intText n.toNat]
  | .real x => [realText x]
  | .string text => ['"' :: (escape text.toList ++ ['"'])]
  | .array [] => [['['], [']']]
  | .array (v :: vs) => ['['] :: (words v ++ (itemWords vs ++ [[']']]))
  | .object [] => [['\x7b'], ['\x7d']]
  | .object ((name, v) :: ms) =>
    ['\x7b'] :: ('"' :: (escape name.toList ++ ['"'])) :: [':'] :: (words v ++ (memberWords ms ++ [['\x7d']]))

/-- The words of further items, each after a comma. -/
def itemWords : List Value → List (List Char)
  | [] => []
  | v :: vs => [','] :: (words v ++ itemWords vs)

/-- The words of further members, each after a comma. -/
def memberWords : List (String × Value) → List (List Char)
  | [] => []
  | (name, v) :: ms =>
    [','] :: ('"' :: (escape name.toList ++ ['"'])) :: [':'] :: (words v ++ memberWords ms)

end

end TableJson.Value

namespace TableJson.Text

open Grammar Number

/-- All blanks are gaps. -/
structure Spacing.Gaps (spacing : Spacing) : Prop where
  margin : ∀ depth, ∀ c ∈ (spacing.margin depth).chars, isGap c = true
  colon : ∀ c ∈ spacing.colon.chars, isGap c = true

theorem Spacing.gaps_none : Spacing.none.Gaps := ⟨fun _ => by simp [none], by simp [none]⟩

theorem Layout.gaps (layout : Layout) : layout.spacing.Gaps where
  margin depth := by
    intro c hc
    rw [margin_eq] at hc
    rcases List.mem_cons.1 hc with rfl | hc
    · rfl
    · rw [List.eq_of_mem_replicate hc]
      rfl
  colon := by
    unfold spacing
    dsimp only
    split <;> simp [isGap]

section Spelled

variable {spacing : Spacing} {rest : List Char}

theorem stops_items (vs : List Value) (depth : Nat) (hrest : Stops isPlain rest) :
    Stops isPlain (spellItems spacing vs depth ++ rest) := by
  cases vs with
  | nil => exact hrest
  | cons v vs => exact stops_cons _ (by decide)

theorem stops_members (ms : List (String × Value)) (depth : Nat) (hrest : Stops isPlain rest) :
    Stops isPlain (spellMembers spacing ms depth ++ rest) := by
  cases ms with
  | nil => exact hrest
  | cons p ms => exact stops_cons _ (by decide)

theorem not_isPlain_of_isGap {c : Char} (h : isGap c = true) : isPlain c = false := by simp [isPlain, h]

theorem not_isPlain_of_isMark {c : Char} (h : isMark c = true) : isPlain c = false := by simp [isPlain, h]

/-- The end of a container comes after gaps, which are no words. -/
theorem split_end (hspacing : spacing.Gaps) (depth : Nat) {c : Char} (hc : isMark c = true) (rest : List Char) :
    Stops isPlain ((spacing.margin depth).chars ++ c :: rest) ∧
      split .outside [] ((spacing.margin depth).chars ++ c :: rest) = [c] :: split .outside [] rest := by
  have hmargin := hspacing.margin depth
  constructor
  · cases hchars : (spacing.margin depth).chars with
    | nil => exact stops_cons rest (not_isPlain_of_isMark hc)
    | cons b bs =>
      rw [hchars] at hmargin
      exact stops_cons _ (not_isPlain_of_isGap (hmargin b (List.mem_cons_self ..)))
  · rw [split_gaps hmargin]
    exact split_mark [] rest hc

variable (hspacing : spacing.Gaps)

include hspacing

mutual

/-- The words of a value are those of what is spelled for it, whatever follows that is no part of a word. -/
theorem split_spell : ∀ (v : Value) (depth : Nat) {rest : List Char}, Stops isPlain rest →
    split .outside [] (spell spacing v depth ++ rest) = v.words ++ split .outside [] rest
  | .null, _, _, hrest => split_word nullText (by decide) (forall_mem_of_all (by decide)) hrest
  | .boolean true, _, _, hrest =>
    split_word (booleanText true) (by decide) (forall_mem_of_all (by decide)) hrest
  | .boolean false, _, _, hrest =>
    split_word (booleanText false) (by decide) (forall_mem_of_all (by decide)) hrest
  | .integer n, _, _, hrest => split_int n.toInt hrest
  | .uinteger n, _, _, hrest => split_int n.toNat hrest
  | .real x, _, _, hrest => split_real x hrest
  | .string text, _, rest, _ => split_quoted text rest
  | .array [], _, rest, _ => rfl
  | .array (v :: vs), depth, rest, _ => by
    obtain ⟨hstops, hend⟩ := split_end hspacing depth (show isMark ']' = true by decide) rest
    simp only [spell, Value.words, List.cons_append, List.append_assoc, List.nil_append]
    rw [split_mark [] _ (by decide), split_gaps (hspacing.margin (depth + 1)),
      split_spell v (depth + 1) (stops_items vs (depth + 1) hstops), split_items vs (depth + 1) hstops, hend]
    rfl
  | .object [], _, rest, _ => rfl
  | .object ((name, v) :: ms), depth, rest, _ => by
    obtain ⟨hstops, hend⟩ := split_end hspacing depth (show isMark '\x7d' = true by decide) rest
    have hname := split_quoted name
    simp only [spell, Value.words, List.cons_append, List.append_assoc, List.nil_append] at hname ⊢
    rw [split_mark [] _ (by decide), split_gaps (hspacing.margin (depth + 1)), hname, split_mark [] _ (by decide),
      split_gaps hspacing.colon, split_spell v (depth + 1) (stops_members ms (depth + 1) hstops),
      split_members ms (depth + 1) hstops, hend]
    rfl

theorem split_items : ∀ (vs : List Value) (depth : Nat) {rest : List Char}, Stops isPlain rest →
    split .outside [] (spellItems spacing vs depth ++ rest) = Value.itemWords vs ++ split .outside [] rest
  | [], _, _, _ => rfl
  | v :: vs, depth, rest, hrest => by
    simp only [spellItems, Value.itemWords, List.cons_append, List.append_assoc]
    rw [split_mark [] _ (by decide), split_gaps (hspacing.margin depth),
      split_spell v depth (stops_items vs depth hrest), split_items vs depth hrest]
    rfl

theorem split_members : ∀ (ms : List (String × Value)) (depth : Nat) {rest : List Char}, Stops isPlain rest →
    split .outside [] (spellMembers spacing ms depth ++ rest) = Value.memberWords ms ++ split .outside [] rest
  | [], _, _, _ => rfl
  | (name, v) :: ms, depth, rest, hrest => by
    have hname := split_quoted name
    simp only [spellMembers, Value.memberWords, List.cons_append, List.append_assoc, List.nil_append] at hname ⊢
    rw [split_mark [] _ (by decide), split_gaps (hspacing.margin depth), hname, split_mark [] _ (by decide),
      split_gaps hspacing.colon, split_spell v depth (stops_members ms depth hrest), split_members ms depth hrest]
    rfl

end

end Spelled

mutual

/-- Spelled without blanks, a value is its words one after another. -/
theorem flatten_words : ∀ (v : Value) (depth : Nat), v.words.flatten = spell .none v depth
  | .null, _ => List.flatten_singleton
  | .boolean _, _ => List.flatten_singleton
  | .integer _, _ => List.flatten_singleton
  | .uinteger _, _ => List.flatten_singleton
  | .real _, _ => List.flatten_singleton
  | .string _, _ => List.flatten_singleton
  | .array [], _ => rfl
  | .array (v :: vs), depth => by
    simp [Value.words, spell, Spacing.none, flatten_words v (depth + 1), flatten_itemWords vs (depth + 1)]
  | .object [], _ => rfl
  | .object ((name, v) :: ms), depth => by
    simp [Value.words, spell, Spacing.none, flatten_words v (depth + 1), flatten_memberWords ms (depth + 1)]

theorem flatten_itemWords : ∀ (vs : List Value) (depth : Nat),
    (Value.itemWords vs).flatten = spellItems .none vs depth
  | [], _ => rfl
  | v :: vs, depth => by
    simp [Value.itemWords, spellItems, Spacing.none, flatten_words v depth, flatten_itemWords vs depth]

theorem flatten_memberWords : ∀ (ms : List (String × Value)) (depth : Nat),
    (Value.memberWords ms).flatten = spellMembers .none ms depth
  | [], _ => rfl
  | (name, v) :: ms, depth => by
    simp [Value.memberWords, spellMembers, Spacing.none, flatten_words v depth, flatten_memberWords ms depth]

end

/-! ## Printed text -/

/-- Pretty text without the spaces and newlines outside its strings is compact text.  Both have the same words, those
of the value: no space or newline within a word is lost or added, and none parts a word or joins two. -/
theorem pretty_condensed (layout : Layout) (v : Value) :
    condense .outside (v.pretty layout).toList = v.compact.toList ∧
    split .outside [] (v.pretty layout).toList = v.words ∧ split .outside [] v.compact.toList = v.words := by
  have hspell {spacing : Spacing} (hspacing : spacing.Gaps) : split .outside [] (spell spacing v 0) = v.words := by
    have hsplit := split_spell hspacing v 0 (stops_nil isPlain)
    rwa [List.append_nil, show split .outside [] [] = [] from rfl, List.append_nil] at hsplit
  have hpretty : split .outside [] (v.pretty layout).toList = v.words := by
    rw [pretty_eq, String.toList_ofList]
    exact hspell layout.gaps
  have hcompact : split .outside [] v.compact.toList = v.words := by
    rw [compact_eq, String.toList_ofList]
    exact hspell Spacing.gaps_none
  refine ⟨?_, hpretty, hcompact⟩
  calc condense .outside (v.pretty layout).toList
      = (split .outside [] (v.pretty layout).toList).flatten := by rw [flatten_split, List.nil_append]
    _ = v.words.flatten := by rw [hpretty]
    _ = v.compact.toList := by rw [flatten_words v 0, compact_eq, String.toList_ofList]

end TableJson.Text
