import TableJson.Proofs.Grammar.Lexing

/-!
# Numbers in text — the table of a number

* `number_of_reads`: what the table takes is a number, and it hands over the parts of it.
* `reads_number_text`: a number that is ahead is taken, if a delimiter or nothing follows it.
* `reads_number_other`: where neither a sign nor a digit is ahead, only a missing sign is handed over.
-/

namespace TableJson.Grammar

open Machine Utf8 Scan

/-! ## Parts by their sets -/

theorem integral_of_sets {d : Char} {ds : List Char} (hd : d ∈ "123456789".toList)
    (hds : ∀ c ∈ ds, inSet digits c = true) : Integral (d :: ds) := by
  have hall : ∀ c ∈ "123456789".toList, c.isDigit = true ∧ c ≠ '0' := forall_mem_of_all (by decide)
  refine .digits (hall d hd).1 (hall d hd).2 fun c hc => ?_
  rw [← inSet_digits]
  exact hds c hc

theorem exponent_of_sets {e : Char} {sign ds : List Char} (he : e ∈ "eE".toList)
    (hsign : (∃ c, sign = [c] ∧ c ∈ "-+".toList) ∨ sign = []) (hsome : ds ≠ [])
    (hdigits : ∀ c ∈ ds, c.isDigit = true) : Exponent (e :: (sign ++ ds)) := by
  have hmarker : e = 'e' ∨ e = 'E' := by simpa using he
  refine .marked hmarker ?_ hsome hdigits
  rcases hsign with ⟨c, rfl, hc⟩ | rfl
  · have hc : c = '-' ∨ c = '+' := by simpa using hc
    rcases hc with rfl | rfl
    · exact Or.inr (Or.inl rfl)
    · exact Or.inr (Or.inr rfl)
  · exact Or.inl rfl

theorem sign_of_set {sign : List Char} (h : (∃ c, sign = [c] ∧ c ∈ "-".toList) ∨ sign = []) :
    sign = [] ∨ sign = ['-'] := by
  rcases h with ⟨c, rfl, hc⟩ | rfl
  · exact Or.inr (by simpa using hc)
  · exact Or.inl rfl

/-! ## What is taken -/

section Sound

variable (n : Nat)

theorem lexes_someDigits : Lexes (tests n someDigits) fun ds => ds ≠ [] ∧ ∀ c ∈ ds, c.isDigit = true := by
  refine (Lexes.repeatOneOf digits 1 none).mono fun ds ⟨hds, hlen, _⟩ => ⟨?_, fun c hc => ?_⟩
  · exact List.ne_nil_of_length_pos hlen
  · rw [← inSet_digits]
    exact hds c hc

theorem lexes_decimal :
    Lexes (reads n .decimal) fun ds => Integral ds := by
  cases n with
  | zero => exact Lexes.zero _
  | succ n =>
    rw [show reads (n + 1) .decimal = _ from funext (reads_decimal n)]
    refine ((Lexes.oneOf _).andThen (Lexes.repeatOneOf digits 0 none)).mono ?_
    rintro _ ⟨_, ds, rfl, ⟨d, rfl, hd⟩, hds, -⟩
    exact integral_of_sets hd hds

theorem lexes_int : Lexes (reads n .int) Integral := by
  cases n with
  | zero => exact Lexes.zero _
  | succ n =>
    rw [show reads (n + 1) .int = _ from funext (reads_int n)]
    refine ((Lexes.oneOf "0").orElse (lexes_decimal n)).mono ?_
    rintro ds (⟨c, rfl, hc⟩ | hds)
    · obtain rfl : c = '0' := by simpa using hc
      exact .zero
    · exact hds

theorem lexes_frac : Lexes (reads n .frac) Fraction := by
  cases n with
  | zero => exact Lexes.zero _
  | succ n =>
    rw [show reads (n + 1) .frac = _ from funext (reads_frac n)]
    have hdigits := (lexes_someDigits n).orElse (Lexes.malformed (P := fun _ => False) 2)
    refine ((Lexes.oneOf ".").andThen hdigits).mono ?_
    rintro _ ⟨_, ds, rfl, ⟨c, rfl, hc⟩, hds⟩
    obtain rfl : c = '.' := by simpa using hc
    obtain ⟨hsome, hall⟩ := hds.resolve_right not_false
    exact .point hsome hall

theorem lexes_exp : Lexes (reads n .exp) Exponent := by
  cases n with
  | zero => exact Lexes.zero _
  | succ n =>
    rw [show reads (n + 1) .exp = _ from funext (reads_exp n)]
    have hdigits := (lexes_someDigits n).orElse (Lexes.malformed (P := fun _ => False) 3)
    refine ((Lexes.oneOf "eE").andThen ((Lexes.optOneOf "-+").andThen hdigits)).mono ?_
    rintro _ ⟨_, _, rfl, ⟨e, rfl, he⟩, sign, ds, rfl, hs, hds⟩
    obtain ⟨hsome, hall⟩ := hds.resolve_right not_false
    show Exponent (e :: (sign ++ ds))
    exact exponent_of_sets he hs hsome hall

/-- What stands after the sign of a number. -/
theorem parts_of_unsigned {o : Nat} {cs : List Char} {there : Cursor} {tr : List (Action × Match)}
    (h : unsigned n (.text o cs) = (.matched there, tr)) :
    ∃ int frac exp r, cs = int ++ (frac ++ (exp ++ r)) ∧ Integral int ∧ (frac = [] ∨ Fraction frac) ∧
      (exp = [] ∨ Exponent exp) ∧ there = .text (o + size (int ++ frac ++ exp)) r ∧
      tr = [(.numberIntegral, ⟨o, encode int⟩), (.numberFrac, ⟨o + size int, encode frac⟩),
        (.numberExp, ⟨o + size (int ++ frac), encode exp⟩)] := by
  obtain ⟨c, _, _, hint, h₁, rfl⟩ := andThen_eq_matched.1 h
  obtain ⟨int, _, rfl, hi, rfl, rfl⟩ := (lexes_int n).word hint
  obtain ⟨_, h₂, rfl⟩ := after_eq_iff.1 h₁
  obtain ⟨d, _, _, hfrac, h₃, rfl⟩ := andThen_eq_matched.1 h₂
  obtain ⟨frac, _, rfl, hf, rfl, rfl⟩ := (lexes_frac n).optTable.word hfrac
  obtain ⟨_, h₄, rfl⟩ := after_eq_iff.1 h₃
  obtain ⟨e, _, _, hexp, h₅, rfl⟩ := andThen_eq_matched.1 h₄
  obtain ⟨exp, r, rfl, he, rfl, rfl⟩ := (lexes_exp n).optTable.word hexp
  obtain ⟨hthere, rfl⟩ := Prod.mk.inj h₅
  obtain rfl := Outcome.matched.inj hthere
  refine ⟨int, frac, exp, r, rfl, hi, hf.symm, he.symm, ?_, ?_⟩
  · simp [Nat.add_assoc]
  · simp only [Match.between_text, size_append, ← Nat.add_assoc]
    rfl

/-- Whatever the table of a number takes is a number, and it hands over the parts of it. -/
theorem number_of_reads {o : Nat} {cs : List Char} {there : Cursor} {tr : List (Action × Match)}
    (h : reads n .number (.text o cs) = (.matched there, tr)) :
    ∃ (l : Literal) (r : List Char), cs = l.text ++ r ∧ there = .text (o + size l.text) r ∧ tr = l.trace o := by
  cases n with
  | zero => simp [reads_zero] at h
  | succ n =>
    rw [reads_number] at h
    rcases hs : tests n (.optOneOf "-") (.text o cs) with ⟨c | _ | _ | _, tr₁⟩
    · obtain ⟨sign, _, rfl, hsign, rfl, rfl⟩ := (Lexes.optOneOf "-").word hs
      rw [hs, fork_matched, after_nil] at h
      obtain ⟨_, h₁, rfl⟩ := after_eq_iff.1 h
      obtain ⟨int, frac, exp, r, rfl, hi, hf, he, rfl, rfl⟩ := parts_of_unsigned n h₁
      refine ⟨⟨sign, int, frac, exp, sign_of_set hsign, hi, hf, he⟩, r, by simp [Literal.text], ?_, ?_⟩
      · simp [Literal.text, Nat.add_assoc]
      · simp [Literal.trace, Match.between_text, Nat.add_assoc]
    · rw [tests_optOneOf, orElse_eq_mismatch] at hs
      simp at hs
    · simp [hs] at h
    · simp [hs] at h

theorem tests_optTable_ne_mismatch (t : Rule) (here : Cursor) (tr : List (Action × Match)) :
    tests n (.optTable t) here ≠ (.mismatch, tr) := by
  intro h
  rw [tests_optTable, orElse_eq_mismatch] at h
  simp at h

/-- A walk that finds no number has handed over a missing sign at most. -/
theorem trace_of_no_number {o : Nat} {cs : List Char} {tr : List (Action × Match)} (hcs : Stops (· == '-') cs)
    (h : reads n .number (.text o cs) = (.mismatch, tr)) : tr = [(.numberSign, ⟨o, []⟩)] := by
  cases n with
  | zero => simp [reads_zero] at h
  | succ n =>
    have hs : tests n (.optOneOf "-") (.text o cs) = (.matched (.text o cs), []) := by
      rw [tests_optOneOf]
      cases cs with
      | nil => simp
      | cons c cs =>
        have hc : inSet "-" c = false := by simpa [inSet] using hcs c rfl
        simp [hc]
    rw [reads_number, hs, fork_matched, after_nil, after_eq_iff] at h
    obtain ⟨tr, hu, rfl⟩ := h
    have htr : tr = [] := by
      rcases andThen_eq_mismatch.1 hu with hi | ⟨c, _, _, -, hi, -⟩
      · exact (lexes_int n).silent hi
      · -- the parts after the digits may be missing, so that they never fail to match
        obtain ⟨_, hf, -⟩ := after_eq_iff.1 hi
        rcases andThen_eq_mismatch.1 hf with hf' | ⟨d, _, _, -, hf', -⟩
        · exact absurd hf' (tests_optTable_ne_mismatch n _ _ _)
        · obtain ⟨_, he, -⟩ := after_eq_iff.1 hf'
          rcases andThen_eq_mismatch.1 he with he' | ⟨e, _, _, -, he', -⟩
          · exact absurd he' (tests_optTable_ne_mismatch n _ _ _)
          · simp at he'
    rw [htr, Match.between_self]
    rfl

end Sound

/-! ## What is ahead -/

section Complete

/-- A character that ends a word: a blank, a comma or the end of a container. -/
def isDelimiter (c : Char) : Bool := isBlank c || c == ',' || c == ']' || c == '\x7d'

/-- A delimiter comes next, or nothing. -/
def Delimits (r : List Char) : Prop := ∀ c ∈ r.head?, isDelimiter c = true

/-- No class of characters without delimiters goes on where one comes next. -/
theorem Delimits.stops {p : Char → Bool} (hp : ∀ c, isDelimiter c = true → p c = false)
    {r : List Char} (h : Delimits r) :
    Stops p r := fun c hc => hp c (h c hc)

theorem isDelimiter_iff {c : Char} :
    isDelimiter c = true ↔ c = ' ' ∨ c = '\t' ∨ c = '\n' ∨ c = '\r' ∨ c = ',' ∨ c = ']' ∨ c = '\x7d' := by
  simp [isDelimiter, isBlank, or_assoc]

theorem not_digit_of_delimiter {c : Char} (h : isDelimiter c = true) : c.isDigit = false := by
  rcases isDelimiter_iff.1 h with rfl | rfl | rfl | rfl | rfl | rfl | rfl <;> rfl

variable (n o : Nat) {r : List Char}

theorem tests_digits_text (min : Nat) {ds : List Char} (hds : ∀ c ∈ ds, c.isDigit = true) (hmin : min ≤ ds.length)
    (hr : Stops Char.isDigit r) :
    tests n (.repeatOneOf digits min none) (.text o (ds ++ r)) = (.matched (.text (o + size ds) r), []) := by
  refine tests_repeatOneOf_text n o (fun c hc => ?_) hmin fun c hc => ?_
  · rw [inSet_digits]
    exact hds c hc
  · rw [inSet_digits]
    exact hr c hc

theorem reads_int_text {int : List Char} (h : Integral int) (hr : Stops Char.isDigit r) :
    reads (n + 2) .int (.text o (int ++ r)) = (.matched (.text (o + size int) r), []) := by
  cases h with
  | zero => simp [reads_int, inSet]
  | @digits d ds first nonzero rest =>
    have hzero : inSet "0" d = false := by simpa [inSet] using nonzero
    have hall : ∀ k < 58, 48 ≤ k ∧ k ≤ 57 → Char.ofNat k ≠ '0' → inSet "123456789" (Char.ofNat k) = true := by decide
    have hfirst : inSet "123456789" d = true := by
      have hd := isDigit_iff.1 first
      have h1 := hall d.toNat (by omega) hd
      rw [Char.ofNat_toNat] at h1
      exact h1 nonzero
    rw [reads_int, reads_decimal, List.cons_append, tests_oneOf_cons, tests_oneOf_cons, hzero, hfirst]
    simp only [Bool.false_eq_true, if_false, if_true, orElse_mismatch, andThen_matched, after_nil]
    rw [anyDigits, tests_digits_text n _ 0 rest (Nat.zero_le _) hr]
    simp [Nat.add_assoc]

theorem reads_frac_text {frac : List Char} (h : frac = [] ∨ Fraction frac) (hr : Stops Char.isDigit r)
    (hpoint : Stops (· == '.') r) :
    tests (n + 1) (.optTable .frac) (.text o (frac ++ r)) = (.matched (.text (o + size frac) r), []) := by
  rw [tests_optTable, reads_frac]
  rcases h with rfl | ⟨hsome, hdigits⟩
  · cases r with
    | nil => simp
    | cons c r =>
      have hc : inSet "." c = false := by simpa [inSet] using hpoint c rfl
      simp [hc]
  · have hlen := List.length_pos_iff.2 hsome
    have hset : inSet "." '.' = true := by decide
    rw [List.cons_append, tests_oneOf_cons, hset, if_pos rfl, andThen_matched, after_nil, someDigits,
      tests_digits_text n _ 1 hdigits hlen hr]
    simp [Nat.add_assoc]

theorem reads_exp_text {exp : List Char} (h : exp = [] ∨ Exponent exp) (hr : Delimits r) :
    tests (n + 1) (.optTable .exp) (.text o (exp ++ r)) = (.matched (.text (o + size exp) r), []) := by
  have hstop : Stops Char.isDigit r := hr.stops fun c => not_digit_of_delimiter
  rw [tests_optTable, reads_exp]
  rcases h with rfl | @⟨e, sign, ds, marker, signed, hsome, hdigits⟩
  · cases r with
    | nil => simp
    | cons c r =>
      have hc : inSet "eE" c = false := by
        exact inSet_eq_false (p := isDelimiter) (b := false) (forall_mem_of_all (by decide)) (hr c rfl)
      simp [hc]
  · have hlen := List.length_pos_iff.2 hsome
    have hset : inSet "eE" e = true := by
      rcases marker with rfl | rfl <;> decide
    have hsign : tests n (.optOneOf "-+") (.text (o + e.utf8Size) (sign ++ (ds ++ r))) =
        (.matched (.text (o + e.utf8Size + size sign) (ds ++ r)), []) := by
      rw [tests_optOneOf]
      rcases signed with rfl | rfl | rfl
      · obtain ⟨d, ds', rfl⟩ := List.exists_cons_of_ne_nil hsome
        have hd : inSet "-+" d = false :=
          inSet_eq_false (p := Char.isDigit) (b := false) (forall_mem_of_all (by decide))
            (hdigits d (List.mem_cons_self ..))
        simp [hd]
      · simp [inSet]
      · simp [inSet]
    rw [List.cons_append, List.append_assoc, tests_oneOf_cons, hset, if_pos rfl, andThen_matched, after_nil, hsign,
      andThen_matched, after_nil, someDigits, tests_digits_text n _ 1 hdigits hlen hstop]
    simp [Nat.add_assoc]

theorem stops_exp {p : Char → Bool} {exp : List Char} (h : exp = [] ∨ Exponent exp) (he : p 'e' = false ∧ p 'E' = false)
    (hr : Stops p r) : Stops p (exp ++ r) := by
  rcases h with rfl | ⟨rfl | rfl, _, _, _⟩
  · exact hr
  · exact stops_cons _ he.1
  · exact stops_cons _ he.2

theorem unsigned_text {int frac exp : List Char} (hi : Integral int) (hf : frac = [] ∨ Fraction frac)
    (he : exp = [] ∨ Exponent exp) (hr : Delimits r) :
    unsigned (n + 2) (.text o (int ++ (frac ++ (exp ++ r)))) =
      (.matched (.text (o + size (int ++ frac ++ exp)) r),
        [(.numberIntegral, ⟨o, encode int⟩), (.numberFrac, ⟨o + size int, encode frac⟩),
          (.numberExp, ⟨o + size (int ++ frac), encode exp⟩)]) := by
  have hdigit : Stops Char.isDigit (exp ++ r) :=
    stops_exp he ⟨rfl, rfl⟩ (hr.stops fun c => not_digit_of_delimiter)
  have hpoint : Stops (· == '.') (exp ++ r) := by
    refine stops_exp he ⟨rfl, rfl⟩ (hr.stops fun c hc => ?_)
    rcases isDelimiter_iff.1 hc with rfl | rfl | rfl | rfl | rfl | rfl | rfl <;> rfl
  have hdigit' : Stops Char.isDigit (frac ++ (exp ++ r)) := by
    rcases hf with rfl | ⟨-, -⟩
    · exact hdigit
    · exact stops_cons _ rfl
  rw [unsigned, reads_int_text n o hi hdigit', andThen_matched, after_nil, reads_frac_text (n + 1) _ hf hdigit hpoint,
    andThen_matched, after_nil, reads_exp_text (n + 1) _ he hr, andThen_matched, after_nil]
  simp only [Match.between_text, after_mk, size_append, ← Nat.add_assoc]
  rfl

/-- A number that is ahead is taken. -/
theorem reads_number_text (l : Literal) (hr : Delimits r) :
    reads (n + 3) .number (.text o (l.text ++ r)) = (.matched (.text (o + size l.text) r), l.trace o) := by
  obtain ⟨sign, int, frac, exp, hs, hi, hf, he⟩ := l
  have hsign : tests (n + 2) (.optOneOf "-") (.text o (sign ++ (int ++ (frac ++ (exp ++ r))))) =
      (.matched (.text (o + size sign) (int ++ (frac ++ (exp ++ r)))), []) := by
    rw [tests_optOneOf]
    rcases hs with rfl | rfl
    · cases hi with
      | zero => simp [inSet]
      | @digits d ds first nonzero rest =>
        have hd : inSet "-" d = false := inSet_eq_false (p := Char.isDigit) (b := false) (by simp) first
        simp [hd]
    · simp [inSet]
  simp only [Literal.text, Literal.trace, List.append_assoc]
  rw [reads_number, hsign, fork_matched, after_nil, unsigned_text n _ hi hf he hr]
  simp only [Match.between_text, after_mk, size_append, ← Nat.add_assoc]
  rfl

/-- Where neither a sign nor a digit is ahead there is no number. -/
theorem reads_number_other {cs : List Char} (hsign : Stops (· == '-') cs) (hdigit : Stops Char.isDigit cs) :
    reads (n + 3) .number (.text o cs) = (.mismatch, [(.numberSign, ⟨o, []⟩)]) := by
  rw [reads_number, tests_optOneOf]
  cases cs with
  | nil => simp [unsigned, reads_int, reads_decimal, Match.between_self]
  | cons c cs =>
    have hc : inSet "-" c = false := by simpa [inSet] using hsign c rfl
    have hzero : inSet "0" c = false :=
      inSet_eq_false (p := Char.isDigit) (b := true) (forall_mem_of_all (by decide)) (hdigit c rfl)
    have hrest : inSet "123456789" c = false :=
      inSet_eq_false (p := Char.isDigit) (b := true) (forall_mem_of_all (by decide)) (hdigit c rfl)
    simp [unsigned, reads_int, reads_decimal, hc, hzero, hrest, Match.between_self]

end Complete

end TableJson.Grammar
