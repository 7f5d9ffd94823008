import TableJson.Proofs.Grammar.Depths
import TableJson.Proofs.Machine.Paths

/-!
# Languages — the words of each table

`Words t` says what the table `t` stands for: numbers, strings with their pieces, structural characters among blanks,
trees and their parts, documents.  The rows keep to it, read as a grammar (`speaks_rows`).  So a walk looks at nothing
beyond the start of a document (`viable_of_look`): whatever it looks at, some text goes on from there to the end of one.
-/

namespace TableJson.Grammar

open Machine Utf8

/-- What the tables stand for. -/
def Words : Rule → List Char → Prop
  | .exp => Exponent
  | .frac => Fraction
  | .decimal => Integral
  | .int => Integral
  | .number => fun w => ∃ l : Literal, w = l.text
  | .beginArray => fun w => ∃ a : Around, w = a.text '['
  | .endArray => fun w => ∃ a : Around, w = a.text ']'
  | .beginObject => fun w => ∃ a : Around, w = a.text '\x7b'
  | .endObject => fun w => ∃ a : Around, w = a.text '\x7d'
  | .nameSeparator => fun w => ∃ a : Around, w = a.text ':'
  | .valueSeparator => fun w => ∃ a : Around, w = a.text ','
  | .unescaped => Single isUnescaped
  | .unicode => fun w => ∃ p : Piece, '\\' :: w = p.text
  | .escapedChar => fun w => ∃ p : Piece, '\\' :: w = p.text
  | .escaped => fun w => ∃ p : Piece, w = p.text
  | .char => fun w => ∃ p : Piece, w = p.text
  | .string => fun w => ∃ q : Quoted, w = q.text
  | .value => fun w => ∃ t : Tree, w = t.text
  | .member => fun w => ∃ (label : Label .object) (t : Tree), w = label.text ++ t.text
  | .nextMember => fun w =>
    ∃ (comma : Around) (label : Label .object) (t : Tree), w = comma.text ',' ++ (label.text ++ t.text)
  | .objectBody => fun w => ∃ body : Body .object, w = body.text
  | .object => fun w => ∃ opening body closing, w = (Tree.container .object opening body closing).text
  | .nextValue => fun w =>
    ∃ (comma : Around) (label : Label .array) (t : Tree), w = comma.text ',' ++ (label.text ++ t.text)
  | .arrayBody => fun w => ∃ body : Body .array, w = body.text
  | .array => fun w => ∃ opening body closing, w = (Tree.container .array opening body closing).text
  | .jsonText => fun w => ∃ d : Document, w = d.text

theorem exists_words (t : Rule) : ∃ w, Words t w := by
  have hzero : Integral ['0'] := .zero
  have hdigit : ∀ c ∈ ['0'], c.isDigit = true := List.forall_mem_singleton.2 rfl
  have hhex : ∀ c ∈ ['0', '0', '0', '0'], isHexDigit c = true := List.all_eq_true.1 rfl
  have hu : Piece.text (.unit 'u' '0' '0' '0' '0' (Or.inl rfl) hhex) = '\\' :: ['u', '0', '0', '0', '0'] := rfl
  cases t with
  | exp => exact ⟨_, .marked (Or.inl rfl) (Or.inl rfl) (List.cons_ne_nil '0' []) hdigit⟩
  | frac => exact ⟨_, .point (List.cons_ne_nil '0' []) hdigit⟩
  | decimal => exact ⟨_, hzero⟩
  | int => exact ⟨_, hzero⟩
  | number => exact ⟨_, ⟨[], ['0'], [], [], Or.inl rfl, hzero, Or.inl rfl, Or.inl rfl⟩, rfl⟩
  | unescaped => exact ⟨[' '], ' ', by decide, rfl⟩
  | unicode => exact ⟨_, _, hu.symm⟩
  | escapedChar => exact ⟨_, _, hu.symm⟩
  | escaped => exact ⟨_, _, hu.symm⟩
  | char => exact ⟨_, _, hu.symm⟩
  | string => exact ⟨_, [], rfl⟩
  | value => exact ⟨_, .null, rfl⟩
  | member => exact ⟨_, .member [] {}, .null, rfl⟩
  | nextMember => exact ⟨_, {}, .member [] {}, .null, rfl⟩
  | objectBody => exact ⟨_, .empty _, rfl⟩
  | object => exact ⟨_, {}, .empty _, {}, rfl⟩
  | nextValue => exact ⟨_, {}, .item, .null, rfl⟩
  | arrayBody => exact ⟨_, .empty _, rfl⟩
  | array => exact ⟨_, {}, .empty _, {}, rfl⟩
  | jsonText => exact ⟨_, ⟨.none, .null, .none⟩, rfl⟩
  | _ => exact ⟨_, {}, rfl⟩

theorem sensible_rows (t : Rule) : Sensible (rows t) := by
  refine ⟨(forward_rows t).1, ?_, ?_, ?_⟩ <;> cases t <;> decide

/-! ## Paths through the rows -/

/-- A path through the rows of a table, from the first one on. -/
abbrev Leads (t : Rule) (w : List Char) : Prop := Machine.Path (Matcher.Takes Words) (rows t) 0 w

section Paths

variable {w : List Char}

theorem single_of_set {set : String} (h : Single (inSet set) w) : ∃ c, w = [c] ∧ c ∈ set.toList := by
  obtain ⟨c, hc, rfl⟩ := h
  exact ⟨c, rfl, of_decide_eq_true hc⟩

theorem digits_of_repeats {min : Nat} (h : Repeats (Single (inSet digits)) min none w) :
    (∀ c ∈ w, c.isDigit = true) ∧ min ≤ w.length := by
  obtain ⟨hdigits, hmin, -⟩ := h.chars
  refine ⟨fun c hc => ?_, hmin⟩
  rw [← inSet_digits]
  exact hdigits c hc

theorem blanks_of_repeats (h : Repeats (Single (inSet blanks)) 0 none w) : ∃ b : Blanks, w = b.chars := by
  refine ⟨⟨w, fun c hc => ?_⟩, rfl⟩
  rw [← inSet_blanks]
  exact h.chars.1 c hc

/-! ### Numbers -/

theorem exp_of_leads (h : Leads .exp w) : Exponent w := by
  obtain ⟨_, _, rfl, he, hsigned⟩ := h.goes rfl
  obtain ⟨sign, ds, rfl, hsign, hrest⟩ := hsigned.goes rfl
  obtain ⟨hdigits, hmin⟩ :=
    digits_of_repeats ((hrest.leave_or_miss rfl).resolve_right (Machine.Path.not_rejected rfl))
  obtain ⟨e, rfl, hmarker⟩ := single_of_set he
  show Exponent (e :: (sign ++ ds))
  exact exponent_of_sets hmarker (hsign.imp_left single_of_set) (List.ne_nil_of_length_pos hmin) hdigits

theorem frac_of_leads (h : Leads .frac w) : Fraction w := by
  obtain ⟨_, ds, rfl, hpoint, hrest⟩ := h.goes rfl
  obtain ⟨hdigits, hmin⟩ :=
    digits_of_repeats ((hrest.leave_or_miss rfl).resolve_right (Machine.Path.not_rejected rfl))
  obtain ⟨c, rfl, hc⟩ := single_of_set hpoint
  obtain rfl : c = '.' := by simpa using hc
  exact .point (List.ne_nil_of_length_pos hmin) hdigits

theorem decimal_of_leads (h : Leads .decimal w) : Integral w := by
  obtain ⟨_, ds, rfl, hfirst, hrest⟩ := h.goes rfl
  obtain ⟨d, rfl, hd⟩ := single_of_set hfirst
  exact integral_of_sets hd (Machine.Repeats.chars (hrest.leaves rfl)).1

theorem int_of_leads (h : Leads .int w) : Integral w := by
  rcases h.leave_or_miss rfl with hzero | h
  · obtain ⟨c, rfl, hc⟩ := single_of_set hzero
    obtain rfl : c = '0' := by simpa using hc
    exact .zero
  · exact h.leaves rfl

theorem number_of_leads (h : Leads .number w) : ∃ l : Literal, w = l.text := by
  have hunsigned {u : List Char} (h : Machine.Path (Matcher.Takes Words) (rows .number) 1 u) :
      ∃ int frac exp, u = int ++ (frac ++ exp) ∧ Integral int ∧ (frac = [] ∨ Fraction frac) ∧
        (exp = [] ∨ Exponent exp) := by
    obtain ⟨int, _, rfl, hint, hrest⟩ := h.goes rfl
    obtain ⟨frac, exp, rfl, hfrac, hlast⟩ := hrest.goes rfl
    have hexp : Exponent exp ∨ exp = [] := hlast.leaves rfl
    exact ⟨int, frac, exp, rfl, hint, hfrac.symm, hexp.symm⟩
  rcases h.go_or_miss rfl with ⟨sign, _, rfl, hminus, hrest⟩ | hrest
  · obtain ⟨int, frac, exp, rfl, hint, hfrac, hexp⟩ := hunsigned hrest
    have hsign := sign_of_set (hminus.imp_left single_of_set)
    exact ⟨⟨sign, int, frac, exp, hsign, hint, hfrac, hexp⟩, by simp [Literal.text]⟩
  · obtain ⟨int, frac, exp, rfl, hint, hfrac, hexp⟩ := hunsigned hrest
    exact ⟨⟨[], int, frac, exp, Or.inl rfl, hint, hfrac, hexp⟩, by simp [Literal.text]⟩

/-! ### Strings -/

theorem unescaped_of_leads (h : Leads .unescaped w) : Single isUnescaped w := by
  have hrange {lo hi : Char} (h : Single (fun c => decide (lo ≤ c ∧ c ≤ hi)) w)
      (hclass : ∀ c, lo ≤ c ∧ c ≤ hi → isUnescaped c = true) : Single isUnescaped w := by
    obtain ⟨c, hc, rfl⟩ := h
    exact ⟨c, hclass c (of_decide_eq_true hc), rfl⟩
  rcases h.leave_or_miss rfl with h | h
  · exact hrange h fun c hc => isUnescaped_iff.2 (Or.inl hc)
  · rcases h.leave_or_miss rfl with h | h
    · exact hrange h fun c hc => isUnescaped_iff.2 (Or.inr (Or.inl hc))
    · exact hrange (h.leaves rfl) fun c hc => isUnescaped_iff.2 (Or.inr (Or.inr hc))

theorem unicode_of_leads (h : Leads .unicode w) : ∃ p : Piece, '\\' :: w = p.text := by
  obtain ⟨_, ds, rfl, hmarker, hrest⟩ := h.goes rfl
  obtain ⟨m, rfl, hm⟩ := single_of_set hmarker
  obtain ⟨hhex, hmin, hmax⟩ := Machine.Repeats.chars (hrest.leaves rfl)
  exact unit_of_sets hm hhex (Nat.le_antisymm (hmax 4 rfl) hmin)

theorem escapedChar_of_leads (h : Leads .escapedChar w) : ∃ p : Piece, '\\' :: w = p.text := by
  rcases h.leave_or_miss rfl with h | h
  · obtain ⟨m, rfl, hm⟩ := single_of_set h
    obtain ⟨c, hc⟩ := mem_shortEscapes_iff.1 hm
    exact ⟨.short m c hc, rfl⟩
  · exact h.leaves rfl

theorem escaped_of_leads (h : Leads .escaped w) : ∃ p : Piece, w = p.text := by
  obtain ⟨_, u, rfl, hescape, hrest⟩ := h.goes rfl
  obtain ⟨c, rfl, hc⟩ := single_of_set hescape
  obtain rfl : c = '\\' := by simpa using hc
  exact hrest.leaves rfl

theorem char_of_leads (h : Leads .char w) : ∃ p : Piece, w = p.text := by
  rcases h.leave_or_miss rfl with ⟨c, hc, rfl⟩ | h
  · exact ⟨.plain c hc, rfl⟩
  · exact h.leaves rfl

theorem string_of_leads (h : Leads .string w) : ∃ q : Quoted, w = q.text := by
  have hquote {v : List Char} (h : Single (inSet "\"") v) : v = ['"'] := by
    obtain ⟨c, rfl, hc⟩ := single_of_set h
    rw [show c = '"' by simpa using hc]
  obtain ⟨_, _, rfl, hopen, hbody⟩ := h.goes rfl
  obtain ⟨_, _, rfl, ⟨ws, hws, -, -, rfl⟩, hclose⟩ := hbody.goes rfl
  obtain ⟨q, rfl⟩ := exists_pieces hws
  refine ⟨q, ?_⟩
  rw [hquote hopen, hquote (hclose.leaves rfl), Quoted.text, Quoted.body, List.flatMap_def]
  rfl

/-! ### Structure -/

theorem mark_of_leads {t : Rule} {c : Char} (hm : Marks t c) (h : Leads t w) : ∃ a : Around, w = a.text c := by
  obtain ⟨-, set, ht, hset⟩ := hm
  rw [Leads, ht] at h
  obtain ⟨_, _, rfl, hbefore, hrest⟩ := h.goes rfl
  obtain ⟨_, _, rfl, hmark, hlast⟩ := hrest.goes rfl
  obtain ⟨before, rfl⟩ := blanks_of_repeats hbefore
  obtain ⟨after, rfl⟩ := blanks_of_repeats (hlast.leaves rfl)
  obtain ⟨d, rfl, hd⟩ := single_of_set hmark
  rw [hset, List.mem_singleton] at hd
  exact ⟨⟨before, after⟩, by rw [hd]; rfl⟩

theorem value_of_leads (h : Leads .value w) : ∃ t : Tree, w = t.text := by
  rcases h.leave_or_miss rfl with h | h
  · exact ⟨.boolean false, h⟩
  rcases h.leave_or_miss rfl with h | h
  · exact ⟨.null, h⟩
  rcases h.leave_or_miss rfl with h | h
  · exact ⟨.boolean true, h⟩
  rcases h.leave_or_miss rfl with ⟨l, h⟩ | h
  · exact ⟨.number l, h⟩
  rcases h.leave_or_miss rfl with ⟨q, h⟩ | h
  · exact ⟨.string q, h⟩
  rcases h.leave_or_miss rfl with ⟨opening, body, closing, h⟩ | h
  · exact ⟨.container _ opening body closing, h⟩
  · obtain ⟨opening, body, closing, h⟩ := h.leaves rfl
    exact ⟨.container _ opening body closing, h⟩

theorem member_of_leads (h : Leads .member w) : ∃ (label : Label .object) (t : Tree), w = label.text ++ t.text := by
  obtain ⟨_, _, rfl, ⟨name, rfl⟩, hrest⟩ := h.goes rfl
  obtain ⟨_, _, rfl, ⟨colon, rfl⟩, hlast⟩ := hrest.goes rfl
  obtain ⟨t, rfl⟩ := hlast.leaves rfl
  exact ⟨.member name colon, t, (List.append_assoc ..).symm⟩

section Kinds

variable (kind : ContainerKind)

theorem entry_of_words (h : Words (entryRule kind) w) :
    ∃ (label : Label kind) (t : Tree), w = label.text ++ t.text := by
  cases kind with
  | object => exact h
  | array =>
    obtain ⟨t, rfl⟩ := h
    exact ⟨.item, t, rfl⟩

/-- Entries, each after a comma. -/
theorem rest_of_words {ws : List (List Char)}
    (h : ∀ v ∈ ws, ∃ (comma : Around) (label : Label kind) (t : Tree), v = comma.text ',' ++ (label.text ++ t.text)) :
    ∃ rest : Rest kind, ws.flatten = rest.text := by
  induction ws with
  | nil => exact ⟨.nil kind, rfl⟩
  | cons v ws ih =>
    obtain ⟨⟨comma, label, t, rfl⟩, hws⟩ := List.forall_mem_cons.1 h
    obtain ⟨rest, hrest⟩ := ih hws
    exact ⟨.cons comma label t rest, by simp [Rest.text, hrest]⟩

theorem next_of_leads (h : Leads (nextRule kind) w) :
    ∃ (comma : Around) (label : Label kind) (t : Tree), w = comma.text ',' ++ (label.text ++ t.text) := by
  obtain ⟨_, u, rfl, ⟨comma, rfl⟩, hentry⟩ :
      ∃ v u, w = v ++ u ∧ Words .valueSeparator v ∧ Words (entryRule kind) u := by
    cases kind <;>
    · obtain ⟨v, u, hw, hcomma, h⟩ := h.goes rfl
      exact ⟨v, u, hw, hcomma, h.leaves rfl⟩
  obtain ⟨label, t, rfl⟩ := entry_of_words kind hentry
  exact ⟨comma, label, t, rfl⟩

theorem body_of_leads (h : Leads (bodyRule kind) w) : ∃ body : Body kind, w = body.text := by
  obtain ⟨_, _, rfl, hentry, ws, hws, -, -, rfl⟩ :
      ∃ v u, w = v ++ u ∧ Words (entryRule kind) v ∧ Repeats (Words (nextRule kind)) 0 none u := by
    cases kind <;>
    · obtain ⟨v, u, hw, hentry, hrest⟩ := h.goes rfl
      exact ⟨v, u, hw, hentry, hrest.leaves rfl⟩
  obtain ⟨label, t, rfl⟩ := entry_of_words kind hentry
  have hfurther : ∀ v ∈ ws, ∃ (comma : Around) (label : Label kind) (t : Tree),
      v = comma.text ',' ++ (label.text ++ t.text) := by
    cases kind <;> exact hws
  obtain ⟨rest, hrest⟩ := rest_of_words kind hfurther
  exact ⟨.entries label t rest, by rw [hrest, Body.text, List.append_assoc]⟩

theorem container_of_leads (h : Leads (containerRule kind) w) :
    ∃ opening body closing, w = (Tree.container kind opening body closing).text := by
  obtain ⟨_, _, _, rfl, ⟨opening, rfl⟩, hbody, closing, rfl⟩ :
      ∃ v u x, w = v ++ (u ++ x) ∧ (∃ a : Around, v = a.text (openChar kind)) ∧
        ((∃ body : Body kind, u = body.text) ∨ u = []) ∧ ∃ a : Around, x = a.text (closeChar kind) := by
    cases kind <;>
    · obtain ⟨v, _, rfl, hopen, hrest⟩ := h.goes rfl
      obtain ⟨u, x, rfl, hbody, hlast⟩ := hrest.goes rfl
      exact ⟨v, u, x, rfl, hopen, hbody, hlast.leaves rfl⟩
  rcases hbody with ⟨body, rfl⟩ | rfl
  · exact ⟨opening, body, closing, rfl⟩
  · exact ⟨opening, .empty kind, closing, rfl⟩

end Kinds

theorem document_of_leads (h : Leads .jsonText w) : ∃ d : Document, w = d.text := by
  obtain ⟨_, _, rfl, rfl, hblanks⟩ := h.goes rfl
  obtain ⟨_, _, rfl, hbefore, hvalue⟩ := hblanks.goes rfl
  obtain ⟨_, _, rfl, ⟨t, rfl⟩, hrest⟩ := (hvalue.go_or_miss rfl).resolve_right (Machine.Path.not_rejected rfl)
  obtain ⟨_, _, rfl, hafter, hlast⟩ := hrest.goes rfl
  obtain ⟨before, rfl⟩ := blanks_of_repeats hbefore
  obtain ⟨after, rfl⟩ := blanks_of_repeats hafter
  obtain rfl : _ = [] := hlast.leaves rfl
  exact ⟨⟨before, t, after⟩, by simp [Document.text]⟩

end Paths

/-- The rows keep to the words of their tables. -/
theorem speaks_rows : Speaks rows Words := by
  refine ⟨sensible_rows, exists_words, fun {t w} h => ?_⟩
  cases t with
  | exp => exact exp_of_leads h
  | frac => exact frac_of_leads h
  | decimal => exact decimal_of_leads h
  | int => exact int_of_leads h
  | number => exact number_of_leads h
  | beginArray => exact mark_of_leads (marks_open .array) h
  | endArray => exact mark_of_leads (marks_close .array) h
  | beginObject => exact mark_of_leads (marks_open .object) h
  | endObject => exact mark_of_leads (marks_close .object) h
  | nameSeparator => exact mark_of_leads marks_colon h
  | valueSeparator => exact mark_of_leads marks_comma h
  | unescaped => exact unescaped_of_leads h
  | unicode => exact unicode_of_leads h
  | escapedChar => exact escapedChar_of_leads h
  | escaped => exact escaped_of_leads h
  | char => exact char_of_leads h
  | string => exact string_of_leads h
  | value => exact value_of_leads h
  | member => exact member_of_leads h
  | nextMember => exact next_of_leads .object h
  | objectBody => exact body_of_leads .object h
  | object => exact container_of_leads .object h
  | nextValue => exact next_of_leads .array h
  | arrayBody => exact body_of_leads .array h
  | array => exact container_of_leads .array h
  | jsonText => exact document_of_leads h

/-! ## Starts of documents -/

/-- The start of a document. -/
def Viable (pre : List Char) : Prop := ∃ d : Document, pre <+: d.text

/-- What stands before any offset that a walk looks at is the start of a document. -/
theorem viable_of_look {steps nest k : Nat} {cs : List Char}
    (h : .look k ∈ (scan rows steps nest .jsonText (.text 0 cs)).2) :
    ∃ pre, pre <+: cs ∧ size pre = k ∧ Viable pre := by
  obtain ⟨pre, more, hpre, hk, d, hd⟩ := (scan_spells speaks_rows steps nest .jsonText 0 cs).looked h
  exact ⟨pre, hpre, by omega, d, more, hd⟩

end TableJson.Grammar
