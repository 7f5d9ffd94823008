import TableJson.Proofs.Grammar.StringTable
import TableJson.Proofs.Grammar.Strings
import TableJson.Proofs.Text.Surrogates

/-!
# Decoding — what the body of a string is unescaped to

What the table of a string takes is a quoted body, and the body is made of pieces that each spell UTF-16 units.
Unescaping it is decoding these units: strictly, or with U+FFFD in the place of each unpaired surrogate
(`unescape?_eq_decoding`).

* `reads_of_run`: a walk that ends in a match takes what the scan takes, whatever its context.
* `unescape?_false`, `unescape?_true`: unescaping as decoding, for either way with unpaired surrogates.
-/

namespace TableJson.Grammar

open Machine Utf8 Text

/-! ## Walks and scans -/

section Walks

variable {σ : Type} (act : Context Action σ) {n : Nat} {t : Rule} {here there : Cursor} {s s' : State σ}

/-- A walk that ends in a match has taken what the scan takes. -/
theorem reads_of_run (h : run rows act rowsPerTable n t here s = (.matched there, s')) :
    ∃ tr, reads n t here = (.matched there, tr) := by
  rw [run_eq_resume, Scan.resume] at h
  rcases hreplay : replay act (scan rows rowsPerTable n t here).2 s with ⟨s'', _ | stop⟩
  · rw [hreplay] at h
    exact ⟨_, Prod.ext (Prod.mk.inj h).1 rfl⟩
  · rw [hreplay] at h
    cases (Prod.mk.inj h).1

/-- Where the scan hands nothing over, a walk ends as it does and leaves the context alone. -/
theorem run_of_reads (h : reads n t here = (.matched there, [])) (s : State σ) :
    ∃ s', run rows act rowsPerTable n t here s = (.matched there, s') ∧ s'.context = s.context := by
  have hnone : actions (scan rows rowsPerTable n t here).2 = [] := congrArg Prod.snd h
  have hfeed : feed act (actions (scan rows rowsPerTable n t here).2) s.context = (s.context, true) := by
    rw [hnone, feed]
  obtain ⟨hend, hcontext⟩ := run_of_feed act hfeed
  exact ⟨_, Prod.ext (hend.trans (congrArg Prod.fst h)) rfl, hcontext⟩

end Walks

/-! ## Bodies -/

section Decoding

variable (q : Quoted)

/-- Where unpaired surrogates are refused, unescaping is strict decoding. -/
theorem unescape?_false : unescape? false q.body = Utf16.strict? q.units := by
  refine Option.ext fun cs => ?_
  rw [unescape?_eq_some_iff, Utf16.strict?_eq_some_iff, Quoted.Paired]
  simp

/-- Where unpaired surrogates are replaced, unescaping is decoding, and never fails. -/
theorem unescape?_true : unescape? true q.body = some (Utf16.decode q.units) :=
  (unescape?_eq_some_iff q).2 ⟨.inl rfl, rfl⟩

theorem unescape?_false_eq_none_iff : unescape? false q.body = none ↔ Utf16.unpaired q.units ≠ [] := by
  rw [Ne, ← Utf16.paired_iff_unpaired, Option.eq_none_iff_forall_ne_some]
  simp only [Ne, unescape?_eq_some_iff, Bool.false_eq_true, false_or, not_and]
  constructor
  · intro h hpaired
    exact h _ hpaired rfl
  · intro h cs hpaired
    exact absurd hpaired h

end Decoding

/-- A match of the table of a string is a body between quotes, and the body is a sequence of pieces.  Whatever these
pieces are, unescaping the body gives the strict decoding of their units, which fails exactly if a surrogate is
unpaired, or the decoding with one U+FFFD more for each unpaired surrogate than the units spell.  It comes to the same
whether a body without a backslash is walked through or returned as it is, and a session makes of the match what
unescaping makes of the body. -/
theorem unescape?_eq_decoding {σ : Type} {act : Context Action σ} {n o : Nat} {cs : List Char} {there : Cursor}
    {s s' : State σ} (h : run rows act rowsPerTable n .string (.text o cs) s = (.matched there, s')) :
    ∃ raw rest, cs = '"' :: (raw ++ '"' :: rest) ∧ there = .text (o + size ('"' :: (raw ++ ['"']))) rest ∧
      (∃ q : Quoted, q.body = raw) ∧
      (∀ q : Quoted, q.body = raw →
        unescape? false raw = Utf16.strict? q.units ∧
        (unescape? false raw = none ↔ Utf16.unpaired q.units ≠ []) ∧
        unescape? true raw = some (Utf16.decode q.units) ∧
        (Utf16.decode q.units).count '\uFFFD' = q.units.count 0xFFFD + (Utf16.unpaired q.units).length) ∧
      (∀ replace, unescape? replace raw = unescapeWithin replace raw.length raw) ∧
      ∀ options, decode? options (.between (.text o cs) there) =
        (unescape? options.replaceInvalidSurrogates raw).map String.ofList := by
  obtain ⟨tr, hreads⟩ := reads_of_run act h
  obtain ⟨ds, r, rfl, ⟨q, rfl⟩, rfl, -⟩ := (lexes_string n).word hreads
  refine ⟨q.body, r, ?_, rfl, ⟨q, rfl⟩, ?_, ?_, ?_⟩
  · rw [Quoted.text, List.cons_append, List.append_assoc, List.singleton_append]
  · intro p hp
    rw [← hp]
    exact ⟨unescape?_false p, unescape?_false_eq_none_iff p, unescape?_true p,
      Utf16.count_replacement_decode p.units⟩
  · intro replace
    exact unescape?_eq_unescapeWithin replace q.body
  · intro options
    rw [Match.between_text]
    exact decode?_quoted options q o

/-- Of two high surrogates and a low one the first is unpaired. -/
theorem unescape?_eq_decoding_high :
    let raw := "\\ud800\\uD83D\\UDE00".toList
    let text := '"' :: (raw ++ ['"', ':'])
    (∃ s : State Unit, run rows (fun _ _ c => (c, true)) rowsPerTable 5 .string (.text 0 text) { context := () } =
        (.matched (.text 20 [':']), s)) ∧
      unescape? false raw = none ∧ unescape? true raw = some ['\uFFFD', '😀'] := by
  intro raw text
  obtain ⟨q, hq, hunits⟩ : ∃ q : Quoted, q.body = raw ∧ q.units = [0xD800, 0xD83D, 0xDE00] :=
    ⟨[.unit 'u' 'd' '8' '0' '0' (by decide) (forall_mem_of_all (by decide)),
      .unit 'u' 'D' '8' '3' 'D' (by decide) (forall_mem_of_all (by decide)),
      .unit 'U' 'D' 'E' '0' '0' (by decide) (forall_mem_of_all (by decide))], by decide, by decide⟩
  have htext : text = q.text ++ [':'] := by
    rw [Quoted.text, hq]
    rfl
  have hsize : size q.text = 20 := by
    rw [Quoted.text, hq]
    decide
  have hreads : reads 5 .string (.text 0 text) = (.matched (.text 20 [':']), []) := by
    rw [htext, reads_string_text, hsize]
  obtain ⟨s, hs, -⟩ := run_of_reads (fun _ _ c => (c, true)) hreads { context := () }
  obtain ⟨raw', rest, hcs, hthere, -, hdecoding, -⟩ := unescape?_eq_decoding hs
  -- what is left after the match is what stands after it
  have hrest : rest = [':'] := by
    have hencode : encode [':'] = encode rest := congrArg Cursor.rest hthere
    have hdecode := Utf8.decode?_eq_some_iff.2 hencode
    rw [Utf8.decode?_eq_some_iff.2 rfl] at hdecode
    exact (Option.some.inj hdecode).symm
  subst hrest
  obtain rfl : raw = raw' := List.append_cancel_right (List.cons.inj hcs).2
  obtain ⟨hstrict, -, hlossy, -⟩ := hdecoding q hq
  rw [hunits] at hstrict hlossy
  exact ⟨⟨s, hs⟩, hstrict, hlossy⟩

end TableJson.Grammar
