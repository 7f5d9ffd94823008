import TableJson.Proofs.Grammar.Completeness

/-!
# Brackets — how many containers are open in a text

`Brackets` counts the brackets and braces of a text, apart from those in strings, from left to right.  It knows nothing
else of the grammar.  In the text of a derivation the count never exceeds the depth of the derivation
(`Document.shallow`).
-/

namespace TableJson

open Grammar

/-- What is open after some characters of a text: containers, and a string, of which the next character may be
escaped. -/
structure Brackets where
  depth : Nat := 0
  quoted : Bool := false
  escaped : Bool := false
deriving DecidableEq

namespace Brackets

/-- One character more. -/
def step (b : Brackets) (c : Char) : Brackets :=
  if b.quoted then
    if b.escaped then { b with escaped := false }
    else if c = '\\' then { b with escaped := true }
    else if c = '"' then { b with quoted := false }
    else b
  else if c = '"' then { b with quoted := true }
  else if c = '[' ∨ c = '\x7b' then { b with depth := b.depth + 1 }
  else if c = ']' ∨ c = '\x7d' then { b with depth := b.depth - 1 }
  else b

/-- What is open after more characters. -/
def after (cs : List Char) (b : Brackets) : Brackets := cs.foldl step b

/-- Nowhere in the text are more than `top` containers open. -/
def Shallow (b : Brackets) (cs : List Char) (top : Nat) : Prop := ∀ pre, pre <+: cs → (b.after pre).depth ≤ top

/-- The first container that is opened inside of `limit` others is the one that `c` opens after `pre`. -/
def OpensBeyond (b : Brackets) (limit : Nat) (pre : List Char) (c : Char) : Prop :=
  b.Shallow pre limit ∧ (b.after (pre ++ [c])).depth = limit + 1

section Prefixes

variable {b : Brackets} {c : Char} {cs ds : List Char} {top top' : Nat}

theorem after_append : b.after (cs ++ ds) = (b.after cs).after ds := List.foldl_append

theorem shallow_nil : b.Shallow [] top ↔ b.depth ≤ top := by
  constructor
  · exact fun h => h [] (List.prefix_refl _)
  · intro h pre hpre
    rw [List.prefix_nil.1 hpre]
    exact h

theorem shallow_cons : b.Shallow (c :: cs) top ↔ b.depth ≤ top ∧ (b.step c).Shallow cs top := by
  constructor
  · intro h
    exact ⟨h [] List.nil_prefix, fun pre hpre => h (c :: pre) (List.cons_prefix_cons.2 ⟨rfl, hpre⟩)⟩
  · rintro ⟨hb, h⟩ pre hpre
    cases pre with
    | nil => exact hb
    | cons d pre =>
      obtain ⟨rfl, hpre'⟩ := List.cons_prefix_cons.1 hpre
      exact h pre hpre'

theorem shallow_append : b.Shallow (cs ++ ds) top ↔ b.Shallow cs top ∧ (b.after cs).Shallow ds top := by
  induction cs generalizing b with
  | nil =>
    rw [List.nil_append, shallow_nil, and_iff_right_of_imp]
    · rfl
    · exact fun h => h [] List.nil_prefix
  | cons c cs ih => rw [List.cons_append, shallow_cons, ih, shallow_cons, and_assoc]; rfl

theorem Shallow.mono (h : b.Shallow cs top) (htop : top ≤ top') : b.Shallow cs top' :=
  fun pre hpre => Nat.le_trans (h pre hpre) htop

end Prefixes

/-! ## Texts that close what they open -/

/-- Outside of strings, inside of `depth` containers. -/
def inside (depth : Nat) : Brackets := { depth }

/-- In a string, inside of `depth` containers. -/
def within (depth : Nat) : Brackets := { depth, quoted := true }

/-- The text opens no more than `top` containers in all and closes all that it opens. -/
structure Balanced (b : Brackets) (top : Nat) (cs : List Char) : Prop where
  after : b.after cs = b
  shallow : b.Shallow cs top

section Balanced

variable {b b' : Brackets} {depth limit top top' : Nat} {c d : Char} {cs ds pre : List Char}

theorem Balanced.mono (h : Balanced b top cs) (htop : top ≤ top') : Balanced b top' cs :=
  ⟨h.after, h.shallow.mono htop⟩

theorem balanced_nil (h : b.depth ≤ top) : Balanced b top [] := ⟨rfl, shallow_nil.2 h⟩

theorem Balanced.append (h : Balanced b top cs) (h' : Balanced b top ds) : Balanced b top (cs ++ ds) := by
  refine ⟨?_, shallow_append.2 ⟨h.shallow, ?_⟩⟩
  · rw [after_append, h.after, h'.after]
  · rw [h.after]
    exact h'.shallow

theorem Balanced.cons (hc : b.step c = b) (h : Balanced b top cs) : Balanced b top (c :: cs) := by
  refine ⟨?_, shallow_cons.2 ⟨h.shallow [] List.nil_prefix, ?_⟩⟩
  · rw [Brackets.after, List.foldl_cons, hc]
    exact h.after
  · rw [hc]
    exact h.shallow

/-- A character that opens something, and one that closes it. -/
theorem Balanced.enclose (hb : b.depth ≤ top) (hc : b.step c = b') (h : Balanced b' top cs) (hd : b'.step d = b) :
    Balanced b top (c :: (cs ++ [d])) := by
  have hafter : b'.after (cs ++ [d]) = b := by
    rw [after_append, h.after]
    exact hd
  refine ⟨?_, shallow_cons.2 ⟨hb, ?_⟩⟩
  · rw [Brackets.after, List.foldl_cons, hc]
    exact hafter
  · rw [hc, shallow_append, h.after, shallow_cons, hd, shallow_nil]
    exact ⟨h.shallow, h.shallow [] List.nil_prefix, hb⟩

theorem OpensBeyond.append (h : Balanced b limit cs) (h' : b.OpensBeyond limit pre c) :
    b.OpensBeyond limit (cs ++ pre) c := by
  refine ⟨shallow_append.2 ⟨h.shallow, ?_⟩, ?_⟩
  · rw [h.after]
    exact h'.1
  · rw [List.append_assoc, after_append, h.after]
    exact h'.2

theorem OpensBeyond.cons (hb : b.depth ≤ limit) (hd : b.step d = b') (h : b'.OpensBeyond limit pre c) :
    b.OpensBeyond limit (d :: pre) c := by
  refine ⟨shallow_cons.2 ⟨hb, ?_⟩, ?_⟩
  · rw [hd]
    exact h.1
  · rw [List.cons_append, after, List.foldl_cons, hd]
    exact h.2

/-! ## Words -/

/-- The characters that mean nothing for what is open, outside of strings. -/
def isPlain (c : Char) : Bool := c != '"' && c != '[' && c != '\x7b' && c != ']' && c != '\x7d'

theorem step_plain (hc : isPlain c = true) : (inside depth).step c = inside depth := by
  simp only [isPlain, Bool.and_eq_true, bne_iff_ne, ne_eq] at hc
  obtain ⟨⟨⟨⟨hquote, hbracket⟩, hbrace⟩, hbracket'⟩, hbrace'⟩ := hc
  simp [step, inside, hquote, hbracket, hbrace, hbracket', hbrace']

theorem balanced_plain (hcs : ∀ c ∈ cs, isPlain c = true) : Balanced (inside depth) depth cs := by
  induction cs with
  | nil => exact balanced_nil (Nat.le_refl _)
  | cons c cs ih =>
    exact .cons (step_plain (hcs c (List.mem_cons_self ..))) (ih fun d hd => hcs d (List.mem_cons_of_mem _ hd))

theorem isPlain_of_isBlank (h : isBlank c = true) : isPlain c = true := by
  have : c = ' ' ∨ c = '\t' ∨ c = '\n' ∨ c = '\r' := by simpa [isBlank, or_assoc] using h
  rcases this with rfl | rfl | rfl | rfl <;> rfl

theorem isPlain_of_isDigit (h : c.isDigit = true) : isPlain c = true := by
  simp [isPlain, bne, ne_of_isDigit (show Char.isDigit '"' = false from rfl) h,
    ne_of_isDigit (show Char.isDigit '[' = false from rfl) h,
    ne_of_isDigit (show Char.isDigit '\x7b' = false from rfl) h,
    ne_of_isDigit (show Char.isDigit ']' = false from rfl) h,
    ne_of_isDigit (show Char.isDigit '\x7d' = false from rfl) h]

theorem balanced_blanks (b : Blanks) : Balanced (inside depth) depth b.chars :=
  balanced_plain fun c hc => isPlain_of_isBlank (b.blank c hc)

/-- A structural character that is no bracket. -/
theorem balanced_around (a : Around) (hc : isPlain c = true) : Balanced (inside depth) depth (a.text c) :=
  (balanced_blanks a.before).append (.cons (step_plain hc) (balanced_blanks a.after))

theorem balanced_number (l : Literal) : Balanced (inside depth) depth l.text := by
  obtain ⟨sign, int, frac, exp, hs, hi, hf, he⟩ := l
  have hdigits {ds : List Char} (h : ∀ c ∈ ds, c.isDigit = true) : Balanced (inside depth) depth ds :=
    balanced_plain fun c hc => isPlain_of_isDigit (h c hc)
  have hnil : Balanced (inside depth) depth [] := balanced_nil (Nat.le_refl _)
  have hsign : Balanced (inside depth) depth sign := by
    rcases hs with rfl | rfl
    · exact hnil
    · exact .cons (step_plain rfl) hnil
  have hint : Balanced (inside depth) depth int := by
    cases hi with
    | zero => exact .cons (step_plain rfl) hnil
    | digits first nonzero rest => exact hdigits (List.forall_mem_cons.2 ⟨first, rest⟩)
  have hfrac : Balanced (inside depth) depth frac := by
    rcases hf with rfl | ⟨-, hds⟩
    · exact hnil
    · exact .cons (step_plain rfl) (hdigits hds)
  have hexp : Balanced (inside depth) depth exp := by
    rcases he with rfl | @⟨e, sign, ds, marker, signed, -, hds⟩
    · exact hnil
    · refine .cons ?_ (.append ?_ (hdigits hds))
      · rcases marker with rfl | rfl <;> exact step_plain rfl
      · rcases signed with rfl | rfl | rfl
        · exact hnil
        · exact .cons (step_plain rfl) hnil
        · exact .cons (step_plain rfl) hnil
  exact ((hsign.append hint).append hfrac).append hexp

/-! ## Strings -/

theorem step_within (hquote : c ≠ '"') (hescape : c ≠ '\\') : (within depth).step c = within depth := by
  simp [step, within, hquote, hescape]

theorem balanced_hex (h : isHexDigit c = true) (hcs : Balanced (within depth) depth cs) :
    Balanced (within depth) depth (c :: cs) := by
  refine .cons (step_within ?_ ?_) hcs
  · rintro rfl
    exact absurd h (by decide)
  · rintro rfl
    exact absurd h (by decide)

theorem balanced_piece (p : Piece) : Balanced (within depth) depth p.text := by
  have hnil : Balanced (within depth) depth [] := balanced_nil (Nat.le_refl _)
  -- whatever stands after a backslash, the string goes on
  have hescape {marker : Char} {cs : List Char} (h : Balanced (within depth) depth cs) :
      Balanced (within depth) depth ('\\' :: marker :: cs) := by
    refine ⟨h.after, ?_⟩
    rw [shallow_cons, shallow_cons]
    exact ⟨Nat.le_refl _, Nat.le_refl _, h.shallow⟩
  cases p with
  | plain c isPlain =>
    refine .cons (step_within ?_ ?_) hnil
    · rintro rfl
      exact absurd isPlain (by decide)
    · rintro rfl
      exact absurd isPlain (by decide)
  | short marker c known => exact hescape hnil
  | unit marker x y z w isMarker hex =>
    simp only [List.forall_mem_cons] at hex
    exact hescape (balanced_hex hex.1 (balanced_hex hex.2.1 (balanced_hex hex.2.2.1 (balanced_hex hex.2.2.2.1 hnil))))

theorem balanced_string (q : Quoted) : Balanced (inside depth) depth q.text := by
  have hbody : Balanced (within depth) depth q.body := by
    induction q with
    | nil => exact balanced_nil (Nat.le_refl _)
    | cons p q ih => exact (balanced_piece p).append ih
  exact hbody.enclose (Nat.le_refl _) rfl rfl

end Balanced

/-! ## Trees -/

section Trees

variable {kind : ContainerKind} {depth limit : Nat} {pre : List Char} {c : Char}

theorem step_open (kind : ContainerKind) (depth : Nat) :
    (inside depth).step (openChar kind) = inside (depth + 1) := by
  cases kind <;> rfl

theorem step_close (kind : ContainerKind) (depth : Nat) :
    (inside (depth + 1)).step (closeChar kind) = inside depth := by
  cases kind <;> rfl

theorem balanced_label (label : Label kind) : Balanced (inside depth) depth label.text := by
  cases label with
  | item => exact balanced_nil (Nat.le_refl _)
  | member name colon => exact (balanced_string name).append (balanced_around colon rfl)

theorem balanced_container {cs : List Char} (h : Balanced (inside (depth + 1)) limit cs) (opening closing : Around) :
    Balanced (inside depth) limit (opening.text (openChar kind) ++ (cs ++ closing.text (closeChar kind))) := by
  have hlimit : depth + 1 ≤ limit := h.shallow [] List.nil_prefix
  have hinner : Balanced (inside (depth + 1)) limit (opening.after.chars ++ (cs ++ closing.before.chars)) :=
    ((balanced_blanks _).mono hlimit).append (h.append ((balanced_blanks _).mono hlimit))
  have henclosed := hinner.enclose (Nat.le_of_succ_le hlimit) (step_open kind depth) (step_close kind depth)
  have := ((balanced_blanks opening.before).mono (Nat.le_of_succ_le hlimit)).append
    (henclosed.append ((balanced_blanks closing.after).mono (Nat.le_of_succ_le hlimit)))
  simpa [Around.text] using this

theorem balanced_entry (label : Label kind) {cs ds : List Char} (hcs : Balanced (inside depth) limit cs)
    (hds : Balanced (inside depth) limit ds) : Balanced (inside depth) limit (label.text ++ (cs ++ ds)) :=
  ((balanced_label label).mono (hcs.shallow [] List.nil_prefix)).append (hcs.append hds)

mutual

/-- The text of a value opens as many containers inside of one another as the value is deep, and closes all. -/
theorem balanced_tree : ∀ (t : Tree) {depth : Nat}, Balanced (inside depth) (depth + t.depth) t.text
  | .null, _ => balanced_plain (List.all_eq_true.1 rfl)
  | .boolean b, _ => balanced_plain (List.all_eq_true.1 (by cases b <;> rfl))
  | .number l, _ => balanced_number l
  | .string q, _ => balanced_string q
  | .container _ opening body closing, depth =>
    balanced_container ((balanced_body body).mono (by rw [Tree.depth]; omega)) opening closing

@[inherit_doc balanced_tree]
theorem balanced_body : ∀ {kind : ContainerKind} (body : Body kind) {depth : Nat},
    Balanced (inside depth) (depth + body.depth) body.text
  | _, .empty _, _ => balanced_nil (Nat.le_refl _)
  | _, .entries label first rest, depth =>
    balanced_entry label ((balanced_tree first).mono (by rw [Body.depth]; omega))
      ((balanced_rest rest).mono (by rw [Body.depth]; omega))

@[inherit_doc balanced_tree]
theorem balanced_rest : ∀ {kind : ContainerKind} (rest : Rest kind) {depth : Nat},
    Balanced (inside depth) (depth + rest.depth) rest.text
  | _, .nil _, _ => balanced_nil (Nat.le_refl _)
  | _, .cons comma label entry rest, depth =>
    ((balanced_around comma rfl).mono (Nat.le_add_right ..)).append
      (balanced_entry label ((balanced_tree entry).mono (by rw [Rest.depth]; omega))
        ((balanced_rest rest).mono (by rw [Rest.depth]; omega)))

end

end Trees

end Brackets

/-- In the text of a document no more containers are ever open than its depth says. -/
theorem Grammar.Document.shallow (d : Document) : (Brackets.inside 0).Shallow d.text d.tree.depth := by
  have htree : (Brackets.inside 0).Balanced d.tree.depth d.tree.text :=
    (Brackets.balanced_tree d.tree).mono (Nat.le_of_eq (Nat.zero_add _))
  exact (((Brackets.balanced_blanks d.before).mono (Nat.zero_le _)).append
    (htree.append ((Brackets.balanced_blanks d.after).mono (Nat.zero_le _)))).shallow

end TableJson
