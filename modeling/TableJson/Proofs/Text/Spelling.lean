import TableJson.Proofs.Grammar.Tree
import TableJson.Text.Pretty

/-!
# Spelling — compact and pretty text as characters

The two printers differ in the blanks that they put, and in nothing else.  `spell` gives the characters of a value for
any choice of blanks; compact text takes none (`compact_eq`), pretty text starts lines and indents them (`pretty_eq`).

* `Spells`: a way of writing puts certain characters, into whatever writer.
-/

namespace TableJson.Text

open Grammar Number

/-! ## Writing characters -/

/-- The way of writing puts the characters, into whatever writer of the kind. -/
def Spells (σ : Type) [Writer σ] (write : Write σ) (cs : List Char) : Prop := ∀ s, write s = putAll cs s

section Spells

variable {σ : Type} [Writer σ] {write write' : Write σ} {cs ds : List Char}

theorem spells_putAll (cs : List Char) : Spells σ (putAll cs) cs := fun _ => rfl

theorem spells_put (c : Char) : Spells σ (put c) [c] := fun s => by
  rw [putAll]
  cases put c s <;> rfl

theorem spells_putTimes (n : Nat) (c : Char) : Spells σ (putTimes n c) (List.replicate n c) :=
  putTimes_eq_putAll n c

theorem Spells.seq (h : Spells σ write cs) (h' : Spells σ write' ds) :
    Spells σ (fun s => do write' (← write s)) (cs ++ ds) := fun s => by
  rw [putAll_append, ← h s, ← funext h']
  rfl

theorem Spells.congr (h : Spells σ write cs) (he : cs = ds) : Spells σ write ds := he ▸ h

theorem spells_quoted (text : String) : Spells σ (putQuoted text) ('"' :: (escape text.toList ++ ['"'])) :=
  (spells_put '"').seq ((spells_putAll (escape text.toList)).seq (spells_put '"'))

theorem push_append_ofList (text : String) (c : Char) (cs : List Char) :
    text.push c ++ String.ofList cs = text ++ String.ofList (c :: cs) := by
  rw [String.push_eq_append, String.append_assoc, String.ofList_cons]

/-- A sink without a limit takes all characters. -/
theorem putAll_unlimited (cs : List Char) (text : String) :
    putAll cs ({ text } : Sink) = .ok { text := text ++ String.ofList cs } := by
  induction cs generalizing text with
  | nil => simp [putAll]
  | cons c cs ih =>
    rw [← push_append_ofList]
    exact ih (text.push c)

theorem Spells.unlimited {write : Write Sink} (h : Spells Sink write cs) : Sink.unlimited write = String.ofList cs := by
  rw [Sink.unlimited, h, putAll_unlimited]
  simp

end Spells

/-! ## Blanks -/

/-- The blanks that a printer puts. -/
structure Spacing where
  /-- Before an entry of a container or its end, at a depth. -/
  margin : Nat → Blanks
  /-- After the colon of a member. -/
  colon : Blanks

/-- No blanks. -/
def Spacing.none : Spacing := ⟨fun _ => .none, .none⟩

/-- The blanks of pretty text: every entry has its own line. -/
def Layout.spacing (layout : Layout) : Spacing where
  margin depth :=
    { chars := '\n' :: List.replicate (layout.indent * depth) ' '
      blank := by
        intro c hc
        rcases List.mem_cons.1 hc with rfl | hc
        · rfl
        · rw [List.eq_of_mem_replicate hc]
          rfl }
  colon := if layout.spaceAfterColon then { chars := [' '], blank := by simp [Grammar.isBlank] } else .none

/-! ## Values -/

section Spell

variable (spacing : Spacing)

mutual

/-- The characters of a value that sits `depth` levels deep. -/
def spell : Value → Nat → List Char
  | .null, _ => nullText
  | .boolean b, _ => booleanText b
  | .integer n, _ => intText n.toInt
  | .uinteger n, _ => intText n.toNat
  | .real x, _ => realText x
  | .string text, _ => '"' :: (escape text.toList ++ ['"'])
  | .array [], _ => ['[', ']']
  | .array (v :: vs), depth =>
    '[' :: ((spacing.margin (depth + 1)).chars ++ (spell v (depth + 1) ++ (spellItems vs (depth + 1) ++
      ((spacing.margin depth).chars ++ [']']))))
  | .object [], _ => ['\x7b', '\x7d']
  | .object ((name, v) :: ms), depth =>
    '\x7b' :: ((spacing.margin (depth + 1)).chars ++ ('"' :: (escape name.toList ++ ['"']) ++
      (':' :: spacing.colon.chars ++
      (spell v (depth + 1) ++ (spellMembers ms (depth + 1) ++ ((spacing.margin depth).chars ++ ['\x7d']))))))

/-- The characters of further items, each after a comma. -/
def spellItems : List Value → Nat → List Char
  | [], _ => []
  | v :: vs, depth => ',' :: ((spacing.margin depth).chars ++ (spell v depth ++ spellItems vs depth))

/-- The characters of further members, each after a comma. -/
def spellMembers : List (String × Value) → Nat → List Char
  | [], _ => []
  | (name, v) :: ms, depth =>
    ',' :: ((spacing.margin depth).chars ++ ('"' :: (escape name.toList ++ ['"']) ++ (':' :: spacing.colon.chars ++
      (spell v depth ++ spellMembers ms depth))))

end

end Spell

/-! ## Compact text -/

section Compact

variable {σ : Type} [Writer σ]

mutual

theorem spells_compact : ∀ (v : Value) (depth : Nat), Spells σ (putCompact v) (spell .none v depth)
  | .null, _ => spells_putAll _
  | .boolean _, _ => spells_putAll _
  | .integer _, _ => spells_putAll _
  | .uinteger _, _ => spells_putAll _
  | .real _, _ => spells_putAll _
  | .string text, _ => spells_quoted text
  | .array [], _ => (spells_put '[').seq (spells_put ']')
  | .array (v :: vs), depth => by
    have hitems : Spells σ (putItems false (v :: vs)) _ :=
      (spells_putAll []).seq ((spells_compact v (depth + 1)).seq (spells_items vs (depth + 1)))
    exact ((spells_put '[').seq (hitems.seq (spells_put ']'))).congr (by simp [spell, Spacing.none])
  | .object [], _ => (spells_put '\x7b').seq (spells_put '\x7d')
  | .object ((name, v) :: ms), depth => by
    have hmembers : Spells σ (putMembers false ((name, v) :: ms)) _ :=
      (spells_putAll []).seq ((spells_quoted name).seq ((spells_put ':').seq
        ((spells_compact v (depth + 1)).seq (spells_members ms (depth + 1)))))
    exact ((spells_put '\x7b').seq (hmembers.seq (spells_put '\x7d'))).congr (by simp [spell, Spacing.none])

theorem spells_items : ∀ (vs : List Value) (depth : Nat), Spells σ (putItems true vs) (spellItems .none vs depth)
  | [], _ => fun _ => rfl
  | v :: vs, depth => (spells_putAll [',']).seq ((spells_compact v depth).seq (spells_items vs depth))

theorem spells_members : ∀ (ms : List (String × Value)) (depth : Nat),
    Spells σ (putMembers true ms) (spellMembers .none ms depth)
  | [], _ => fun _ => rfl
  | (name, v) :: ms, depth =>
    (spells_putAll [',']).seq ((spells_quoted name).seq ((spells_put ':').seq
      ((spells_compact v depth).seq (spells_members ms depth))))

end

end Compact

/-- Compact text is spelled without blanks. -/
theorem compact_eq (v : Value) : v.compact = String.ofList (spell .none v 0) := (spells_compact v 0).unlimited

/-! ## Pretty text -/

section Pretty

variable {σ : Type} [Writer σ] (layout : Layout)

theorem spells_margin (depth : Nat) :
    Spells σ (layout.putMargin depth) (List.replicate (layout.indent * depth) ' ') :=
  spells_putTimes _ _

theorem margin_eq (depth : Nat) :
    (layout.spacing.margin depth).chars = '\n' :: List.replicate (layout.indent * depth) ' ' := rfl

theorem colon_eq : layout.colon = ':' :: layout.spacing.colon.chars := by
  rw [Layout.colon, Layout.spacing]
  split <;> rfl

mutual

theorem spells_pretty : ∀ (v : Value) (depth : Nat),
    Spells σ (putPretty layout v depth) (spell layout.spacing v depth)
  | .null, _ => spells_putAll _
  | .boolean _, _ => spells_putAll _
  | .integer _, _ => spells_putAll _
  | .uinteger _, _ => spells_putAll _
  | .real _, _ => spells_putAll _
  | .string text, _ => spells_quoted text
  | .array [], _ => (spells_put '[').seq (spells_put ']')
  | .array (v :: vs), depth => by
    have hlines : Spells σ (putLines layout false (v :: vs) (depth + 1)) _ :=
      (spells_putAll []).seq ((spells_margin layout (depth + 1)).seq
        ((spells_pretty v (depth + 1)).seq (spells_lines vs (depth + 1))))
    have hend : Spells σ _ _ := (spells_put '\n').seq ((spells_margin layout depth).seq (spells_put ']'))
    exact ((spells_putAll ['[', '\n']).seq (hlines.seq hend)).congr (by simp [spell, margin_eq])
  | .object [], _ => (spells_put '\x7b').seq (spells_put '\x7d')
  | .object ((name, v) :: ms), depth => by
    have hlines : Spells σ (putMemberLines layout false ((name, v) :: ms) (depth + 1)) _ :=
      (spells_putAll []).seq ((spells_margin layout (depth + 1)).seq ((spells_quoted name).seq
        ((spells_putAll layout.colon).seq
          ((spells_pretty v (depth + 1)).seq (spells_memberLines ms (depth + 1))))))
    have hend : Spells σ _ _ := (spells_put '\n').seq ((spells_margin layout depth).seq (spells_put '\x7d'))
    exact ((spells_putAll ['\x7b', '\n']).seq (hlines.seq hend)).congr (by simp [spell, margin_eq, colon_eq])

theorem spells_lines : ∀ (vs : List Value) (depth : Nat),
    Spells σ (putLines layout true vs depth) (spellItems layout.spacing vs depth)
  | [], _ => fun _ => rfl
  | v :: vs, depth =>
    (spells_putAll [',', '\n']).seq ((spells_margin layout depth).seq
      ((spells_pretty v depth).seq (spells_lines vs depth)))

theorem spells_memberLines : ∀ (ms : List (String × Value)) (depth : Nat),
    Spells σ (putMemberLines layout true ms depth) (spellMembers layout.spacing ms depth)
  | [], _ => fun _ => rfl
  | (name, v) :: ms, depth => by
    refine ((spells_putAll [',', '\n']).seq ((spells_margin layout depth).seq ((spells_quoted name).seq
      ((spells_putAll layout.colon).seq ((spells_pretty v depth).seq (spells_memberLines ms depth)))))).congr ?_
    simp [spellMembers, margin_eq, colon_eq]

end

/-- Pretty text is spelled with the blanks of the layout. -/
theorem pretty_eq (v : Value) : v.pretty layout = String.ofList (spell layout.spacing v 0) :=
  (spells_pretty layout v 0).unlimited

end Pretty

end TableJson.Text
