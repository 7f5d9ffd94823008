import TableJson.Proofs.Text.Spelling

/-!
# Refusal — what is written before a writer refuses a character

Printing hands a writer the characters of the text one after another, and no more once one is refused.  So a writer
that refuses one has taken those before it and was handed nothing after it, and a sink with room for `n` characters
holds the first `n` of them (`print_refused`).

* `Takes`: a writer takes characters one after another.
* `Watched`: a writer with a record of all that it is handed, what it refuses included.
* `Ends`: how writing comes to its end, seen by a writer and by the same writer watched.
-/

namespace TableJson.Text

/-! ## Printers -/

/-- The two ways of printing a value. -/
inductive Style where
  | compact
  | pretty (layout : Layout)

/-- Prints a value. -/
def Style.put {σ : Type} [Writer σ] : Style → Value → Write σ
  | compact, v => putCompact v
  | pretty layout, v => putPretty layout v 0

/-- What is printed where nothing is refused. -/
def Style.text : Style → Value → String
  | compact, v => v.compact
  | pretty layout, v => v.pretty layout

theorem Style.spells {σ : Type} [Writer σ] (style : Style) (v : Value) :
    Spells σ (style.put v) (style.text v).toList := by
  cases style with
  | compact => exact (spells_compact v 0).congr (by rw [text, compact_eq, String.toList_ofList])
  | pretty layout => exact (spells_pretty layout v 0).congr (by rw [text, pretty_eq, String.toList_ofList])

/-! ## Writers -/

section Writers

variable {σ : Type} [Writer σ]

/-- The writer takes the characters one after another, and this is what becomes of it. -/
inductive Takes : σ → List Char → σ → Prop
  | nil (s : σ) : Takes s [] s
  | cons {s t u : σ} {c : Char} {cs : List Char} (hc : put c s = .ok t) (hcs : Takes t cs u) : Takes s (c :: cs) u

/-- A writer with all that it was handed. -/
structure Watched (σ : Type) where
  writer : σ
  handed : List Char := []

instance : Writer (Watched σ) where
  put c w :=
    match put c w.writer with
    | .ok s => .ok ⟨s, w.handed ++ [c]⟩
    | .error s => .error ⟨s, w.handed ++ [c]⟩

theorem put_watched_ok {c : Char} {w : Watched σ} {s : σ} (h : put c w.writer = .ok s) :
    put c w = .ok ⟨s, w.handed ++ [c]⟩ := by
  simp only [put] at h ⊢
  rw [h]

theorem put_watched_error {c : Char} {w : Watched σ} {s : σ} (h : put c w.writer = .error s) :
    put c w = .error ⟨s, w.handed ++ [c]⟩ := by
  simp only [put] at h ⊢
  rw [h]

/-- How writing characters ends, for a writer and for the same writer watched: all of them are taken, or those before
one that is refused, which is then the last that was handed over. -/
inductive Ends (w : Watched σ) (cs : List Char) : Except σ σ → Except (Watched σ) (Watched σ) → Prop
  | taken {t : σ} (h : Takes w.writer cs t) : Ends w cs (.ok t) (.ok ⟨t, w.handed ++ cs⟩)
  | refused {before after : List Char} {c : Char} {t u : σ} (hcs : cs = before ++ c :: after)
      (h : Takes w.writer before t) (hc : put c t = .error u) :
      Ends w cs (.error u) (.error ⟨u, w.handed ++ (before ++ [c])⟩)

theorem ends_putAll (cs : List Char) (w : Watched σ) : Ends w cs (putAll cs w.writer) (putAll cs w) := by
  induction cs generalizing w with
  | nil =>
    have hend := Ends.taken (.nil w.writer)
    rwa [List.append_nil] at hend
  | cons c cs ih =>
    rw [putAll, putAll]
    cases hput : put c w.writer with
    | error u =>
      rw [put_watched_error hput]
      exact .refused (List.nil_append (c :: cs)).symm (.nil w.writer) hput
    | ok t =>
      rw [put_watched_ok hput]
      have hrest := ih ⟨t, w.handed ++ [c]⟩
      change Ends w (c :: cs) (putAll cs t) (putAll cs ⟨t, w.handed ++ [c]⟩)
      change Ends _ cs (putAll cs t) _ at hrest
      generalize putAll cs t = plain, putAll cs (⟨t, w.handed ++ [c]⟩ : Watched σ) = watched at hrest ⊢
      cases hrest with
      | taken htaken =>
        rw [List.append_assoc]
        exact .taken (.cons hput htaken)
      | refused hcs htaken hrefused =>
        rw [List.append_assoc]
        exact .refused (congrArg (c :: ·) hcs) (.cons hput htaken) hrefused

/-- All that a writer was handed when writing ended. -/
def Watched.record : Except (Watched σ) (Watched σ) → List Char
  | .ok w => w.handed
  | .error w => w.handed

end Writers

/-! ## Sinks with limited room -/

section Limited

variable {text : String} {n : Nat} {cs : List Char} {s t : Sink}

theorem takes_limited (h : Takes s cs t) (hs : s = { text, room := some n }) :
    cs.length ≤ n ∧ t = { text := text ++ String.ofList cs, room := some (n - cs.length) } := by
  induction h generalizing text n with
  | nil s => simpa using hs
  | @cons s t u c cs hc hcs ih =>
    subst hs
    cases n with
    | zero => cases hc
    | succ n =>
      obtain rfl := Except.ok.inj hc
      obtain ⟨hle, rfl⟩ := ih rfl
      rw [push_append_ofList, List.length_cons]
      exact ⟨by omega, by rw [Nat.add_sub_add_right]⟩

/-- Only a sink without room refuses a character. -/
theorem room_of_refused {c : Char} {n : Nat} {u : Sink} (h : put c ({ text, room := some n } : Sink) = .error u) :
    n = 0 ∧ u = { text, room := some 0 } := by
  cases n with
  | zero => exact ⟨rfl, (Except.error.inj h).symm⟩
  | succ n => cases h

/-- What a sink with room for `n` characters comes to hold, and what it was handed. -/
theorem Ends.limited {plain : Write Sink} {watched : Write (Watched Sink)}
    (h : Ends { writer := { room := some n } } cs (plain { room := some n })
      (watched { writer := { room := some n } })) :
    Sink.filled (some n) plain = (.ofList (cs.take n), decide (cs.length ≤ n)) ∧
      Watched.record (watched { writer := { room := some n } }) = cs.take (n + 1) := by
  rw [Sink.filled]
  generalize plain { room := some n } = result, watched { writer := { room := some n } } = seen at h ⊢
  cases h with
  | taken htaken =>
    obtain ⟨hle, rfl⟩ := takes_limited htaken rfl
    rw [List.take_of_length_le hle, List.take_of_length_le (Nat.le_succ_of_le hle), decide_eq_true hle]
    exact ⟨by rw [String.empty_append], List.nil_append cs⟩
  | @refused before after c t u hcs htaken hrefused =>
    subst hcs
    obtain ⟨hle, rfl⟩ := takes_limited htaken rfl
    obtain ⟨hfull, rfl⟩ := room_of_refused hrefused
    obtain rfl : n = before.length := by omega
    have hmore : ¬ (before ++ c :: after).length ≤ before.length := by
      rw [List.length_append, List.length_cons]
      omega
    have hone : (before ++ c :: after).take (before.length + 1) = before ++ [c] := by
      rw [List.take_length_add_append]
      rfl
    rw [List.take_left, hone, decide_eq_false hmore]
    exact ⟨by rw [String.empty_append], List.nil_append _⟩

end Limited

/-! ## Printing -/

/-- A sink with room for `n` characters comes to hold the first `n` characters of what is printed, and printing fails
exactly if there are more; then one more was handed over, and none after it.  Any writer at all is handed the
characters in their order up to the first that it refuses, and watching it makes no difference to it. -/
theorem print_refused (style : Style) (v : Value) (n : Nat) :
    Sink.filled (some n) (style.put v) =
        (.ofList ((style.text v).toList.take n), decide ((style.text v).toList.length ≤ n)) ∧
    Watched.record (style.put v { writer := ({ room := some n } : Sink) }) = (style.text v).toList.take (n + 1) ∧
    ∀ {σ : Type} [Writer σ] (w : Watched σ), Ends w (style.text v).toList (style.put v w.writer) (style.put v w) := by
  have hends {σ : Type} [Writer σ] (w : Watched σ) :
      Ends w (style.text v).toList (style.put v w.writer) (style.put v w) := by
    rw [style.spells v w.writer, style.spells v w]
    exact ends_putAll _ w
  obtain ⟨hfilled, hrecord⟩ := (hends ({ writer := { room := some n } } : Watched Sink)).limited
  exact ⟨hfilled, hrecord, hends⟩

end TableJson.Text
