import TableJson.Proofs.Machine.Scan

/-!
# Scans over text

What scans do on the bytes of a text, said in its characters.  `Cursor.text o cs` is the position at offset `o` with
the characters `cs` ahead.

* `Scan.plain` forgets the looks of a scan and keeps its actions.
* `plain_seq_append`, `plain_seq_of_not_prefix`: a fixed text matches exactly where it stands.
* `plain_repeatOneOf`: a repeated set takes the longest run of its characters, up to its maximum.
* `Chain` is a row of matches, one after another; a repeated table takes the longest one (`repeatScan_of_chain`,
  `chain_of_repeatScan`).
-/

namespace TableJson

/-- How many bytes spell some characters. -/
def Utf8.size (cs : List Char) : Nat := (Utf8.encode cs).length

namespace Utf8

@[simp] theorem size_nil : size [] = 0 := rfl

@[simp] theorem size_cons (c : Char) (cs : List Char) : size (c :: cs) = c.utf8Size + size cs := by
  simp [size, String.length_utf8EncodeChar]

@[simp] theorem size_append (cs ds : List Char) : size (cs ++ ds) = size cs + size ds := by
  simp [size]

theorem length_encode (cs : List Char) : (encode cs).length = size cs := rfl

theorem length_le_size (cs : List Char) : cs.length ≤ size cs := by
  induction cs with
  | nil => simp
  | cons c cs ih =>
    have := c.utf8Size_pos
    simp
    omega

theorem size_eq_zero {cs : List Char} : size cs = 0 ↔ cs = [] := by
  constructor
  · intro h
    have := length_le_size cs
    exact List.eq_nil_of_length_eq_zero (by omega)
  · rintro rfl
    rfl

theorem size_pos {cs : List Char} (h : cs ≠ []) : 0 < size cs :=
  Nat.pos_of_ne_zero fun h0 => h (size_eq_zero.1 h0)

/-- Two starts of one text that are spelled with as many bytes are the same. -/
theorem append_inj_of_size {ds es r s : List Char} (h : ds ++ r = es ++ s) (hsize : size ds = size es) :
    ds = es ∧ r = s := by
  rcases List.append_eq_append_iff.1 h with ⟨as, rfl, rfl⟩ | ⟨as, rfl, rfl⟩
  · obtain rfl : as = [] := size_eq_zero.1 (by rw [size_append] at hsize; omega)
    exact ⟨(List.append_nil _).symm, rfl⟩
  · obtain rfl : as = [] := size_eq_zero.1 (by rw [size_append] at hsize; omega)
    exact ⟨List.append_nil _, rfl⟩

/-- A spelling is the start of another exactly where the characters are. -/
theorem encode_isPrefix_iff {ws cs : List Char} : encode ws <+: encode cs ↔ ws <+: cs := by
  constructor
  · intro h
    induction ws generalizing cs with
    | nil => exact List.nil_prefix
    | cons w ws ih =>
      obtain ⟨tail, ht⟩ := h
      rw [encode_cons, List.append_assoc] at ht
      have hn : next? (encode cs) = some (w, encode ws ++ tail) := next?_eq_some_iff.2 ht.symm
      cases cs with
      | nil => simp at hn
      | cons c cs =>
        rw [encode_cons, next?_encode_cons] at hn
        obtain ⟨rfl, he⟩ := Prod.mk.inj (Option.some.inj hn)
        exact List.cons_prefix_cons.2 ⟨rfl, ih ⟨tail, he.symm⟩⟩
  · rintro ⟨rest, rfl⟩
    rw [encode_append]
    exact List.prefix_append _ _

end Utf8

namespace Machine

open Utf8

/-! ## Positions in a text -/

/-- The position at offset `o` with the characters `cs` ahead. -/
def Cursor.text (o : Nat) (cs : List Char) : Cursor := ⟨o, encode cs⟩

@[simp] theorem Cursor.offset_text (o : Nat) (cs : List Char) : (text o cs).offset = o := rfl

@[simp] theorem Cursor.rest_text (o : Nat) (cs : List Char) : (text o cs).rest = encode cs := rfl

theorem Cursor.start_eq_text (cs : List Char) : start (encode cs) = text 0 cs := rfl

@[simp] theorem Cursor.char?_text_nil (p : Char → Bool) (o : Nat) : (text o []).char? p = none := by
  simp [text, char?]

@[simp] theorem Cursor.char?_text_cons (p : Char → Bool) (o : Nat) (c : Char) (cs : List Char) :
    (text o (c :: cs)).char? p = if p c then some (text (o + c.utf8Size) cs) else none := by
  simp [text, char?, next?_encode_cons]

theorem Match.between_text (o : Nat) (cs ds : List Char) :
    Match.between (.text o (cs ++ ds)) (.text (o + size cs) ds) = ⟨o, encode cs⟩ := by
  simp [Match.between, size]

theorem Match.between_self (o : Nat) (cs : List Char) : Match.between (.text o cs) (.text o cs) = ⟨o, []⟩ := by
  simp [Match.between]

/-! ## Scans without their looks -/

section Plain

variable {τ α : Type}

/-- A scan without its looks. -/
def Scan.plain (x : Scan (Move α)) : Scan (α × Match) := (x.1, actions x.2)

@[simp] theorem Scan.plain_mk (o : Outcome) (ms : List (Move α)) : Scan.plain (o, ms) = (o, actions ms) := rfl

@[simp] theorem Scan.plain_after (ms : List (Move α)) (x : Scan (Move α)) :
    (x.after ms).plain = x.plain.after (actions ms) := by
  simp [plain, after]

@[simp] theorem Scan.plain_fork (x : Scan (Move α)) (f : Cursor → Scan (Move α)) (g : Scan (Move α)) :
    (x.fork f g).plain = x.plain.fork (fun next => (f next).plain) g.plain := by
  rcases x with ⟨_ | _ | _ | _, ms⟩ <;> simp

/-- What a matching row hands over, without where a refusal would stop. -/
def Row.notes (row : Row τ α) (here next : Cursor) : List (α × Match) :=
  match row.action with
  | none => []
  | some a => [(a, .between here next)]

@[simp] theorem actions_moves (row : Row τ α) (here next : Cursor) :
    actions (row.moves here next) = row.notes here next := by
  unfold Row.moves Row.notes
  cases row.action <;> rfl

theorem plain_repeatScan (min : Nat) (max : Option Nat) (walk : Cursor → Scan (Move α)) (ahead : List UInt8)
    (count : Nat) (here : Cursor) :
    (repeatScan min max walk ahead count here).plain =
      repeatScan min max (fun here => (walk here).plain) ahead count here := by
  induction ahead generalizing count here with
  | nil =>
    unfold repeatScan
    split
    · rcases walk here with ⟨next | _ | _ | _, ms⟩
      · simp only [Scan.plain_mk]
        split <;> rfl
      · rfl
      · rfl
      · rfl
    · rfl
  | cons b ahead ih =>
    unfold repeatScan
    split
    · rcases walk here with ⟨next | _ | _ | _, ms⟩
      · simp only [Scan.plain_mk]
        split
        · rfl
        · rw [Scan.plain_after, ih]
      · rfl
      · rfl
      · rfl
    · rfl

end Plain

/-! ## Single characters and fixed texts -/

section Tests

variable {τ α : Type} (call : τ → Cursor → Scan (Move α)) (o : Nat)

@[simp] theorem plain_scanChar_nil (p : Char → Bool) :
    (scanChar p (.text o []) : Scan (Move α)).plain = (.mismatch, []) := by
  simp [scanChar, Outcome.ofOption]

@[simp] theorem plain_scanChar_cons (p : Char → Bool) (c : Char) (cs : List Char) :
    (scanChar p (.text o (c :: cs)) : Scan (Move α)).plain =
      (if p c then .matched (.text (o + c.utf8Size) cs) else .mismatch, []) := by
  cases h : p c <;> simp [scanChar, Outcome.ofOption, h]

theorem commonLength_eq_iff {β : Type} [DecidableEq β] {as ws : List β} :
    commonLength as ws = ws.length ↔ ws <+: as := by
  induction as generalizing ws with
  | nil => cases ws <;> simp [commonLength]
  | cons a as ih =>
    cases ws with
    | nil => simp [commonLength]
    | cons w ws =>
      unfold commonLength
      by_cases h : a = w
      · subst h
        simp [ih, List.cons_prefix_cons]
      · simp [h, List.cons_prefix_cons, Ne.symm h]

theorem plain_seq_append (word : String) (cs : List Char) :
    (Matcher.scan call (.seq word) (.text o (word.toList ++ cs))).plain =
      (.matched (.text (o + size word.toList) cs), []) := by
  have h : commonLength (encode (word.toList ++ cs)) (encode word.toList) = (encode word.toList).length :=
    commonLength_eq_iff.2 (encode_isPrefix_iff.2 (List.prefix_append _ _))
  rw [encode_append] at h
  simp [Matcher.scan, h, Cursor.advance, Cursor.text, size]

theorem plain_seq_of_not_prefix {word : String} {cs : List Char} (h : ¬ word.toList <+: cs) :
    (Matcher.scan call (.seq word) (.text o cs)).plain = (.mismatch, []) := by
  have h : commonLength (encode cs) (encode word.toList) ≠ (encode word.toList).length :=
    fun he => h (encode_isPrefix_iff.1 (commonLength_eq_iff.1 he))
  simp [Matcher.scan, h]

end Tests

/-! ## Repeated characters -/

/-- The characters that a repeated class takes when it has already taken `count`. -/
def takeChars (p : Char → Bool) (max : Option Nat) : Nat → List Char → List Char
  | _, [] => []
  | count, c :: cs => if belowMax max count ∧ p c then c :: takeChars p max (count + 1) cs else []

theorem takeChars_none (p : Char → Bool) (count : Nat) (cs : List Char) :
    takeChars p none count cs = cs.takeWhile p := by
  induction cs generalizing count with
  | nil => rfl
  | cons c cs ih =>
    cases h : p c <;> simp [takeChars, belowMax, h, ih]

theorem takeChars_append_drop (p : Char → Bool) (max : Option Nat) (count : Nat) (cs : List Char) :
    takeChars p max count cs ++ cs.drop (takeChars p max count cs).length = cs := by
  induction cs generalizing count with
  | nil => rfl
  | cons c cs ih =>
    unfold takeChars
    split
    · simp [ih]
    · rfl

theorem mem_takeChars {p : Char → Bool} {max : Option Nat} {count : Nat} {cs : List Char} {c : Char}
    (h : c ∈ takeChars p max count cs) : p c = true := by
  induction cs generalizing count with
  | nil => simp [takeChars] at h
  | cons d cs ih =>
    unfold takeChars at h
    split at h
    · rename_i hd
      rcases List.mem_cons.1 h with rfl | h
      · exact hd.2
      · exact ih h
    · simp at h

theorem length_takeChars_le (p : Char → Bool) {m count : Nat} (h : count ≤ m) (cs : List Char) :
    count + (takeChars p (some m) count cs).length ≤ m := by
  induction cs generalizing count with
  | nil => simpa [takeChars] using h
  | cons d cs ih =>
    unfold takeChars
    split
    · rename_i hd
      have hlt : count < m := by simpa [belowMax] using hd.1
      have := ih (show count + 1 ≤ m from hlt)
      simp only [List.length_cons]
      omega
    · simpa using h

theorem plain_repeatChar {α : Type} (min : Nat) (max : Option Nat) (p : Char → Bool) {ahead : List UInt8}
    {cs : List Char} (h : cs.length ≤ ahead.length) (o count : Nat) :
    (repeatScan min max (scanChar p) ahead count (.text o cs) : Scan (Move α)).plain =
      (settle min (count + (takeChars p max count cs).length)
        (.text (o + size (takeChars p max count cs)) (cs.drop (takeChars p max count cs).length)), []) := by
  induction cs generalizing ahead o count with
  | nil =>
    rw [plain_repeatScan]
    unfold repeatScan
    by_cases hm : belowMax max count <;> simp [hm, takeChars]
  | cons c cs ih =>
    cases ahead with
    | nil => simp at h
    | cons b ahead =>
      rw [plain_repeatScan]
      unfold repeatScan
      by_cases hm : belowMax max count
      · cases hp : p c with
        | false => simp [hm, hp, takeChars]
        | true =>
          have hne : c.utf8Size ≠ 0 := Nat.ne_of_gt c.utf8Size_pos
          have hlen : cs.length ≤ ahead.length := by simpa using h
          have hrest := ih hlen (o + c.utf8Size) (count + 1)
          rw [plain_repeatScan] at hrest
          simp [hm, hp, takeChars, hne, hrest, Nat.add_assoc, Nat.add_comm 1]
      · simp [hm, takeChars]

theorem plain_repeatOneOf {τ α : Type} (call : τ → Cursor → Scan (Move α)) (set : String) (min : Nat)
    (max : Option Nat) (o : Nat) (cs : List Char) :
    (Matcher.scan call (.repeatOneOf set min max) (.text o cs)).plain =
      (settle min (takeChars (inSet set) max 0 cs).length
        (.text (o + size (takeChars (inSet set) max 0 cs)) (cs.drop (takeChars (inSet set) max 0 cs).length)), []) := by
  have h := plain_repeatChar (α := α) min max (inSet set) (length_le_size cs) o 0
  rw [Nat.zero_add] at h
  exact h

/-! ## Repeated tables -/

section Chain

variable {β : Type} {walk : Cursor → Scan β}

/-- A repetition without a minimum never fails to match. -/
theorem repeatScan_ne_mismatch (max : Option Nat) (ahead : List UInt8) (count : Nat) (here : Cursor) (ms : List β) :
    repeatScan 0 max walk ahead count here ≠ (.mismatch, ms) := by
  induction ahead generalizing count here ms with
  | nil =>
    unfold repeatScan
    split
    · rcases walk here with ⟨next | _ | _ | _, ns⟩ <;> simp [settle]
    · simp [settle]
  | cons b ahead ih =>
    unfold repeatScan
    split
    · rcases walk here with ⟨next | _ | _ | _, ns⟩
      · dsimp only
        split
        · simp [settle]
        · rw [Ne, Scan.after_eq_iff]
          rintro ⟨ns', h, -⟩
          exact ih _ _ _ h
      · simp [settle]
      · simp
      · simp
    · simp [settle]

/-- Matches one after another from `here` to `there`, each of which takes something. -/
inductive Chain (walk : Cursor → Scan β) : Cursor → Cursor → List β → Prop
  | nil (here : Cursor) : Chain walk here here []
  | cons {here mid there : Cursor} {ms ns : List β} (first : walk here = (.matched mid, ms))
      (moved : mid.offset ≠ here.offset) (shorter : mid.rest.length < here.rest.length)
      (rest : Chain walk mid there ns) : Chain walk here there (ms ++ ns)

/-- A chain that ends where nothing matches any more is what an unbounded repetition takes. -/
theorem repeatScan_of_chain {here there : Cursor} {ms ns : List β} (h : Chain walk here there ms)
    (hstop : walk there = (.mismatch, ns))
    (ahead : List UInt8) (hahead : here.rest.length ≤ ahead.length) (count : Nat) :
    repeatScan 0 none walk ahead count here = (.matched there, ms ++ ns) := by
  induction h generalizing ahead count with
  | nil here =>
    unfold repeatScan
    simp [belowMax, hstop, settle]
  | cons first moved shorter rest ih =>
    cases ahead with
    | nil => exact absurd (Nat.lt_of_lt_of_le shorter hahead) (Nat.not_lt_zero _)
    | cons b ahead =>
      unfold repeatScan
      simp only [belowMax, if_true, first, if_neg moved]
      rw [ih hstop ahead (Nat.le_of_lt_succ (Nat.lt_of_lt_of_le shorter hahead))]
      simp [Scan.after]

/-- What an unbounded repetition takes is a chain that ends where nothing matches any more, if each match takes some
of the characters ahead. -/
theorem chain_of_repeatScan
    (hw : ∀ o cs next ms, walk (.text o cs) = (.matched next, ms) →
      ∃ ds rest, ds ≠ [] ∧ cs = ds ++ rest ∧ next = .text (o + size ds) rest)
    (ahead : List UInt8) (count o : Nat) (cs : List Char) (hahead : size cs ≤ ahead.length) {there : Cursor}
    {ms : List β} (h : repeatScan 0 none walk ahead count (.text o cs) = (.matched there, ms)) :
    ∃ ms₁ ms₂, Chain walk (.text o cs) there ms₁ ∧ walk there = (.mismatch, ms₂) ∧ ms = ms₁ ++ ms₂ := by
  induction ahead generalizing count o cs ms with
  | nil =>
    -- nothing is ahead, so that no match could take anything
    have hcs : cs = [] := size_eq_zero.1 (Nat.le_zero.1 hahead)
    subst hcs
    unfold repeatScan at h
    rcases hm : walk (.text o []) with ⟨mid | _ | _ | _, ms₁⟩
    · obtain ⟨ds, rest, hds, hcs, -⟩ := hw _ _ _ _ hm
      exact absurd (List.append_eq_nil_iff.1 hcs.symm).1 hds
    · simp only [belowMax, if_true, hm, settle, Nat.zero_le, Prod.mk.injEq, Outcome.matched.injEq] at h
      obtain ⟨rfl, rfl⟩ := h
      exact ⟨[], ms₁, .nil _, hm, rfl⟩
    · simp [belowMax, hm] at h
    · simp [belowMax, hm] at h
  | cons b ahead ih =>
    unfold repeatScan at h
    rcases hm : walk (.text o cs) with ⟨mid | _ | _ | _, ms₁⟩
    · obtain ⟨ds, rest, hds, rfl, rfl⟩ := hw _ _ _ _ hm
      have hpos := size_pos hds
      have hne : (Cursor.text (o + size ds) rest).offset ≠ (Cursor.text o (ds ++ rest)).offset := by
        simp
        omega
      simp only [belowMax, if_true, hm, if_neg hne] at h
      have hlen : size rest ≤ ahead.length := by
        simp at hahead
        omega
      rcases hr : repeatScan 0 none walk ahead (count + 1) (.text (o + size ds) rest) with ⟨out, ns⟩
      rw [hr] at h
      obtain ⟨rfl, rfl⟩ := Prod.mk.inj h
      obtain ⟨ns₁, ns₂, hchain, hstop, rfl⟩ := ih (count + 1) (o + size ds) rest hlen hr
      have hshort : (encode rest).length < (encode (ds ++ rest)).length := by
        simp only [length_encode, size_append]
        omega
      exact ⟨ms₁ ++ ns₁, ns₂, .cons hm hne hshort hchain, hstop, by rw [List.append_assoc]⟩
    · simp only [belowMax, if_true, hm, settle, Nat.zero_le, Prod.mk.injEq, Outcome.matched.injEq] at h
      obtain ⟨rfl, rfl⟩ := h
      exact ⟨[], ms₁, .nil _, hm, rfl⟩
    · simp [belowMax, hm] at h
    · simp [belowMax, hm] at h

end Chain

end Machine

end TableJson
