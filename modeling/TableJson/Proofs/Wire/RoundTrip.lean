import Mathlib.Data.List.Forall2
import TableJson.Proofs.Value.Norm
import TableJson.Proofs.Wire.Layout

/-!
# Round trip — encodings are read back

* `Value.Measured`: every length in the value fits its four bytes, so that the value has an encoding
  (`exists_encode`).
* The encoding is a layout of the value (`layout_encode`), so it is read back wherever containers may nest as deep as
  in the value.  With fewer levels the first container that is too deep ends the reading (`tooDeep_encode`).
* `decode_encode`: both together, and streams of encodings.
-/

namespace TableJson

/-- The length in bytes can be written before the text. -/
def Measured (text : String) : Prop := (Utf8.encode text.toList).length < 2 ^ (32 : Nat)

namespace Value

mutual

/-- Every string and name has a length that can be written, and so has every container. -/
def Measured : Value → Prop
  | .string text => TableJson.Measured text
  | .array items => items.length < 2 ^ (32 : Nat) ∧ MeasuredItems items
  | .object members => members.length < 2 ^ (32 : Nat) ∧ MeasuredMembers members
  | _ => True

@[inherit_doc Measured]
def MeasuredItems : List Value → Prop
  | [] => True
  | v :: vs => Measured v ∧ MeasuredItems vs

@[inherit_doc Measured]
def MeasuredMembers : List (String × Value) → Prop
  | [] => True
  | (name, v) :: ms => TableJson.Measured name ∧ Measured v ∧ MeasuredMembers ms

end

theorem measuredItems_of_forall {items : List Value} (h : ∀ v ∈ items, v.Measured) : MeasuredItems items := by
  induction items with
  | nil => trivial
  | cons v vs ih =>
    obtain ⟨hv, hvs⟩ := List.forall_mem_cons.1 h
    exact ⟨hv, ih hvs⟩

theorem measuredMembers_of_forall {ms : List (String × Value)}
    (h : ∀ p ∈ ms, TableJson.Measured p.1 ∧ p.2.Measured) : MeasuredMembers ms := by
  induction ms with
  | nil => trivial
  | cons p ms ih =>
    obtain ⟨hp, hms⟩ := List.forall_mem_cons.1 h
    exact ⟨hp.1, hp.2, ih hms⟩

end Value

namespace Wire

/-! ## What an encoding consists of -/

section Inversion

variable {e : List UInt8} {v : Value}

theorem bind_eq_ok_iff {ε β γ : Type} {x : Except ε β} {f : β → Except ε γ} {c : γ} :
    (x >>= f) = .ok c ↔ ∃ b, x = .ok b ∧ f b = .ok c := by
  cases x with
  | error error => simp [bind, Except.bind]
  | ok b => simp [bind, Except.bind]

theorem encodeLength_eq_ok_iff {n : Nat} : encodeLength n = .ok e ↔ n < 2 ^ (32 : Nat) ∧ e = bigEndian 4 n := by
  unfold encodeLength
  by_cases hn : n < 2 ^ (32 : Nat)
  · rw [if_pos hn, Except.ok.injEq, eq_comm]
    exact (and_iff_right hn).symm
  · rw [if_neg hn]
    simp [hn]

theorem encodeText_eq_ok_iff {text : String} : encodeText text = .ok e ↔ Spelled e text := by
  simp only [encodeText, bind_eq_ok_iff, encodeLength_eq_ok_iff, pure, Except.pure, Except.ok.injEq]
  constructor
  · rintro ⟨_, ⟨hlength, rfl⟩, rfl⟩
    exact ⟨hlength, rfl⟩
  · rintro ⟨hlength, rfl⟩
    exact ⟨_, ⟨hlength, rfl⟩, rfl⟩

theorem encode_string_iff {text : String} :
    encode (.string text) = .ok e ↔ ∃ bytes, Spelled bytes text ∧ e = tagByte .string :: bytes := by
  simp only [encode, bind_eq_ok_iff, encodeText_eq_ok_iff, pure, Except.pure, Except.ok.injEq, eq_comm (a := e)]

/-- A tag, a count in four bytes, and the parts. -/
theorem encodeCounted_eq_ok_iff {tag : UInt8} {n : Nat} {parts : Except EncodeError (List UInt8)} :
    (do
        let length ← encodeLength n
        return tag :: (length ++ (← parts))) = .ok e ↔
      n < 2 ^ (32 : Nat) ∧ ∃ bytes, parts = .ok bytes ∧ e = tag :: (bigEndian 4 n ++ bytes) := by
  simp only [bind_eq_ok_iff, encodeLength_eq_ok_iff, pure, Except.pure, Except.ok.injEq]
  constructor
  · rintro ⟨_, ⟨hlength, rfl⟩, bytes, hbytes, rfl⟩
    exact ⟨hlength, bytes, hbytes, rfl⟩
  · rintro ⟨hlength, bytes, hbytes, rfl⟩
    exact ⟨_, ⟨hlength, rfl⟩, bytes, hbytes, rfl⟩

theorem encode_array_iff {items : List Value} :
    encode (.array items) = .ok e ↔ items.length < 2 ^ (32 : Nat) ∧ ∃ bytes, encodeItems items = .ok bytes ∧
      e = tagByte .array :: (bigEndian 4 items.length ++ bytes) := encodeCounted_eq_ok_iff

theorem encode_object_iff {members : Members} :
    encode (.object members) = .ok e ↔ members.length < 2 ^ (32 : Nat) ∧ ∃ bytes, encodeMembers members = .ok bytes ∧
      e = tagByte .object :: (bigEndian 4 members.length ++ bytes) := encodeCounted_eq_ok_iff

theorem encodeItems_cons_iff {vs : List Value} :
    encodeItems (v :: vs) = .ok e ↔
      ∃ first others, encode v = .ok first ∧ encodeItems vs = .ok others ∧ e = first ++ others := by
  simp only [encodeItems, bind_eq_ok_iff, pure, Except.pure, Except.ok.injEq, eq_comm (a := e), exists_and_left]

theorem encodeMembers_cons_iff {name : String} {ms : List (String × Value)} :
    encodeMembers ((name, v) :: ms) = .ok e ↔
      ∃ label first others, Spelled label name ∧ encode v = .ok first ∧ encodeMembers ms = .ok others ∧
        e = label ++ first ++ others := by
  simp only [encodeMembers, bind_eq_ok_iff, encodeText_eq_ok_iff, pure, Except.pure, Except.ok.injEq, eq_comm (a := e),
    exists_and_left, List.append_assoc]

end Inversion

/-! ## There is one -/

theorem exists_spelled {text : String} (h : Measured text) : ∃ e, Spelled e text := ⟨_, h, rfl⟩

mutual

theorem exists_encode : ∀ v : Value, v.Measured → ∃ e, encode v = .ok e
  | .null, _ => ⟨_, rfl⟩
  | .boolean _, _ => ⟨_, rfl⟩
  | .integer _, _ => ⟨_, rfl⟩
  | .uinteger _, _ => ⟨_, rfl⟩
  | .real _, _ => ⟨_, rfl⟩
  | .string _, h => by
    obtain ⟨bytes, hbytes⟩ := exists_spelled h
    exact ⟨_, encode_string_iff.2 ⟨bytes, hbytes, rfl⟩⟩
  | .array items, ⟨hcount, h⟩ => by
    obtain ⟨bytes, hbytes⟩ := exists_encodeItems items h
    exact ⟨_, encode_array_iff.2 ⟨hcount, bytes, hbytes, rfl⟩⟩
  | .object members, ⟨hcount, h⟩ => by
    obtain ⟨bytes, hbytes⟩ := exists_encodeMembers members h
    exact ⟨_, encode_object_iff.2 ⟨hcount, bytes, hbytes, rfl⟩⟩

theorem exists_encodeItems : ∀ vs : List Value, Value.MeasuredItems vs → ∃ e, encodeItems vs = .ok e
  | [], _ => ⟨_, rfl⟩
  | v :: vs, ⟨hv, hvs⟩ => by
    obtain ⟨first, hfirst⟩ := exists_encode v hv
    obtain ⟨others, hothers⟩ := exists_encodeItems vs hvs
    exact ⟨_, encodeItems_cons_iff.2 ⟨first, others, hfirst, hothers, rfl⟩⟩

theorem exists_encodeMembers : ∀ ms : List (String × Value), Value.MeasuredMembers ms → ∃ e, encodeMembers ms = .ok e
  | [], _ => ⟨_, rfl⟩
  | (_, v) :: ms, ⟨hname, hv, hms⟩ => by
    obtain ⟨label, hlabel⟩ := exists_spelled hname
    obtain ⟨first, hfirst⟩ := exists_encode v hv
    obtain ⟨others, hothers⟩ := exists_encodeMembers ms hms
    exact ⟨_, encodeMembers_cons_iff.2 ⟨label, first, others, hlabel, hfirst, hothers, rfl⟩⟩

end

/-! ## It is a layout -/

mutual

/-- The encoding of a value is a layout of it, with as many levels as the value nests or more. -/
theorem layout_encode : ∀ (v : Value) (levels : Nat) {e : List UInt8}, encode v = .ok e → v.WellFormed →
    v.nesting ≤ levels → Layout levels e v
  | .null, levels, _, he, _, _ => Except.ok.inj he ▸ .tagged (.null levels)
  | .boolean b, levels, _, he, _, _ => Except.ok.inj he ▸ .tagged (.boolean levels b)
  | .integer n, levels, _, he, _, _ => Except.ok.inj he ▸ .tagged (.integer levels n)
  | .uinteger n, levels, _, he, _, _ => Except.ok.inj he ▸ .tagged (.uinteger levels n)
  | .real x, levels, _, he, _, _ => Except.ok.inj he ▸ .tagged (.real levels x)
  | .string _, levels, _, he, _, _ => by
    obtain ⟨bytes, hbytes, rfl⟩ := encode_string_iff.1 he
    exact .tagged (.string levels hbytes)
  | .array items, 0, _, _, _, hnesting => by simp [Value.nesting] at hnesting
  | .array items, levels + 1, _, he, hwf, hnesting => by
    obtain ⟨hcount, bytes, hbytes, rfl⟩ := encode_array_iff.1 he
    exact .tagged (.array hcount (items_encode items levels hbytes hwf (Nat.le_of_succ_le_succ hnesting)))
  | .object members, 0, _, _, _, hnesting => by simp [Value.nesting] at hnesting
  | .object members, levels + 1, _, he, hwf, hnesting => by
    obtain ⟨hcount, bytes, hbytes, rfl⟩ := encode_object_iff.1 he
    have hpairs := pairs_encode members levels hbytes hwf.2 (Nat.le_of_succ_le_succ hnesting)
    exact .tagged (.object hcount hpairs (Members.gathers_self hwf.1))

theorem items_encode : ∀ (vs : List Value) (levels : Nat) {e : List UInt8}, encodeItems vs = .ok e →
    Value.WellFormedItems vs → Value.nestingItems vs ≤ levels → Items levels e vs
  | [], levels, _, he, _, _ => Except.ok.inj he ▸ .nil levels
  | v :: vs, levels, _, he, ⟨hv, hvs⟩, hnesting => by
    obtain ⟨first, others, hfirst, hothers, rfl⟩ := encodeItems_cons_iff.1 he
    obtain ⟨hnv, hnvs⟩ := Nat.max_le.1 hnesting
    exact .cons (layout_encode v levels hfirst hv hnv) (items_encode vs levels hothers hvs hnvs)

theorem pairs_encode : ∀ (ms : List (String × Value)) (levels : Nat) {e : List UInt8}, encodeMembers ms = .ok e →
    Value.WellFormedMembers ms → Value.nestingMembers ms ≤ levels → Pairs levels e ms
  | [], levels, _, he, _, _ => Except.ok.inj he ▸ .nil levels
  | (_, v) :: ms, levels, _, he, ⟨hv, hms⟩, hnesting => by
    obtain ⟨label, first, others, hlabel, hfirst, hothers, rfl⟩ := encodeMembers_cons_iff.1 he
    obtain ⟨hnv, hnms⟩ := Nat.max_le.1 hnesting
    exact .cons hlabel (layout_encode v levels hfirst hv hnv) (pairs_encode ms levels hothers hms hnms)

end

/-! ## Too deep -/

/-- Reading ends because a container stands too deep. -/
def TooDeep {β : Type} (r : Reader β) (bytes : List UInt8) : Prop := (r bytes).1 = .error .tooDeep

namespace TooDeep

variable {β γ : Type} {r : Reader β} {next : β → Reader γ} {bytes : List UInt8}

/-- What reads on after an answer is not reached. -/
theorem first (h : TooDeep r bytes) : TooDeep (r >>= next) bytes := by
  unfold TooDeep at h
  change (Reader.bind r next bytes).1 = _
  rcases hbytes : r bytes with ⟨answer, rest⟩
  rw [hbytes] at h
  subst h
  rw [Reader.bind, hbytes]

/-- The answer is found, and what follows it is too deep. -/
theorem andThen {P : List UInt8 → β → Prop} (hr : Takes r P) {e : List UInt8} {b : β} (he : P e b)
    (h : TooDeep (next b) bytes) : TooDeep (r >>= next) (e ++ bytes) := by
  change (Reader.bind r next (e ++ bytes)).1 = _
  rw [Reader.bind, hr.read he]
  exact h

end TooDeep

/-- A container is refused where none may stand, and read with one level less otherwise. -/
theorem tooDeep_tagged {levels : Nat} {kind : Kind} {bytes : List UInt8}
    (hnone : TooDeep (readPayload none kind) bytes)
    (hsome : ∀ below, levels = below + 1 → TooDeep (readPayload (some (readValue below)) kind) bytes) :
    TooDeep (readValue levels) (tagByte kind :: bytes) := by
  cases levels with
  | zero => exact .andThen takes_readKind (e := [tagByte kind]) rfl hnone
  | succ below => exact .andThen takes_readKind (e := [tagByte kind]) rfl (hsome below rfl)

mutual

/-- The encoding of a value that nests too deep is not read. -/
theorem tooDeep_encode : ∀ (v : Value) (levels : Nat) {e : List UInt8} (rest : List UInt8), encode v = .ok e →
    v.WellFormed → levels < v.nesting → TooDeep (readValue levels) (e ++ rest)
  | .null, _, _, _, _, _, hnesting => absurd hnesting (Nat.not_lt_zero _)
  | .boolean _, _, _, _, _, _, hnesting => absurd hnesting (Nat.not_lt_zero _)
  | .integer _, _, _, _, _, _, hnesting => absurd hnesting (Nat.not_lt_zero _)
  | .uinteger _, _, _, _, _, _, hnesting => absurd hnesting (Nat.not_lt_zero _)
  | .real _, _, _, _, _, _, hnesting => absurd hnesting (Nat.not_lt_zero _)
  | .string _, _, _, _, _, _, hnesting => absurd hnesting (Nat.not_lt_zero _)
  | .array items, levels, _, rest, he, hwf, hnesting => by
    obtain ⟨hcount, bytes, hbytes, rfl⟩ := encode_array_iff.1 he
    rw [List.cons_append, List.append_assoc]
    refine tooDeep_tagged rfl fun below hlevels => ?_
    subst hlevels
    refine .andThen (takes_readNat 4) ⟨hcount, rfl⟩ (.first ?_)
    exact tooDeep_encodeItems items below rest hbytes hwf (Nat.lt_of_succ_lt_succ hnesting)
  | .object members, levels, _, rest, he, hwf, hnesting => by
    obtain ⟨hcount, bytes, hbytes, rfl⟩ := encode_object_iff.1 he
    rw [List.cons_append, List.append_assoc]
    refine tooDeep_tagged rfl fun below hlevels => ?_
    subst hlevels
    refine .andThen (takes_readNat 4) ⟨hcount, rfl⟩ (.first ?_)
    exact tooDeep_encodeMembers members below rest hbytes hwf.2 (Nat.lt_of_succ_lt_succ hnesting)

-- the items before the one that is too deep are read as their layouts
theorem tooDeep_encodeItems : ∀ (vs : List Value) (levels : Nat) {e : List UInt8} (rest : List UInt8),
    encodeItems vs = .ok e → Value.WellFormedItems vs → levels < Value.nestingItems vs →
    TooDeep ((readValue levels).times vs.length) (e ++ rest)
  | [], _, _, _, _, _, hnesting => absurd hnesting (Nat.not_lt_zero _)
  | v :: vs, levels, _, rest, he, ⟨hv, hvs⟩, hnesting => by
    obtain ⟨first, others, hfirst, hothers, rfl⟩ := encodeItems_cons_iff.1 he
    rw [List.append_assoc]
    by_cases hdeep : levels < v.nesting
    · exact .first (tooDeep_encode v levels _ hfirst hv hdeep)
    · have hlayout := layout_encode v levels hfirst hv (Nat.le_of_not_lt hdeep)
      have hothersDeep : levels < Value.nestingItems vs := by
        rw [Value.nestingItems] at hnesting
        omega
      exact .andThen (takes_readValue levels) hlayout
        (.first (tooDeep_encodeItems vs levels rest hothers hvs hothersDeep))

theorem tooDeep_encodeMembers : ∀ (ms : List (String × Value)) (levels : Nat) {e : List UInt8} (rest : List UInt8),
    encodeMembers ms = .ok e → Value.WellFormedMembers ms → levels < Value.nestingMembers ms →
    TooDeep ((readMember (readValue levels)).times ms.length) (e ++ rest)
  | [], _, _, _, _, _, hnesting => absurd hnesting (Nat.not_lt_zero _)
  | (name, v) :: ms, levels, _, rest, he, ⟨hv, hms⟩, hnesting => by
    obtain ⟨label, first, others, hlabel, hfirst, hothers, rfl⟩ := encodeMembers_cons_iff.1 he
    rw [List.append_assoc]
    by_cases hdeep : levels < v.nesting
    · rw [List.append_assoc]
      exact .first (.andThen takes_readText hlabel (.first (tooDeep_encode v levels _ hfirst hv hdeep)))
    · have hlayout := layout_encode v levels hfirst hv (Nat.le_of_not_lt hdeep)
      have hothersDeep : levels < Value.nestingMembers ms := by
        rw [Value.nestingMembers] at hnesting
        omega
      exact .andThen (takes_member (takes_readValue levels)) (b := (name, v)) ⟨label, first, rfl, hlabel, hlayout⟩
        (.first (tooDeep_encodeMembers ms levels rest hothers hms hothersDeep))

end

/-! ## Streams -/

theorem ne_nil_of_layout {levels : Nat} {e : List UInt8} {v : Value} (h : Layout levels e v) : e ≠ [] := by
  obtain ⟨kind, payload, rfl, -⟩ := layout_iff.1 h
  exact List.cons_ne_nil (tagByte kind) payload

/-- Layouts one after another are read one after another, with a turn for each byte or more. -/
theorem decodeWhile_layouts {vs : List Value} {parts : List (List UInt8)}
    (h : List.Forall₂ (Layout defaultMaxDepth) parts vs) :
    ∀ fuel, parts.flatten.length ≤ fuel → (decodeWhile fuel parts.flatten).map Prod.fst = vs.map .ok := by
  induction h with
  | nil =>
    intro fuel _
    cases fuel <;> rfl
  | @cons e v parts vs hv hvs ih =>
    intro fuel hfuel
    rw [List.flatten_cons, List.length_append] at hfuel
    have hread : decode (e ++ parts.flatten) = (.ok v, parts.flatten) := (takes_readValue _).read hv _
    obtain ⟨byte, bytes, rfl⟩ := List.exists_cons_of_ne_nil (ne_nil_of_layout hv)
    rw [List.length_cons] at hfuel
    cases fuel with
    | zero => omega
    | succ fuel =>
      have htail := ih fuel (by omega)
      rw [List.flatten_cons, decodeWhile, hread]
      · exact congrArg (_ :: ·) htail
      · exact List.cons_ne_nil byte (bytes ++ parts.flatten)

/-! ## Both ways -/

section

variable {v : Value} {e : List UInt8}

theorem decode_of_nesting_le (he : encode v = .ok e) (hwf : v.WellFormed) (hnesting : v.nesting ≤ defaultMaxDepth)
    (rest : List UInt8) : decode (e ++ rest) = (.ok v, rest) :=
  (takes_readValue _).read (layout_encode v _ he hwf hnesting) rest

theorem decodeAll_eq_ok_iff_nesting_le (he : encode v = .ok e) (hwf : v.WellFormed) :
    decodeAll e = .ok v ↔ v.nesting ≤ defaultMaxDepth := by
  unfold decodeAll
  constructor
  · intro h
    refine Nat.le_of_not_lt fun hdeep => ?_
    have hrefused := tooDeep_encode v _ [] he hwf hdeep
    rw [List.append_nil] at hrefused
    unfold decode at h
    rcases hread : readValue defaultMaxDepth e with ⟨answer, rest⟩
    rw [TooDeep, hread] at hrefused
    subst hrefused
    simp [hread] at h
  · intro hnesting
    have hread := decode_of_nesting_le he hwf hnesting []
    rw [List.append_nil] at hread
    rw [hread]

end

/-- What is encoded is read back, whatever follows, exactly if its containers nest no deeper than allowed; encodings
one after another are read back as a stream. -/
theorem decode_encode :
    (∀ v : OrderedValue, v.val.Measured → ∃ bytes, encode v.val = .ok bytes ∧
      (v.val.nesting ≤ defaultMaxDepth → ∀ rest, decode (bytes ++ rest) = (.ok v.val, rest)) ∧
      (defaultMaxDepth < v.val.nesting → ∀ rest, (decode (bytes ++ rest)).1 = .error .tooDeep) ∧
      (decodeAll bytes = .ok v.val ↔ v.val.nesting ≤ defaultMaxDepth)) ∧
    ∀ vs : List OrderedValue, (∀ v ∈ vs, v.val.Measured ∧ v.val.nesting ≤ defaultMaxDepth) →
      ∃ parts, List.Forall₂ (fun v bytes => encode v.val = .ok bytes) vs parts ∧
        (decodeStream parts.flatten).map Prod.fst = vs.map fun v => .ok v.val := by
  constructor
  · rintro ⟨v, hwf⟩ hmeasured
    obtain ⟨e, he⟩ := exists_encode v hmeasured
    refine ⟨e, he, fun hnesting => decode_of_nesting_le he hwf hnesting, fun hdeep rest => ?_,
      decodeAll_eq_ok_iff_nesting_le he hwf⟩
    exact tooDeep_encode v _ rest he hwf hdeep
  · intro vs h
    have hparts : ∃ parts, List.Forall₂ (fun v bytes => encode v.val = .ok bytes) vs parts ∧
        List.Forall₂ (Layout defaultMaxDepth) parts (vs.map OrderedValue.val) := by
      induction vs with
      | nil => exact ⟨[], .nil, .nil⟩
      | cons v vs ih =>
        obtain ⟨⟨hmeasured, hnesting⟩, hvs⟩ := List.forall_mem_cons.1 h
        obtain ⟨parts, hencoded, hlayouts⟩ := ih hvs
        obtain ⟨e, he⟩ := exists_encode v.val hmeasured
        exact ⟨e :: parts, .cons he hencoded, .cons (layout_encode v.val _ he v.wellFormed hnesting) hlayouts⟩
    obtain ⟨parts, hencoded, hlayouts⟩ := hparts
    have hread := decodeWhile_layouts hlayouts _ (Nat.le_refl _)
    rw [List.map_map] at hread
    exact ⟨parts, hencoded, hread⟩

/-- A signalling pattern, and a member. -/
def nanArray : Value := .array [.real (.ofNat 0x7ff0000000000001), .object [("k", .integer (-1))]]

theorem nanArray_wellFormed : nanArray.WellFormed := by
  simp [nanArray, Value.WellFormed, Value.WellFormedItems, Value.WellFormedMembers, Members.Ordered]

theorem nanArray_measured : nanArray.Measured := by
  simp +decide [nanArray, Value.Measured, Value.MeasuredItems, Value.MeasuredMembers, TableJson.Measured]

/-- Arrays in one another. -/
def nestedArrays : Nat → Value
  | 0 => .null
  | n + 1 => .array [nestedArrays n]

theorem nestedArrays_spec (n : Nat) :
    (nestedArrays n).WellFormed ∧ (nestedArrays n).Measured ∧ (nestedArrays n).nesting = n := by
  induction n with
  | zero => exact ⟨trivial, trivial, rfl⟩
  | succ n ih =>
    obtain ⟨hwf, hmeasured, hnesting⟩ := ih
    have hcount : 1 < 2 ^ (32 : Nat) := by decide
    refine ⟨⟨hwf, trivial⟩, ⟨hcount, hmeasured, trivial⟩, ?_⟩
    simp [nestedArrays, Value.nesting, Value.nestingItems, hnesting]

theorem decode_encode_nan :
    (∃ bytes, encode nanArray = .ok bytes ∧ ∀ rest, decode (bytes ++ rest) = (.ok nanArray, rest)) ∧
      (∃ bytes, encode (nestedArrays (defaultMaxDepth + 1)) = .ok bytes ∧
        ∀ rest, (decode (bytes ++ rest)).1 = .error .tooDeep) ∧
      ∃ parts, List.Forall₂ (fun v bytes => encode v = .ok bytes) [nanArray, .null] parts ∧
        (decodeStream parts.flatten).map Prod.fst = [.ok nanArray, .ok .null] := by
  obtain ⟨hone, hstream⟩ := decode_encode
  refine ⟨?_, ?_, ?_⟩
  · obtain ⟨bytes, hbytes, hread, -, -⟩ := hone ⟨nanArray, nanArray_wellFormed⟩ nanArray_measured
    exact ⟨bytes, hbytes, hread (by decide)⟩
  · obtain ⟨hwf, hmeasured, hnesting⟩ := nestedArrays_spec (defaultMaxDepth + 1)
    obtain ⟨bytes, hbytes, -, hrefused, -⟩ := hone ⟨_, hwf⟩ hmeasured
    exact ⟨bytes, hbytes, hrefused (by rw [hnesting]; exact Nat.lt_succ_self _)⟩
  · obtain ⟨parts, hparts, hread⟩ := hstream [⟨nanArray, nanArray_wellFormed⟩, ⟨.null, trivial⟩] (by
      rw [List.forall_mem_cons, List.forall_mem_singleton]
      exact ⟨⟨nanArray_measured, by decide⟩, trivial, by decide⟩)
    have hencoded := (List.forall₂_map_left_iff (R := fun v bytes => encode v = .ok bytes)
      (f := OrderedValue.val)).2 hparts
    exact ⟨parts, hencoded, hread⟩

end Wire

end TableJson
