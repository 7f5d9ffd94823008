import TableJson.Proofs.Value.Gathering
import TableJson.Proofs.Wire.Reader

/-!
# Layouts — the bytes that stand for a value

| kind     | after the tag byte                                              |
|----------|-----------------------------------------------------------------|
| null     | nothing                                                         |
| boolean  | one byte, 0 or 1                                                |
| integer  | eight bytes, two's complement                                   |
| uinteger | eight bytes                                                     |
| real     | the eight bytes of the pattern                                  |
| string   | the length in four bytes, UTF-8                                 |
| array    | the number of items in four bytes, the items                    |
| object   | the number of pairs in four bytes, for each its name, written   |
|          | as after the tag of a string, and its value                     |

`Layout levels bytes v` says that `bytes` stand for `v` by this table, with containers nested at most `levels` deep.
The names of an object may come in any order and more than once; the last value of a name counts.

Reading takes exactly the layouts off the front (`decode_eq_ok_iff`).
-/

namespace TableJson.Wire

open Number

mutual

/-- A tag byte, and what the table says for its kind. -/
inductive Layout : Nat → List UInt8 → Value → Prop
  | tagged {levels : Nat} {kind : Kind} {bytes : List UInt8} {v : Value} (payload : Payload levels kind bytes v) :
      Layout levels (tagByte kind :: bytes) v

/-- What stands after the tag of a kind. -/
inductive Payload : Nat → Kind → List UInt8 → Value → Prop
  | null (levels : Nat) : Payload levels .null [] .null
  | boolean (levels : Nat) (b : Bool) : Payload levels .boolean [if b then 1 else 0] (.boolean b)
  | integer (levels : Nat) (n : Int64) :
      Payload levels .integer (bigEndian 8 (n.toInt % 2 ^ (64 : Nat)).toNat) (.integer n)
  | uinteger (levels : Nat) (n : UInt64) : Payload levels .uinteger (bigEndian 8 n.toNat) (.uinteger n)
  | real (levels : Nat) (x : Binary64) : Payload levels .real (bigEndian 8 x.bits) (.real x)
  | string (levels : Nat) {bytes : List UInt8} {text : String} (spelled : Spelled bytes text) :
      Payload levels .string bytes (.string text)
  | array {levels : Nat} {bytes : List UInt8} {items : List Value} (count : items.length < 2 ^ (32 : Nat))
      (each : Items levels bytes items) :
      Payload (levels + 1) .array (bigEndian 4 items.length ++ bytes) (.array items)
  | object {levels : Nat} {bytes : List UInt8} {pairs : List (String × Value)} {members : Members}
      (count : pairs.length < 2 ^ (32 : Nat)) (each : Pairs levels bytes pairs)
      (gathers : Members.Gathers pairs members) :
      Payload (levels + 1) .object (bigEndian 4 pairs.length ++ bytes) (.object members)

/-- Layouts of items, one after another. -/
inductive Items : Nat → List UInt8 → List Value → Prop
  | nil (levels : Nat) : Items levels [] []
  | cons {levels : Nat} {first others : List UInt8} {v : Value} {vs : List Value} (head : Layout levels first v)
      (tail : Items levels others vs) : Items levels (first ++ others) (v :: vs)

/-- Names and layouts of their values, one after another. -/
inductive Pairs : Nat → List UInt8 → List (String × Value) → Prop
  | nil (levels : Nat) : Pairs levels [] []
  | cons {levels : Nat} {label first others : List UInt8} {name : String} {v : Value} {ps : List (String × Value)}
      (spelled : Spelled label name) (head : Layout levels first v) (tail : Pairs levels others ps) :
      Pairs levels (label ++ first ++ others) ((name, v) :: ps)

end

section Inversion

variable {levels : Nat} {e : List UInt8} {v : Value}

theorem layout_iff : Layout levels e v ↔ ∃ kind payload, e = tagByte kind :: payload ∧ Payload levels kind payload v :=
  ⟨fun ⟨h⟩ => ⟨_, _, rfl, h⟩, fun ⟨_, _, he, h⟩ => he ▸ .tagged h⟩

theorem items_nil_iff : Items levels e [] ↔ e = [] :=
  ⟨fun h => by cases h; rfl, fun he => he ▸ .nil levels⟩

theorem items_cons_iff {vs : List Value} :
    Items levels e (v :: vs) ↔ ∃ e₁ e₂, e = e₁ ++ e₂ ∧ Layout levels e₁ v ∧ Items levels e₂ vs := by
  constructor
  · rintro ⟨⟩
    exact ⟨_, _, rfl, ‹_›, ‹_›⟩
  · rintro ⟨e₁, e₂, rfl, h₁, h₂⟩
    exact .cons h₁ h₂

theorem pairs_nil_iff : Pairs levels e [] ↔ e = [] :=
  ⟨fun h => by cases h; rfl, fun he => he ▸ .nil levels⟩

theorem pairs_cons_iff {p : String × Value} {ps : List (String × Value)} :
    Pairs levels e (p :: ps) ↔
      ∃ e₁ e₂, e = e₁ ++ e₂ ∧ (∃ label first, e₁ = label ++ first ∧ Spelled label p.1 ∧ Layout levels first p.2) ∧
        Pairs levels e₂ ps := by
  constructor
  · rintro ⟨⟩
    exact ⟨_, _, rfl, ⟨_, _, rfl, ‹_›, ‹_›⟩, ‹_›⟩
  · rintro ⟨_, e₂, rfl, ⟨label, first, rfl, hname, h₁⟩, h₂⟩
    exact .cons hname h₁ h₂

end Inversion

/-! ## Readers of payloads -/

section Words

variable {β : Type} {f : Nat → β} {g : β → Nat}

/-- Eight bytes for each word of 64 bits. -/
theorem takes_word (hf : ∀ b, g b < 2 ^ (64 : Nat) ∧ f (g b) = b) (hg : ∀ n < 2 ^ (64 : Nat), g (f n) = n)
    (toValue : β → Value) :
    Takes (do return toValue (f (← readNat 8))) fun e v => ∃ b, e = bigEndian 8 (g b) ∧ v = toValue b := by
  refine (takes_readNat 8).map.congr fun e v => ?_
  constructor
  · rintro ⟨n, ⟨hn, rfl⟩, rfl⟩
    exact ⟨f n, by rw [hg n hn], rfl⟩
  · rintro ⟨b, rfl, rfl⟩
    exact ⟨g b, ⟨(hf b).1, rfl⟩, by rw [(hf b).2]⟩

theorem takes_int64 : Takes (do return Value.integer (.ofNat (← readNat 8)))
    fun e v => ∃ n : Int64, e = bigEndian 8 (n.toInt % 2 ^ (64 : Nat)).toNat ∧ v = .integer n := by
  refine takes_word (fun n => ⟨by omega, ?_⟩) (fun n hn => ?_) Value.integer
  · have hlow := n.le_toInt
    have hhigh := n.toInt_lt
    rw [← Int64.toInt_inj, Int64.toInt_ofNat', Int.bmod_def, show Int64.size = 2 ^ (64 : Nat) from rfl]
    omega
  · rw [Int64.toInt_ofNat', Int.bmod_def, show Int64.size = 2 ^ (64 : Nat) from rfl]
    omega

theorem takes_uint64 : Takes (do return Value.uinteger (.ofNat (← readNat 8)))
    fun e v => ∃ n : UInt64, e = bigEndian 8 n.toNat ∧ v = .uinteger n :=
  takes_word (fun n => ⟨n.toNat_lt, UInt64.ofNat_toNat⟩) (fun _ hn => UInt64.toNat_ofNat_of_lt hn) Value.uinteger

theorem takes_binary64 : Takes (do return Value.real (.ofNat (← readNat 8)))
    fun e v => ∃ x : Binary64, e = bigEndian 8 x.bits ∧ v = .real x := by
  refine takes_word (fun x => ⟨x.bits_lt, ?_⟩) (fun n hn => Nat.mod_eq_of_lt hn) Value.real
  obtain ⟨bits, hbits⟩ := x
  simp only [Binary.ofNat, Nat.mod_eq_of_lt hbits]

end Words

section Readers

variable {levels : Nat} {r : Reader Value}

theorem takes_items (hr : Takes r (Layout levels)) (n : Nat) :
    Takes (r.times n) fun e items => items.length = n ∧ Items levels e items :=
  hr.times (fun _ => items_nil_iff) (fun _ _ _ => items_cons_iff) n

theorem takes_member (hr : Takes r (Layout levels)) :
    Takes (readMember r) fun e p =>
      ∃ label first, e = label ++ first ∧ Spelled label p.1 ∧ Layout levels first p.2 := by
  refine (takes_readText.bind fun name => hr.map (f := fun v => (name, v))).congr fun e p => ?_
  constructor
  · rintro ⟨label, first, name, rfl, hname, v, hv, rfl⟩
    exact ⟨label, first, rfl, hname, hv⟩
  · rintro ⟨label, first, rfl, hname, hv⟩
    exact ⟨label, first, p.1, rfl, hname, p.2, hv, rfl⟩

theorem takes_pairs (hr : Takes r (Layout levels)) (n : Nat) :
    Takes ((readMember r).times n) fun e pairs => pairs.length = n ∧ Pairs levels e pairs :=
  (takes_member hr).times (fun _ => pairs_nil_iff) (fun _ _ _ => pairs_cons_iff) n

/-- A count in four bytes, and so many parts. -/
theorem takes_counted {β : Type} {parts : Nat → Reader (List β)} {R : List UInt8 → List β → Prop} {f : List β → Value}
    (h : ∀ n, Takes (parts n) fun e bs => bs.length = n ∧ R e bs) :
    Takes (do
        let n ← readNat 4
        return f (← parts n))
      fun e v =>
        ∃ bytes bs, bs.length < 2 ^ (32 : Nat) ∧ e = bigEndian 4 bs.length ++ bytes ∧ R bytes bs ∧ v = f bs := by
  refine ((takes_readNat 4).bind fun n => (h n).map).congr fun e v => ?_
  constructor
  · rintro ⟨_, bytes, n, rfl, ⟨hn, rfl⟩, bs, ⟨rfl, hbs⟩, rfl⟩
    exact ⟨bytes, bs, hn, rfl, hbs, rfl⟩
  · rintro ⟨bytes, bs, hn, rfl, hbs, rfl⟩
    exact ⟨_, bytes, bs.length, rfl, ⟨hn, rfl⟩, bs, ⟨rfl, hbs⟩, rfl⟩

/-- The reader of what containers hold: none if no container may stand here. -/
inductive Holds : Option (Reader Value) → Nat → Prop
  | nothing : Holds none 0
  | values {levels : Nat} {r : Reader Value} (hr : Takes r (Layout levels)) : Holds (some r) (levels + 1)

theorem takes_readPayload {child : Option (Reader Value)} (h : Holds child levels) (kind : Kind) :
    Takes (readPayload child kind) (Payload levels kind) := by
  cases kind with
  | null =>
    refine (Takes.pure Value.null).congr fun e v => ⟨?_, fun h => by cases h; exact ⟨rfl, rfl⟩⟩
    rintro ⟨rfl, rfl⟩
    exact .null levels
  | boolean =>
    refine takes_readBool.map.congr fun e v => ⟨?_, fun h => by cases h; exact ⟨_, rfl, rfl⟩⟩
    rintro ⟨b, rfl, rfl⟩
    exact .boolean levels b
  | integer =>
    refine takes_int64.congr fun e v => ⟨?_, fun h => by cases h; exact ⟨_, rfl, rfl⟩⟩
    rintro ⟨n, rfl, rfl⟩
    exact .integer levels n
  | uinteger =>
    refine takes_uint64.congr fun e v => ⟨?_, fun h => by cases h; exact ⟨_, rfl, rfl⟩⟩
    rintro ⟨n, rfl, rfl⟩
    exact .uinteger levels n
  | real =>
    refine takes_binary64.congr fun e v => ⟨?_, fun h => by cases h; exact ⟨_, rfl, rfl⟩⟩
    rintro ⟨x, rfl, rfl⟩
    exact .real levels x
  | string =>
    refine takes_readText.map.congr fun e v => ⟨?_, fun h => by cases h; exact ⟨_, ‹_›, rfl⟩⟩
    rintro ⟨text, htext, rfl⟩
    exact .string levels htext
  | array =>
    cases h with
    | nothing => exact (Takes.fail .tooDeep).congr fun e v => ⟨False.elim, fun h => by cases h⟩
    | values hr =>
      refine (takes_counted (takes_items hr)).congr fun e v =>
        ⟨?_, fun h => by cases h; exact ⟨_, _, ‹_›, rfl, ‹_›, rfl⟩⟩
      rintro ⟨bytes, items, hcount, rfl, hitems, rfl⟩
      exact .array hcount hitems
  | object =>
    cases h with
    | nothing => exact (Takes.fail .tooDeep).congr fun e v => ⟨False.elim, fun h => by cases h⟩
    | values hr =>
      refine (takes_counted (takes_pairs hr)).congr fun e v => ⟨?_, fun h => ?_⟩
      · rintro ⟨bytes, pairs, hcount, rfl, hpairs, rfl⟩
        exact .object hcount hpairs (Members.gathers_iff.2 rfl)
      · cases h with
        | object hcount hpairs hgathers =>
          exact ⟨_, _, hcount, rfl, hpairs, congrArg Value.object (Members.gathers_iff.1 hgathers)⟩

/-- A tag and what follows it. -/
theorem takes_tagged {child : Option (Reader Value)} (h : Holds child levels) :
    Takes (do readPayload child (← readKind)) (Layout levels) := by
  refine (takes_readKind.bind fun kind => takes_readPayload h kind).congr fun e v => ?_
  rw [layout_iff]
  constructor
  · rintro ⟨_, payload, kind, rfl, rfl, hpayload⟩
    exact ⟨kind, payload, rfl, hpayload⟩
  · rintro ⟨kind, payload, rfl, hpayload⟩
    exact ⟨_, payload, kind, rfl, rfl, hpayload⟩

end Readers

/-- Reading takes exactly the layouts of values that nest no deeper than allowed. -/
theorem takes_readValue (levels : Nat) : Takes (readValue levels) (Layout levels) := by
  induction levels with
  | zero => exact takes_tagged .nothing
  | succ levels ih => exact takes_tagged (.values ih)

/-- A value is read off the front exactly where a layout of it is in front, and what follows is left. -/
theorem decode_eq_ok_iff (bytes rest : List UInt8) (v : Value) :
    decode bytes = (.ok v, rest) ↔ ∃ layout, bytes = layout ++ rest ∧ Layout defaultMaxDepth layout v :=
  takes_readValue defaultMaxDepth bytes v rest

end TableJson.Wire
