import Mathlib.Data.List.Induction
import TableJson.Wire.Decode
import TableJson.Wire.Encode

/-!
# Readers — what a reader takes off the front

A reader is described by the spellings it knows: `Takes r P` says that `r` answers `b` exactly where some `e` with
`P e b` stands in front, and that it leaves what follows `e`.  Readers that are put together take what their parts take
one after another (`Takes.bind`, `Takes.times`).

* `takes_readNat`: a number is spelled in big-endian order, and every spelling of the right length is one.
* `takes_readText`: a text is spelled with its length in front.
-/

namespace TableJson.Wire

/-- `r` answers `b` exactly where a spelling of `b` by `P` is in front, and leaves what follows it. -/
def Takes {β : Type} (r : Reader β) (P : List UInt8 → β → Prop) : Prop :=
  ∀ bytes b rest, r bytes = (.ok b, rest) ↔ ∃ e, bytes = e ++ rest ∧ P e b

namespace Takes

variable {β γ : Type} {r : Reader β} {P Q : List UInt8 → β → Prop}

theorem congr (h : Takes r P) (hPQ : ∀ e b, P e b ↔ Q e b) : Takes r Q := by
  intro bytes b rest
  simp only [h bytes b rest, hPQ]

/-- What is spelled in front is taken. -/
theorem read (h : Takes r P) {e : List UInt8} {b : β} (he : P e b) (rest : List UInt8) :
    r (e ++ rest) = (.ok b, rest) :=
  (h _ _ _).2 ⟨e, rfl, he⟩

/-- Of the same bytes the same spelling is taken. -/
theorem unique (h : Takes r P) {e e' rest rest' : List UInt8} {b b' : β} (he : P e b) (he' : P e' b')
    (heq : e ++ rest = e' ++ rest') : e = e' ∧ b = b' ∧ rest = rest' := by
  have hread := h.read he rest
  rw [heq, h.read he' rest'] at hread
  obtain ⟨hb, rfl⟩ := Prod.mk.inj hread
  exact ⟨List.append_cancel_right heq, (Except.ok.inj hb).symm, rfl⟩

theorem functional (h : Takes r P) {e : List UInt8} {b b' : β} (he : P e b) (he' : P e b') : b = b' :=
  (h.unique he he' (rfl : e ++ [] = e ++ [])).2.1

theorem pure (b : β) : Takes (Pure.pure b : Reader β) fun e b' => e = [] ∧ b' = b := by
  intro bytes b' rest
  change (Except.ok b, bytes) = (Except.ok b', rest) ↔ _
  constructor
  · intro h
    obtain ⟨hb, rfl⟩ := Prod.mk.inj h
    exact ⟨[], rfl, rfl, (Except.ok.inj hb).symm⟩
  · rintro ⟨_, rfl, rfl, rfl⟩
    rfl

theorem fail (error : DecodeError) : Takes (Reader.fail error : Reader β) fun _ _ => False := by
  intro bytes b rest
  change (Except.error error, bytes) = (Except.ok b, rest) ↔ _
  simp

theorem bind {next : β → Reader γ} {R : β → List UInt8 → γ → Prop} (hr : Takes r P)
    (hnext : ∀ b, Takes (next b) (R b)) :
    Takes (r >>= next) fun e c => ∃ e₁ e₂ b, e = e₁ ++ e₂ ∧ P e₁ b ∧ R b e₂ c := by
  intro bytes c rest
  change Reader.bind r next bytes = (Except.ok c, rest) ↔ _
  unfold Reader.bind
  constructor
  · intro h
    rcases hbytes : r bytes with ⟨error | b, middle⟩
    · simp [hbytes] at h
    · rw [hbytes] at h
      obtain ⟨e₁, rfl, h₁⟩ := (hr _ _ _).1 hbytes
      obtain ⟨e₂, rfl, h₂⟩ := (hnext b _ _ _).1 h
      exact ⟨e₁ ++ e₂, (List.append_assoc ..).symm, e₁, e₂, b, rfl, h₁, h₂⟩
  · rintro ⟨_, rfl, e₁, e₂, b, rfl, h₁, h₂⟩
    rw [List.append_assoc, hr.read h₁]
    exact (hnext b).read h₂ rest

/-- An answer that is put into another form. -/
theorem map {f : β → γ} (hr : Takes r P) :
    Takes (do return f (← r)) fun e c => ∃ b, P e b ∧ c = f b := by
  refine (hr.bind fun b => pure (f b)).congr fun e c => ?_
  constructor
  · rintro ⟨e₁, _, b, rfl, h, rfl, rfl⟩
    exact ⟨b, by rwa [List.append_nil], rfl⟩
  · rintro ⟨b, h, rfl⟩
    exact ⟨e, [], b, (List.append_nil e).symm, h, rfl, rfl⟩

/-- Answers one after another, where `R` spells several of them. -/
theorem times {R : List UInt8 → List β → Prop} (hr : Takes r P) (hnil : ∀ e, R e [] ↔ e = [])
    (hcons : ∀ e b bs, R e (b :: bs) ↔ ∃ e₁ e₂, e = e₁ ++ e₂ ∧ P e₁ b ∧ R e₂ bs) (n : Nat) :
    Takes (r.times n) fun e bs => bs.length = n ∧ R e bs := by
  induction n with
  | zero =>
    refine (pure []).congr fun e bs => ?_
    constructor
    · rintro ⟨rfl, rfl⟩
      exact ⟨rfl, (hnil []).2 rfl⟩
    · rintro ⟨hlength, h⟩
      obtain rfl := List.eq_nil_of_length_eq_zero hlength
      exact ⟨(hnil e).1 h, rfl⟩
  | succ n ih =>
    refine (hr.bind fun b => ih.map (f := fun bs => b :: bs)).congr fun e bs => ?_
    constructor
    · rintro ⟨e₁, e₂, b, rfl, h₁, bs, ⟨rfl, h₂⟩, rfl⟩
      exact ⟨rfl, (hcons _ _ _).2 ⟨e₁, e₂, rfl, h₁, h₂⟩⟩
    · rintro ⟨hlength, h⟩
      cases bs with
      | nil => simp at hlength
      | cons b bs =>
        obtain ⟨e₁, e₂, rfl, h₁, h₂⟩ := (hcons _ _ _).1 h
        exact ⟨e₁, e₂, b, rfl, h₁, bs, ⟨Nat.succ.inj hlength, h₂⟩, rfl⟩

end Takes

/-- Exactly so many bytes. -/
theorem takes_take (n : Nat) : Takes (Reader.take n) fun e bytes => e.length = n ∧ bytes = e := by
  intro bytes taken rest
  unfold Reader.take
  dsimp only
  constructor
  · intro h
    split at h
    · rename_i hlength
      obtain ⟨htaken, rfl⟩ := Prod.mk.inj h
      obtain rfl := Except.ok.inj htaken
      exact ⟨bytes.take n, (List.take_append_drop n bytes).symm, hlength, rfl⟩
    · simp at h
  · rintro ⟨e, rfl, rfl, rfl⟩
    rw [List.take_left, List.drop_left, if_pos rfl]

/-! ## Numbers -/

section Numbers

variable (count n : Nat) (bytes : List UInt8)

@[simp] theorem length_bigEndian : (bigEndian count n).length = count := by
  induction count generalizing n with
  | zero => rfl
  | succ count ih => rw [bigEndian, List.length_append, ih, List.length_singleton]

theorem ofBigEndian_concat (b : UInt8) : ofBigEndian (bytes ++ [b]) = 256 * ofBigEndian bytes + b.toNat := by
  rw [ofBigEndian, List.foldl_append]
  rfl

theorem ofBigEndian_bigEndian : ofBigEndian (bigEndian count n) = n % 256 ^ count := by
  induction count generalizing n with
  | zero => rw [Nat.pow_zero, Nat.mod_one]; rfl
  | succ count ih =>
    have hbyte : (UInt8.ofNat (n % 256)).toNat = n % 256 := UInt8.toNat_ofNat_of_lt (Nat.mod_lt _ (by decide))
    rw [bigEndian, ofBigEndian_concat, ih, hbyte, Nat.pow_succ', Nat.mod_mul, Nat.add_comm]

theorem ofBigEndian_lt : ofBigEndian bytes < 256 ^ bytes.length := by
  induction bytes using List.reverseRecOn with
  | nil => decide
  | append_singleton bytes b ih =>
    have := b.toNat_lt
    rw [ofBigEndian_concat, List.length_append, List.length_singleton, Nat.pow_succ]
    omega

theorem bigEndian_ofBigEndian : bigEndian bytes.length (ofBigEndian bytes) = bytes := by
  induction bytes using List.reverseRecOn with
  | nil => rfl
  | append_singleton bytes b ih =>
    have := b.toNat_lt
    rw [List.length_append, List.length_singleton, bigEndian, ofBigEndian_concat,
      show (256 * ofBigEndian bytes + b.toNat) / 256 = ofBigEndian bytes by omega,
      show (256 * ofBigEndian bytes + b.toNat) % 256 = b.toNat by omega, ih, UInt8.ofNat_toNat]

end Numbers

/-- A number below `256 ^ n` in `n` bytes. -/
theorem takes_readNat (n : Nat) : Takes (readNat n) fun e x => x < 256 ^ n ∧ e = bigEndian n x := by
  refine (takes_take n).map.congr fun e x => ?_
  constructor
  · rintro ⟨bytes, ⟨rfl, rfl⟩, rfl⟩
    exact ⟨ofBigEndian_lt bytes, (bigEndian_ofBigEndian bytes).symm⟩
  · rintro ⟨hx, rfl⟩
    exact ⟨_, ⟨length_bigEndian n x, rfl⟩, by rw [ofBigEndian_bigEndian, Nat.mod_eq_of_lt hx]⟩

/-! ## Texts, booleans and tags -/

/-- A text in UTF-8 with its length in four bytes before it. -/
def Spelled (bytes : List UInt8) (text : String) : Prop :=
  (Utf8.encode text.toList).length < 2 ^ (32 : Nat) ∧
    bytes = bigEndian 4 (Utf8.encode text.toList).length ++ Utf8.encode text.toList

theorem takes_readText : Takes readText Spelled := by
  unfold readText
  refine ((takes_readNat 4).bind fun n => (takes_take n).bind
    (R := fun bytes e text => e = [] ∧ bytes = Utf8.encode text.toList) fun bytes => ?decoded).congr fun e text => ?whole
  case decoded =>
    cases hbytes : Utf8.decode? bytes with
    | some cs =>
      obtain rfl := Utf8.decode?_eq_some_iff.1 hbytes
      refine (Takes.pure _).congr fun e text => and_congr_right fun _ => ?_
      constructor
      · rintro rfl
        rw [String.toList_ofList]
      · intro h
        rw [Utf8.decode?_eq_some_iff.2 h] at hbytes
        rw [← Option.some.inj hbytes, String.ofList_toList]
    | none =>
      refine (Takes.fail _).congr fun e text => ?_
      simp only [false_iff, not_and]
      rintro - rfl
      rw [Utf8.decode?_eq_some_iff.2 rfl] at hbytes
      simp at hbytes
  case whole =>
    constructor
    · rintro ⟨_, _, n, rfl, ⟨hn, rfl⟩, e, _, bytes, rfl, ⟨rfl, rfl⟩, rfl, rfl⟩
      exact ⟨hn, by rw [List.append_nil]⟩
    · rintro ⟨hlength, rfl⟩
      exact ⟨_, _, _, rfl, ⟨hlength, rfl⟩, _, [], _, (List.append_nil _).symm, ⟨rfl, rfl⟩, rfl, rfl⟩

theorem takes_readBool : Takes readBool fun e b => e = [if b then 1 else 0] := by
  unfold readBool
  refine ((takes_readNat 1).bind (R := fun n e b => e = [] ∧ n = if b then 1 else 0) fun n => ?byte).congr
    fun e b => ?whole
  case byte =>
    rcases n with _ | _ | n
    · exact (Takes.pure false).congr fun e b => by cases b <;> simp
    · exact (Takes.pure true).congr fun e b => by cases b <;> simp
    · exact (Takes.fail _).congr fun e b => by cases b <;> simp
  case whole =>
    constructor
    · rintro ⟨_, _, n, rfl, ⟨-, rfl⟩, rfl, rfl⟩
      cases b <;> rfl
    · rintro rfl
      exact ⟨_, [], if b then 1 else 0, (List.append_nil _).symm, by cases b <;> decide, rfl, rfl⟩

theorem ofTag?_eq_some_iff (n : Nat) (kind : Kind) : Kind.ofTag? n = some kind ↔ n = kind.tag := by
  constructor
  · intro h
    have htag := List.find?_some h
    exact (beq_iff_eq.1 htag).symm
  · rintro rfl
    cases kind <;> rfl

theorem takes_readKind : Takes readKind fun e kind => e = [tagByte kind] := by
  unfold readKind
  refine ((takes_readNat 1).bind (R := fun n e kind => e = [] ∧ n = kind.tag) fun n => ?tag).congr fun e kind => ?whole
  case tag =>
    cases hn : Kind.ofTag? n with
    | some kind =>
      obtain rfl := (ofTag?_eq_some_iff n kind).1 hn
      refine (Takes.pure kind).congr fun e kind' => and_congr_right fun _ => ?_
      rw [← ofTag?_eq_some_iff, hn, Option.some.injEq, eq_comm]
    | none =>
      refine (Takes.fail _).congr fun e kind => ?_
      rw [← ofTag?_eq_some_iff, hn]
      simp
  case whole =>
    constructor
    · rintro ⟨_, _, n, rfl, ⟨-, rfl⟩, rfl, rfl⟩
      cases kind <;> rfl
    · rintro rfl
      exact ⟨_, [], kind.tag, (List.append_nil _).symm, by cases kind <;> decide, rfl, rfl⟩

end TableJson.Wire
