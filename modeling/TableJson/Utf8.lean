/-!
# UTF-8 — characters at the head of a byte list

* `encode cs` is the spelling of `cs` in bytes.
* `next? bs` reads one character off the head of `bs`; where no well-formed sequence starts there is none, so
  overlong forms, surrogates and cut-off sequences are never read.
* `next?_eq_some_iff`: reading a character takes back exactly what spelling it puts in front.
* `decode?_eq_some_iff`: bytes read as `cs` exactly if they are the spelling of `cs`.
-/

namespace TableJson.Utf8

/-- The bytes that spell `cs`. -/
def encode (cs : List Char) : List UInt8 := cs.flatMap String.utf8EncodeChar

/-- The character at the head of `bs`, with the bytes after it. -/
def next? (bs : List UInt8) : Option (Char × List UInt8) :=
  ((bs.take 4).toByteArray.utf8DecodeChar? 0).map fun c => (c, bs.drop c.utf8Size)

/-- All of `bs` as characters, if it is well formed throughout. -/
def decode? (bs : List UInt8) : Option (List Char) :=
  (String.fromUTF8? bs.toByteArray).map String.toList

/-! ## Spelling -/

@[simp] theorem encode_nil : encode [] = [] := rfl

@[simp] theorem encode_cons (c : Char) (cs : List Char) :
    encode (c :: cs) = String.utf8EncodeChar c ++ encode cs := rfl

@[simp] theorem encode_append (cs ds : List Char) : encode (cs ++ ds) = encode cs ++ encode ds := by
  simp [encode]

theorem toByteArray_encode (cs : List Char) : (encode cs).toByteArray = cs.utf8Encode := rfl

/-! ## Reading one character -/

theorem take_encodeChar_append (c : Char) (bs : List UInt8) :
    (String.utf8EncodeChar c ++ bs).take 4 = String.utf8EncodeChar c ++ bs.take (4 - c.utf8Size) := by
  have h : c.utf8Size ≤ 4 := c.utf8Size_le_four
  rw [List.take_append, String.length_utf8EncodeChar, List.take_of_length_le]
  rwa [String.length_utf8EncodeChar]

/-- Reading takes back the character that was put in front. -/
theorem next?_encode_cons (c : Char) (bs : List UInt8) :
    next? (String.utf8EncodeChar c ++ bs) = some (c, bs) := by
  unfold next?
  rw [take_encodeChar_append, List.toByteArray_append, ByteArray.utf8DecodeChar?_utf8EncodeChar_append]
  rw [Option.map_some, List.drop_left' (String.length_utf8EncodeChar c)]

/-- What is read is what stands in front. -/
theorem eq_of_next? {bs rest : List UInt8} {c : Char} (h : next? bs = some (c, rest)) :
    bs = String.utf8EncodeChar c ++ rest := by
  unfold next? at h
  obtain ⟨d, hd, he⟩ := Option.map_eq_some_iff.1 h
  obtain ⟨rfl, rfl⟩ := Prod.mk.inj he
  obtain ⟨tail, ht⟩ := ByteArray.exists_of_utf8DecodeChar?_eq_some hd
  have hl : bs.take 4 = String.utf8EncodeChar d ++ tail.data.toList := by
    have := congrArg (fun b : ByteArray => b.data.toList) ht
    simpa using this
  have hp : bs.take d.utf8Size = String.utf8EncodeChar d := by
    have := congrArg (List.take d.utf8Size) hl
    rwa [List.take_take, Nat.min_eq_left d.utf8Size_le_four, List.take_left' (String.length_utf8EncodeChar d)] at this
  rw [← hp, List.take_append_drop]

/-- There is a character to read exactly where one has been spelled. -/
theorem next?_eq_some_iff {bs rest : List UInt8} {c : Char} :
    next? bs = some (c, rest) ↔ bs = String.utf8EncodeChar c ++ rest :=
  ⟨eq_of_next?, fun h => h ▸ next?_encode_cons c rest⟩

@[simp] theorem next?_nil : next? [] = none := by
  cases h : next? [] with
  | none => rfl
  | some p =>
    have := @eq_of_next? [] p.2 p.1 h
    simp at this

/-! ## Reading everything -/

theorem toByteArray_injective {bs ds : List UInt8} (h : bs.toByteArray = ds.toByteArray) : bs = ds := by
  have := congrArg (fun b : ByteArray => b.data.toList) h
  simpa using this

theorem fromUTF8?_eq_some_iff {b : ByteArray} {s : String} : String.fromUTF8? b = some s ↔ s.toByteArray = b := by
  unfold String.fromUTF8?
  constructor
  · intro h
    split at h
    · exact (Option.some.inj h) ▸ rfl
    · simp at h
  · rintro rfl
    rw [dif_pos s.isValidUTF8]
    rfl

/-- Well-formed bytes are the spelling of what they read as, and of nothing else. -/
theorem decode?_eq_some_iff {bs : List UInt8} {cs : List Char} : decode? bs = some cs ↔ bs = encode cs := by
  unfold decode?
  rw [Option.map_eq_some_iff]
  constructor
  · rintro ⟨s, hs, rfl⟩
    apply toByteArray_injective
    rw [toByteArray_encode, String.utf8Encode_toList, fromUTF8?_eq_some_iff.1 hs]
  · rintro rfl
    refine ⟨String.ofList cs, fromUTF8?_eq_some_iff.2 ?_, String.toList_ofList⟩
    rw [String.toByteArray_ofList, toByteArray_encode]

end TableJson.Utf8
