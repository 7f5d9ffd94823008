import TableJson.Proofs.Wire.Reader

/-!
# Stability — more bytes change nothing that was settled

`Stable r` says that an answer of `r`, and every failure but the end of the bytes, stays what it is when bytes follow,
and that these bytes are left over with the others.  A reader looks at no byte before it knows that the byte is there,
so every reader of the library is stable (`stable_readValue`).

Cut short, the bytes of a value are therefore reported as such, wherever the cut is (`decode_stable`).
-/

namespace TableJson.Wire

/-- What `r` makes of some bytes it makes of them with more bytes behind, unless it came to their end. -/
def Stable {β : Type} (r : Reader β) : Prop :=
  ∀ bytes extra answer rest, r bytes = (answer, rest) → answer ≠ .error .unexpectedEnd →
    r (bytes ++ extra) = (answer, rest ++ extra)

namespace Stable

variable {β γ : Type} {r : Reader β}

theorem pure (b : β) : Stable (Pure.pure b : Reader β) := by
  intro bytes extra answer rest h _
  obtain ⟨rfl, rfl⟩ := Prod.mk.inj h
  rfl

theorem fail (error : DecodeError) : Stable (Reader.fail error : Reader β) := by
  intro bytes extra answer rest h _
  obtain ⟨rfl, rfl⟩ := Prod.mk.inj h
  rfl

theorem bind {next : β → Reader γ} (hr : Stable r) (hnext : ∀ b, Stable (next b)) : Stable (r >>= next) := by
  intro bytes extra answer rest h hanswer
  change Reader.bind r next bytes = _ at h
  change Reader.bind r next (bytes ++ extra) = _
  rcases hbytes : r bytes with ⟨error | b, middle⟩
  · -- the first reader fails, and the whole with the same failure
    rw [Reader.bind, hbytes] at h
    obtain ⟨rfl, rfl⟩ := Prod.mk.inj h
    have herror : (.error error : Except DecodeError β) ≠ .error .unexpectedEnd := by
      intro he
      exact hanswer (congrArg _ (Except.error.inj he))
    rw [Reader.bind, hr bytes extra _ _ hbytes herror]
  · rw [Reader.bind, hbytes] at h
    rw [Reader.bind, hr bytes extra _ _ hbytes (by simp)]
    exact hnext b middle extra answer rest h hanswer

theorem map {f : β → γ} (hr : Stable r) : Stable (do return f (← r)) := hr.bind fun b => pure (f b)

theorem times (hr : Stable r) (n : Nat) : Stable (r.times n) := by
  induction n with
  | zero => exact pure []
  | succ n ih => exact hr.bind fun b => ih.map

end Stable

/-! ## The readers -/

/-- Bytes are taken only where all of them are there. -/
theorem stable_take (n : Nat) : Stable (Reader.take n) := by
  intro bytes extra answer rest h hanswer
  unfold Reader.take at h ⊢
  dsimp only at h ⊢
  by_cases hn : n ≤ bytes.length
  · rw [if_pos (List.length_take_of_le hn)] at h
    obtain ⟨rfl, rfl⟩ := Prod.mk.inj h
    have hlength : ((bytes ++ extra).take n).length = n := by
      rw [List.length_take, List.length_append]
      omega
    rw [if_pos hlength, List.take_append_of_le_length hn, List.drop_append_of_le_length hn]
  · have hlength : (bytes.take n).length ≠ n := by
      rw [List.length_take]
      omega
    rw [if_neg hlength] at h
    obtain ⟨rfl, -⟩ := Prod.mk.inj h
    exact absurd rfl hanswer

theorem stable_readNat (n : Nat) : Stable (readNat n) := (stable_take n).map

theorem stable_readText : Stable readText := by
  refine (stable_readNat 4).bind fun length => (stable_take length).bind fun bytes => ?_
  split
  · exact .pure _
  · exact .fail _

theorem stable_readBool : Stable readBool := by
  refine (stable_readNat 1).bind fun byte => ?_
  split
  · exact .pure false
  · exact .pure true
  · exact .fail _

theorem stable_readKind : Stable readKind := by
  refine (stable_readNat 1).bind fun tag => ?_
  split
  · exact .pure _
  · exact .fail _

section Values

variable {r : Reader Value}

theorem stable_readMember (hr : Stable r) : Stable (readMember r) := stable_readText.bind fun _ => hr.map

theorem stable_readPayload {child : Option (Reader Value)} (hchild : ∀ r, child = some r → Stable r) (kind : Kind) :
    Stable (readPayload child kind) := by
  cases kind with
  | null => exact .pure _
  | boolean => exact stable_readBool.map
  | integer => exact (stable_readNat 8).map
  | uinteger => exact (stable_readNat 8).map
  | real => exact (stable_readNat 8).map
  | string => exact stable_readText.map
  | array =>
    cases child with
    | none => exact .fail .tooDeep
    | some r => exact (stable_readNat 4).bind fun n => ((hchild r rfl).times n).map
  | object =>
    cases child with
    | none => exact .fail .tooDeep
    | some r => exact (stable_readNat 4).bind fun n => ((stable_readMember (hchild r rfl)).times n).map

end Values

theorem stable_readValue (levels : Nat) : Stable (readValue levels) := by
  induction levels with
  | zero => exact stable_readKind.bind fun kind => stable_readPayload (by simp) kind
  | succ levels ih =>
    refine stable_readKind.bind fun kind => stable_readPayload ?_ kind
    intro r hr
    obtain rfl := Option.some.inj hr
    exact ih

/-! ## Bytes cut short -/

/-- Where a value takes all bytes, fewer of them are read to their end without an answer. -/
theorem unexpectedEnd_of_cut {v : Value} {front extra : List UInt8} (h : decode (front ++ extra) = (.ok v, []))
    (hextra : extra ≠ []) : (decode front).1 = .error .unexpectedEnd := by
  rcases hfront : decode front with ⟨answer, rest⟩
  by_contra hanswer
  have hwhole : decode (front ++ extra) = (answer, rest ++ extra) :=
    stable_readValue _ front extra answer rest hfront hanswer
  rw [h] at hwhole
  have hrest := (Prod.mk.inj hwhole).2
  exact hextra (List.append_eq_nil_iff.1 hrest.symm).2

theorem decodeAll_of_error {bytes : List UInt8} {error : DecodeError} (h : (decode bytes).1 = .error error) :
    decodeAll bytes = .error error := by
  rcases hbytes : decode bytes with ⟨answer, rest⟩
  rw [hbytes] at h
  subst h
  rw [decodeAll, hbytes]

/-- With more bytes behind, a value is read as before and leaves them, and a failure other than the end of the bytes
is the same; so where a value takes all bytes, each shorter front of them ends too early and fails in no other way. -/
theorem decode_stable :
    (∀ bytes extra v rest, decode bytes = (.ok v, rest) → decode (bytes ++ extra) = (.ok v, rest ++ extra)) ∧
      (∀ bytes extra error, (decode bytes).1 = .error error → error ≠ .unexpectedEnd →
        (decode (bytes ++ extra)).1 = .error error) ∧
      ∀ bytes v, decode bytes = (.ok v, []) → ∀ front, front <+: bytes → front ≠ bytes →
        (decode front).1 = .error .unexpectedEnd ∧ decodeAll front = .error .unexpectedEnd := by
  refine ⟨?_, ?_, ?_⟩
  · intro bytes extra v rest h
    exact stable_readValue _ bytes extra _ rest h (by simp)
  · intro bytes extra error h herror
    rcases hbytes : decode bytes with ⟨answer, rest⟩
    rw [hbytes] at h
    subst h
    have hanswer : (.error error : Except DecodeError Value) ≠ .error .unexpectedEnd := by
      intro he
      exact herror (Except.error.inj he)
    have hmore : decode (bytes ++ extra) = (.error error, rest ++ extra) :=
      stable_readValue _ bytes extra _ rest hbytes hanswer
    rw [hmore]
  · intro bytes v h front hfront hne
    obtain ⟨extra, rfl⟩ := hfront
    have hextra : extra ≠ [] := by
      intro he
      exact hne (by rw [he, List.append_nil])
    have hend := unexpectedEnd_of_cut h hextra
    exact ⟨hend, decodeAll_of_error hend⟩

/-- An array of one string with a byte behind it, a bad boolean in an array, and a string without its last byte. -/
theorem decode_stable_array :
    decode ([6, 0, 0, 0, 1, 5, 0, 0, 0, 1, 97] ++ [7]) = (.ok (.array [.string "a"]), [7]) ∧
      (decode ([6, 0, 0, 0, 2, 1, 2] ++ [0])).1 = .error (.invalidBoolean 2) ∧
      decodeAll [6, 0, 0, 0, 1, 5, 0, 0, 0, 1] = .error .unexpectedEnd := by
  obtain ⟨hok, herror, hcut⟩ := decode_stable
  have hread : decode [6, 0, 0, 0, 1, 5, 0, 0, 0, 1, 97] = (.ok (.array [.string "a"]), []) := by rfl
  have hrefused : (decode [6, 0, 0, 0, 2, 1, 2]).1 = .error (.invalidBoolean 2) := by rfl
  refine ⟨hok _ [7] _ _ hread, herror _ [0] _ hrefused (by decide), ?_⟩
  exact (hcut _ _ hread [6, 0, 0, 0, 1, 5, 0, 0, 0, 1] ⟨[97], rfl⟩ (by decide)).2

end TableJson.Wire
