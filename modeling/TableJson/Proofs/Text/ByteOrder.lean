import Mathlib.Tactic.SplitIfs
import TableJson.Utf8
import TableJson.Value.Members

/-!
# Byte order — UTF-8 keeps the order of characters

Names are ordered by code point.  Their bytes, compared one by one, stand in the same order (`encode_lt_iff`): the
bytes of a smaller character are smaller at the first place where they differ, whatever follows
(`encodeChar_append_lt`).
-/

namespace TableJson

namespace Utf8

theorem ofNat_cons_lt {m n : Nat} (hm : m < 256) (hn : n < 256) {xs ys : List UInt8} :
    UInt8.ofNat m :: xs < UInt8.ofNat n :: ys ↔ m < n ∨ m = n ∧ xs < ys := by
  have hm' : (UInt8.ofNat m).toNat = m := UInt8.toNat_ofNat_of_lt hm
  have hn' : (UInt8.ofNat n).toNat = n := UInt8.toNat_ofNat_of_lt hn
  rw [List.cons_lt_cons_iff, UInt8.lt_iff_toNat_lt, ← UInt8.toNat_inj, hm', hn']

/-- The bytes of two characters differ in the order of the characters, before the shorter ones end. -/
theorem encodeChar_append_lt {c d : Char} (h : c < d) (xs ys : List UInt8) :
    String.utf8EncodeChar c ++ xs < String.utf8EncodeChar d ++ ys := by
  have hlt : c.val.toNat < d.val.toNat := h
  have hd : d.val.toNat < 0x110000 := by
    have := d.valid
    simp only [UInt32.isValidChar, Nat.isValidChar] at this
    omega
  unfold String.utf8EncodeChar
  dsimp only
  generalize c.val.toNat = m at *
  generalize d.val.toNat = n at *
  -- to base 64 the smaller number is smaller in its leading digits, or in the last one where those agree
  have htop (k : Nat) (hk : k < 0x110000) : k / 262144 % 8 = k / 262144 := by omega
  have htopm := htop m (by omega)
  have htopn := htop n hd
  have hlast : m / 64 < n / 64 ∨ m / 64 = n / 64 ∧ m % 64 < n % 64 := by omega
  have hmiddle : m / 64 ≤ n / 64 →
      m / 4096 < n / 4096 ∨ m / 4096 = n / 4096 ∧ m / 64 % 64 ≤ n / 64 % 64 := by omega
  have hfirst : m / 4096 ≤ n / 4096 →
      m / 262144 < n / 262144 ∨ m / 262144 = n / 262144 ∧ m / 4096 % 64 ≤ n / 4096 % 64 := by omega
  split_ifs
  all_goals simp (disch := omega) only [List.cons_append, List.nil_append, ofNat_cons_lt]
  all_goals omega

theorem encode_lt_encode {cs ds : List Char} (h : cs < ds) : encode cs < encode ds := by
  induction cs generalizing ds with
  | nil =>
    cases ds with
    | nil => exact absurd h (List.not_lt_nil _)
    | cons d ds =>
      obtain ⟨b, bs, hb⟩ := List.exists_cons_of_ne_nil (String.utf8EncodeChar_ne_nil (c := d))
      rw [encode_nil, encode_cons, hb, List.cons_append]
      exact List.nil_lt_cons b (bs ++ encode ds)
  | cons c cs ih =>
    cases ds with
    | nil => exact absurd h (List.not_lt_nil _)
    | cons d ds =>
      rw [encode_cons, encode_cons]
      rcases List.cons_lt_cons_iff.1 h with hcd | ⟨rfl, hcsds⟩
      · exact encodeChar_append_lt hcd (encode cs) (encode ds)
      · exact List.append_left_lt (ih hcsds)

/-- The order of texts by code point is the order of their bytes. -/
theorem encode_lt_iff (s t : String) : encode s.toList < encode t.toList ↔ s < t := by
  constructor
  · intro h
    by_cases hst : s < t
    · exact hst
    · by_cases hts : t < s
      · exact absurd h (List.lt_asymm (encode_lt_encode hts))
      · obtain rfl : s = t := Std.Trichotomous.trichotomous (r := fun x y : String => x < y) s t hst hts
        exact absurd h (List.lt_irrefl _)
  · intro h
    exact encode_lt_encode h

end Utf8

/-- Ordered members have names whose bytes increase. -/
theorem Members.ordered_iff_pairwise (ms : Members) :
    Ordered ms ↔ ms.Pairwise fun p q => Utf8.encode p.1.toList < Utf8.encode q.1.toList := by
  induction ms with
  | nil => simp [Ordered]
  | cons p ms ih =>
    obtain ⟨k, v⟩ := p
    rw [Ordered, List.pairwise_cons, ih]
    simp only [Utf8.encode_lt_iff]

end TableJson
