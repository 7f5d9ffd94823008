import TableJson.Proofs.Value.RoundTrip
import TableJson.Proofs.Value.Unsigned
import TableJson.Token.Emit
import TableJson.Token.Offer

/-!
# Replay — what is emitted for a value, offered again

A source that replays tokens offers what they describe: a scalar as what it is, a container as all that comes between
its start and its end (`Token.offer?`).  The tokens of a value make one offer (`gather_tokens`), and it gives the value
with its integers unsigned where they are not negative (`value_offer`).  That is what the text of the value reads as,
too (`replay_tokens`).
-/

namespace TableJson

/-! ## Tokens as offers -/

/-- A container that has begun, and what was offered in it so far. -/
structure Offer.Begun where
  kind : ContainerKind
  held : List Offer := []

/-- What a container offers. -/
def Offer.Begun.offer : Offer.Begun → Offer
  | ⟨.array, held⟩ => .sequence held
  | ⟨.object, held⟩ => .mapping held

namespace Token

/-- What tokens have made so far: the offers outside all containers, and the containers that have begun, innermost
first. -/
structure Gathered where
  offers : List Offer := []
  begun : List Offer.Begun := []

namespace Gathered

/-- Puts an offer where the next one goes. -/
def put (g : Gathered) (o : Offer) : Gathered :=
  match g.begun with
  | [] => { g with offers := g.offers ++ [o] }
  | top :: rest => { g with begun := { top with held := top.held ++ [o] } :: rest }

/-- Begins a container. -/
def start (g : Gathered) (kind : ContainerKind) : Gathered := { g with begun := { kind } :: g.begun }

/-- Takes a token. -/
def take (g : Gathered) : Token → Option Gathered
  | .unit => some (g.put .unit)
  | .boolean b => some (g.put (.boolean b))
  | .signed n => some (g.put (.signed n))
  | .unsigned n => some (g.put (.unsigned n))
  | .real x => some (g.put (.real x))
  | .text s => some (g.put (.text s))
  | .sequence _ => some (g.start .array)
  | .mapping _ => some (g.start .object)
  | .close =>
    match g.begun with
    | [] => none
    | top :: rest => some ({ g with begun := rest }.put top.offer)

/-- The one offer that was made, if all containers have come to their end. -/
def offer? : Gathered → Option Offer
  | ⟨[o], []⟩ => some o
  | _ => none

end Gathered

/-- The offer that tokens describe. -/
def offer? (ts : List Token) : Option Offer := (ts.foldlM Gathered.take {}).bind Gathered.offer?

/-- What the tokens give when they are offered. -/
def replay (ts : List Token) : Option (Except OfferError Value) := (offer? ts).map Offer.value

end Token

/-! ## The tokens of a value -/

namespace Value

mutual

/-- What is offered for a value. -/
def offer : Value → Offer
  | null => .unit
  | boolean b => .boolean b
  | integer n => .signed n
  | uinteger n => .unsigned n
  | real x => .real x
  | string s => .text s
  | array items => .sequence (itemOffers items)
  | object members => .mapping (memberOffers members)

/-- What is offered for items. -/
def itemOffers : List Value → List Offer
  | [] => []
  | v :: vs => offer v :: itemOffers vs

/-- What is offered for members, names and values by turns. -/
def memberOffers : List (String × Value) → List Offer
  | [] => []
  | (name, v) :: ms => .text name :: offer v :: memberOffers ms

end

end Value

namespace Token

open Value

/-- Offers in a container stay there until its end. -/
theorem foldl_put_start (os held : List Offer) (kind : ContainerKind) (g : Gathered) :
    os.foldl Gathered.put { g with begun := ⟨kind, held⟩ :: g.begun } =
      { g with begun := ⟨kind, held ++ os⟩ :: g.begun } := by
  induction os generalizing held with
  | nil => rw [List.foldl_nil, List.append_nil]
  | cons o os ih =>
    rw [List.foldl_cons, List.append_cons held o os, ← ih]
    rfl

/-- A container is offered at its end. -/
theorem gather_container {ts : List Token} {os : List Offer} (kind : ContainerKind) (g : Gathered)
    (h : ts.foldlM Gathered.take (g.start kind) = some (os.foldl Gathered.put (g.start kind))) :
    (ts ++ [close]).foldlM Gathered.take (g.start kind) = some (g.put (Offer.Begun.offer ⟨kind, os⟩)) := by
  rw [List.foldlM_append, h, Gathered.start, foldl_put_start]
  rfl

mutual

/-- The tokens of a value make its offer, wherever it goes. -/
theorem gather_tokens : ∀ (v : Value) (g : Gathered), v.tokens.foldlM Gathered.take g = some (g.put v.offer)
  | .null, _ => rfl
  | .boolean _, _ => rfl
  | .integer _, _ => rfl
  | .uinteger _, _ => rfl
  | .real _, _ => rfl
  | .string _, _ => rfl
  | .array items, g => by
    rw [tokens, List.foldlM_cons]
    exact gather_container .array g (gather_items items (g.start .array))
  | .object members, g => by
    rw [tokens, List.foldlM_cons]
    exact gather_container .object g (gather_members members (g.start .object))

theorem gather_items : ∀ (vs : List Value) (g : Gathered),
    (itemTokens vs).foldlM Gathered.take g = some ((itemOffers vs).foldl Gathered.put g)
  | [], _ => rfl
  | v :: vs, g => by
    rw [itemTokens, List.foldlM_append, gather_tokens v]
    exact gather_items vs (g.put v.offer)

theorem gather_members : ∀ (ms : List (String × Value)) (g : Gathered),
    (memberTokens ms).foldlM Gathered.take g = some ((memberOffers ms).foldl Gathered.put g)
  | [], _ => rfl
  | (name, v) :: ms, g => by
    rw [memberTokens, List.foldlM_cons]
    change (v.tokens ++ memberTokens ms).foldlM Gathered.take (g.put (.text name)) = _
    rw [List.foldlM_append, gather_tokens v]
    exact gather_members ms ((g.put (.text name)).put v.offer)

end

theorem offer?_tokens (v : Value) : offer? v.tokens = some v.offer := by
  rw [offer?, gather_tokens v]
  rfl

end Token

/-! ## What is taken -/

theorem toUInt64_of_nonneg {n : Int64} (h : 0 ≤ n.toInt) : n.toUInt64 = .ofNat n.toInt.toNat := by
  have hbits : n.toInt = n.toBitVec.toInt := rfl
  have hword : n.toUInt64.toNat = n.toBitVec.toNat := rfl
  have hcond := n.toBitVec.toInt_eq_toNat_cond
  have hlt := n.toBitVec.isLt
  rw [← UInt64.toNat_inj, UInt64.toNat_ofNat', hword]
  split at hcond <;> omega

namespace Value

mutual

/-- What is offered for a value gives the value with its integers unsigned where they are not negative. -/
theorem value_offer : ∀ v : Value, v.WellFormed → v.offer.value = .ok v.unsigned
  | .null, _ => rfl
  | .boolean _, _ => rfl
  | .integer n, _ => by
    have hle : 0 ≤ n ↔ 0 ≤ n.toInt := Int64.le_iff_toInt_le
    rw [offer, Offer.value, unsigned]
    by_cases h : 0 ≤ n.toInt
    · rw [if_pos (hle.2 h), if_pos h, toUInt64_of_nonneg h]
    · rw [if_neg (mt hle.1 h), if_neg h]
  | .uinteger _, _ => rfl
  | .real _, _ => rfl
  | .string _, _ => rfl
  | .array items, h => by
    rw [offer, Offer.value, values_offers items h]
    rfl
  | .object members, h => by
    have hordered : Members.Ordered (unsignedMembers members) :=
      (Members.ordered_congr (map_fst_unsignedMembers members)).2 h.1
    have hgathered : (unsignedMembers members).foldl (fun ms p => Members.insert p.1 p.2 ms) [] =
        unsignedMembers members := Members.ofList_of_ordered hordered
    rw [offer, Offer.value, valuesByName_offers members [] h.2, hgathered]
    rfl

theorem values_offers : ∀ items : List Value, WellFormedItems items →
    Offer.values (itemOffers items) = .ok (unsignedItems items)
  | [], _ => rfl
  | v :: vs, h => by
    rw [itemOffers, Offer.values, value_offer v h.1, values_offers vs h.2]
    rfl

/-- Of members with one name the last would stay. -/
theorem valuesByName_offers : ∀ (members done : Members), WellFormedMembers members →
    Offer.valuesByName (memberOffers members) done =
      .ok ((unsignedMembers members).foldl (fun ms p => Members.insert p.1 p.2 ms) done)
  | [], _, _ => rfl
  | (name, v) :: ms, done, h => by
    rw [memberOffers, Offer.valuesByName, value_offer v h.1]
    exact valuesByName_offers ms (Members.insert name v.unsigned done) h.2

end

theorem replay_of_wellFormed {v : Value} (hv : v.WellFormed) : Token.replay v.tokens = some (.ok v.unsigned) := by
  rw [Token.replay, Token.offer?_tokens, Option.map_some, value_offer v hv]

/-- Replaying the tokens of a value gives the value with its integers unsigned where they are not negative, and
replaying the tokens of that gives it again.  Where all reals are finite it is also what the text of the value reads
as, if containers may be nested as deep as they are in the value. -/
theorem replay_tokens (v : OrderedValue) :
    Token.replay v.val.tokens = some (.ok v.val.unsigned) ∧
    Token.replay v.val.unsigned.tokens = some (.ok v.val.unsigned) ∧
    ∀ options : Options, v.val.RealsFinite → v.val.nesting ≤ options.maxDepth →
      Value.read options v.val.compact = .ok v.val.unsigned := by
  refine ⟨replay_of_wellFormed v.wellFormed, ?_, ?_⟩
  · rw [replay_of_wellFormed (wellFormed_unsigned v.val v.wellFormed), unsigned_unsigned]
  · intro options hreals hnesting
    rw [Text.compact_eq, read_spell options _ v.wellFormed hnesting, norm_eq_unsigned v.val hreals]

/-- A zero loses its sign, a negative integer keeps it, and so does a zero that is real. -/
theorem replay_tokens_signs :
    let v := object [("a", array [integer 0, integer (-1)]), ("b", real (.signed true 0))]
    let w := object [("a", array [uinteger 0, integer (-1)]), ("b", real (.signed true 0))]
    Token.replay v.tokens = some (.ok w) ∧ Token.replay w.tokens = some (.ok w) ∧
      Value.read {} v.compact = .ok w := by
  intro v w
  have hv : v.WellFormed := by
    refine ⟨⟨?_, ?_, trivial⟩, ⟨trivial, trivial, trivial⟩, trivial, trivial⟩
    · simp only [List.mem_singleton, forall_eq]
      decide
    · exact fun p hp => absurd hp List.not_mem_nil
  have hunsigned : v.unsigned = w := by rfl
  have hreal : (Number.Binary.signed true 0 : Number.Binary64).isFinite = true := by decide
  obtain ⟨hreplay, hagain, hread⟩ := replay_tokens ⟨v, hv⟩
  rw [hunsigned] at hreplay hagain hread
  refine ⟨hreplay, hagain, hread {} ⟨⟨trivial, trivial, trivial⟩, hreal, trivial⟩ ?_⟩
  show v.nesting ≤ 128
  decide

end Value

end TableJson
