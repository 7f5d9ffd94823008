import TableJson.Convert

/-!
# Values of other things

`ToValue β` makes a value of a `β`.  A signed integer becomes a signed one even where it is not negative; what may be
missing becomes null if it is.
-/

namespace TableJson

open Number

/-- Things that have a value. -/
class ToValue (β : Type) where
  toValue : β → Value

export ToValue (toValue)

instance : ToValue Value := ⟨id⟩

instance : ToValue Bool := ⟨.boolean⟩

instance (w : IntWidth) : ToValue (SizedInt w) :=
  ⟨fun i => if w.signed then .integer (.ofInt i.val) else .uinteger (.ofNat i.val.toNat)⟩

instance : ToValue Binary32 := ⟨fun x => .real x.convert⟩

instance : ToValue Binary64 := ⟨.real⟩

instance : ToValue String := ⟨.string⟩

instance {β : Type} [ToValue β] : ToValue (Option β) :=
  ⟨fun o => match o with
    | some b => toValue b
    | none => .null⟩

instance : ToValue (List Value) := ⟨.array⟩

/-- Of several members with one name the last stays. -/
instance : ToValue Members := ⟨fun members => .object (Members.ofList members)⟩

end TableJson
