import TableJson.Proofs.Builder.Attaching

/-!
# Building — the value of a tree from its events

The events of a tree tell of its value, and those of the entries of a container of their values (`Tree.tells`,
`Body.tells`).  So the builder takes every event of a tree, and puts its value where a value may be put
(`Tree.builds`).
-/

namespace TableJson.Grammar

/-- A container holds the values of its entries. -/
theorem collect_values {kind : ContainerKind} (opening closing : Around) (body : Body kind) :
    kind.collect body.values = (Tree.container kind opening body closing).value := by
  cases kind with
  | array => rw [ContainerKind.collect, Tree.value]
  | object => rw [ContainerKind.collect, Tree.value]

mutual

/-- The events of a tree tell of its value. -/
theorem Tree.tells : ∀ (t : Tree) (name : String), Tells (t.events name) [(name, t.value)]
  | .null, name => .scalar name .null .nil
  | .boolean b, name => .scalar name (.boolean b) .nil
  | .number l, name => .scalar name l.scalar .nil
  | .string q, name => .scalar name (.string q.value) .nil
  | .container kind opening body closing, name => by
    have h := Tells.single kind kind name name (Body.tells body)
    rwa [collect_values opening closing body] at h

/-- The events of entries tell of their values one after another. -/
theorem Body.tells : ∀ {kind : ContainerKind} (body : Body kind), Tells body.events body.values
  | _, .empty _ => .nil
  | _, .entries label first rest => (Tree.tells first label.name).append (Rest.tells rest)

theorem Rest.tells : ∀ {kind : ContainerKind} (rest : Rest kind), Tells rest.events rest.values
  | _, .nil _ => .nil
  | _, .cons _ label entry rest => (Tree.tells entry label.name).append (Rest.tells rest)

end

/-- The builder takes the events of a tree, and puts the value of the tree where a value may be put. -/
theorem Tree.builds (t : Tree) (b : Builder) (name : String) (h : Open b) :
    Builder.consumer.feed (t.events name) (.ok b) = (.ok (b.attach name t.value).1, true) :=
  Builder.feed_of_tells (t.tells name) (Builder.hasRoom_of_open h name t.value)

end TableJson.Grammar
