import ApiGraph.Run

/-!
# Building nodes

New nodes for declarations, not yet visited.

* `Build.fromSchema` — a node for a schema;
* `Build.fromProperty` — a property with its type;
* `Build.fromParameter` — an argument of an operation with its type;
* `Build.fromUnion` — a choice between shapes.
-/

namespace ApiGraph.Build

/-- The declaration that a value stands for, in the place of a node. -/
def readUnder (owner : Option NodeId) (schema : Json) : Run Schema :=
  Run.onGraph fun g => Schema.read (g.owner owner) schema

/-- A node for a schema. -/
def fromSchema (parent : Option NodeId) (schema : Json) : Run NodeId := do
  let declaration ← readUnder parent schema
  let i ← Run.plant parent declaration
  Run.say (.planted parent schema i)
  return i

/-- Gives a node a type that is read under its name, and makes the type its child. -/
def fillSlot (i : NodeId) (schema : Json) (body : NodeId → Body) : Run Unit := do
  let type ← fromSchema (some i) schema
  Run.update i fun n => { n with body := body type, children := [some type] }

/-- A property with its type. The type may be a reference. -/
def fromProperty (parent : Option NodeId) (name schema required : Json) : Run NodeId := do
  let slot : Slot := ⟨required, schema, none⟩
  match schema.get? "$ref" with
  | some ref =>
    Run.alloc { body := .property slot [] (some ⟨ref, none⟩), name := name, parent := parent }
  | none =>
    let i ← Run.alloc { body := .property slot [] none, name := name, parent := parent }
    fillSlot i schema fun type => .property { slot with type := some type } [] none
    return i

/-- An argument of an operation with its type. -/
def fromParameter (parent : Option NodeId) (name schema required : Json) : Run NodeId := do
  let _ ← Run.lift (expect schema.members?)
  let slot : Slot := ⟨required, schema, none⟩
  let i ← Run.alloc { body := .parameter slot, name := name, parent := parent }
  fillSlot i schema fun type => .parameter { slot with type := some type }
  return i

/-- A choice between shapes, whose declarations are read when it is visited. -/
def fromUnion (parent : Option NodeId) (members : Json) : Run NodeId := do
  let shapes ← Run.lift members.elements
  Run.alloc { body := .union shapes, parent := parent }

end ApiGraph.Build
