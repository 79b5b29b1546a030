import ApiGraph.Definitions.Basic
import ApiGraph.Graph.Basic

/-!
# Nodes as values

A node with what is below it, written as a JSON value.

* `Graph.label` — a node by its kind and name;
* `Graph.dump` — a node down to a depth. A node that was met before is only named by the number of
  nodes met before it.
-/

namespace ApiGraph.Graph

/-- A node by its kind and name. -/
def label (g : Graph) (i : NodeId) : String :=
  let n := g.node i
  n.body.kindName ++ ":" ++ n.nameOr ""

/-- The label of a node, null if there is none. -/
def labelOf (g : Graph) : Option NodeId → Json
  | some i => .str (g.label i)
  | none => .null

/-- Labels of nodes. -/
def labels (g : Graph) (nodes : List (Option NodeId)) : Json := .arr (nodes.map g.labelOf)

/-- What a slot says besides its type. -/
def slotFields (slot : Slot) : Json.Members :=
  [("required", slot.required),
    ("default", match defaultText? slot.default with
      | some text => .str text
      | none => .null)]

/-- What a node says by itself. -/
def ownFields (n : Node) : Json.Members :=
  [("kind", .str n.body.kindName), ("name", n.name), ("visited", .bool n.visited)] ++
    match n.body with
    | .scalar type => [("type_name", match type with
      | some p => .str p.word
      | none => .null)]
    | .composed kind _ => [("composed", .str kind.word)]
    | .ref link => [("ref", link.ref)]
    | .property slot _ none => slotFields slot
    | .property slot _ (some link) => ("ref", link.ref) :: slotFields slot
    | .parameter slot => slotFields slot
    | _ => []

/-- The links of a node that come before its properties and children, by name: single nodes and
lists of nodes. -/
def linkFields (n : Node) : List (String × (Option NodeId ⊕ List (Option NodeId))) :=
  match n.body with
  | .property slot arguments none => [("type", .inl slot.type), ("arguments", .inr arguments)]
  | .property _ arguments (some link) =>
    [("ref_type", .inl link.target), ("arguments", .inr arguments)]
  | .parameter slot => [("type", .inl slot.type)]
  | .array items => [("items", .inl items)]
  | .ref link => [("target", .inl link.target)]
  | _ => []

/-- How a node below is written, given the nodes met so far. -/
abbrev Dumper := Option NodeId → StateM (List NodeId) Json

/-- Writes a node that has not been met before, given how the nodes below are written. -/
def dumpBelow (below : Dumper) (n : Node) : StateM (List NodeId) Json := do
  let links ← (linkFields n).mapM fun
    | (name, .inl target) => do return (name, ← below target)
    | (name, .inr targets) => do
      return (name, Json.arr (← targets.mapM below))
  let props ← n.props.mapM fun (key, i) => do return Json.arr [key.toJson, ← below (some i)]
  let children ← n.children.mapM below
  let propFields := if props.isEmpty then [] else [("props", Json.arr props)]
  return .obj (ownFields n ++ links ++ propFields ++ [("children", .arr children)])

/-- Writes a node, or its number if it was met before, and otherwise notes that it is met. -/
def dumpOnce (g : Graph) (write : Node → StateM (List NodeId) Json) : Dumper
  | none => return .null
  | some i => do
    let met ← get
    match met.idxOf? i with
    | some k => return .obj [("seen", .int k)]
    | none =>
      set (met ++ [i])
      write (g.node i)

/-- Writes a node down to a depth. At the last depth only the number of children is written. -/
def dumpWithin (g : Graph) : Nat → Dumper
  | 0 => dumpOnce g fun n =>
    return .obj (ownFields n ++ [("children", .int n.children.length)])
  | depth + 1 => dumpOnce g (dumpBelow (dumpWithin g depth))

/-- A node down to a depth. -/
def dump (g : Graph) (depth : Nat) (i : Option NodeId) : Json := (dumpWithin g depth i []).1

end ApiGraph.Graph
