import ApiGraph.Graph.Basic

/-!
# Nodes in words

How nodes are written in messages and questions, and what identifies them by structure.

* `Graph.literal` — a node with its fields; a node inside itself is an ellipsis;
* `Graph.describe` — a property with its type, as in questions;
* `Graph.identity`, `Graph.dependencies` — the structural identity of a visited node, and the nodes
  that its output speaks of.
-/

namespace ApiGraph.Graph

/-! ## Literals -/

/-- A truth value in a literal. -/
def boolLiteral (b : Bool) : String := (Json.bool b).literal

/-- A node with its fields; `around` holds the nodes whose literals are being written. -/
def literalWithin (g : Graph) (around : List NodeId) : Nat → NodeId → String
  | 0, _ => "..."
  | steps + 1, i =>
    if i ∈ around then "..."
    else
      let n := g.node i
      let inner : Option NodeId → String := fun
        | some j => literalWithin g (i :: around) steps j
        | none => "None"
      let slotFields : Slot → String := fun slot =>
        ", required=" ++ slot.required.literal ++ ", default_value=" ++ slot.default.literal ++
          ", type_node=" ++ inner slot.type
      let fields :=
        match n.body with
        | .bare | .object | .union _ => ""
        | .scalar type =>
          ", type_name=" ++ (match type with
            | some p => Text.literal p.word
            | none => "None")
        | .array items => ", items=" ++ inner items
        | .composed .allOf _ => ", kind=<ComposedKind.ALL_OF: 'allOf'>"
        | .composed .oneOf _ => ", kind=<ComposedKind.ONE_OF: 'oneOf'>"
        | .ref link => ", ref=" ++ link.ref.literal ++ ", target=" ++ inner link.target
        | .property slot _ none => slotFields slot
        | .property slot _ (some link) =>
          slotFields slot ++ ", ref=" ++ link.ref.literal ++ ", ref_type=" ++ inner link.target
        | .parameter slot => slotFields slot
      n.body.kindName ++ "(name=" ++ n.name.literal ++ ", visited=" ++ boolLiteral n.visited ++
        fields ++ ")"

/-- A node with its fields. -/
def literal (g : Graph) (i : NodeId) : String := g.literalWithin [] (g.size + 1) i

/-- A node with its fields, if there is one. -/
def literalOf (g : Graph) : Option NodeId → String
  | some i => g.literal i
  | none => "None"

/-! ## Questions -/

/-- The type of a property in words: where a reference leads by name, the word for a single value,
and the kind of node otherwise. -/
def typeWord (g : Graph) (type : Option NodeId) : Attempt String :=
  match type with
  | none => .ok "nonetype"
  | some i =>
    match (g.node i).body with
    | .ref link =>
      match link.ref with
      | .str ref => .ok (typeName ref)
      | _ => .error .malformed
    | .scalar (some p) => .ok p.word
    | body => .ok (String.ofList (body.kindName.toList.map small))

/-- A property with its type. -/
def describe (g : Graph) (i : NodeId) : Attempt String :=
  let n := g.node i
  match n.body with
  | .property _ _ (some link) =>
    match link.ref with
    | .str ref => .ok (n.name.display ++ ": " ++ typeName ref)
    | _ => .error .malformed
  | .property slot _ none => do
    let word ← g.typeWord slot.type
    pure (n.name.display ++ ": " ++ word)
  | _ => .error .malformed

/-! ## Identity -/

/-- The names of properties with a separator between them; all have to be texts. -/
def joinNames (separator : String) (props : OrderedMap Key NodeId) : Attempt String := do
  let names ← props.mapM fun
    | (.text s, _) => .ok s
    | _ => .error .malformed
  pure (separator.intercalate names)

/-- The structural identity of a node, within a depth. -/
def identityWithin (g : Graph) : Nat → NodeId → Attempt String
  | 0, _ => .error .endless
  | steps + 1, i =>
    let n := g.node i
    if !n.visited then .error (.notVisited (g.literal i) .identity)
    else
      let below : Option NodeId → Attempt String := fun j => do identityWithin g steps (← expect j)
      match n.body with
      | .bare => .error .malformed
      | .scalar type => .ok ("scalar:" ++ (type.map Primitive.word).getD "json")
      | .object =>
        if n.name.truthy then .ok ("obj://" ++ n.name.display)
        else do
          let names ← joinNames "," n.props
          pure ("obj:inline://\x7b" ++ names ++ "\x7d")
      | .array items => do
        let inner ← below items
        pure ("array:" ++ inner)
      | .union _ => do
        let parts ← n.children.mapM below
        pure ("union://" ++ " + ".intercalate parts)
      | .composed kind _ => do
        let parts ← n.children.mapM below
        let head := match kind with
          | .allOf => "comp:all-of://"
          | .oneOf => "comp:one-of://"
        pure (head ++ " + ".intercalate parts)
      | .ref link => .ok ("ref:" ++ link.ref.display)
      | .property _ _ none => .ok ("prop:" ++ n.name.display)
      | .property _ _ (some link) => .ok ("prop:ref:" ++ link.ref.display)
      | .parameter _ => .ok ("param:" ++ n.name.display)

/-- The structural identity of a node, which has to be visited with everything it speaks of. -/
def identity (g : Graph) (i : NodeId) : Attempt String := g.identityWithin (g.size + 1) i

/-! ## Dependencies -/

/-- The nodes that the output of a node speaks of, within a depth. -/
def dependenciesWithin (g : Graph) : Nat → NodeId → Attempt (List (Option NodeId))
  | 0, _ => .error .endless
  | steps + 1, i =>
    let n := g.node i
    if !n.visited then .error (.notVisited (g.literal i) .dependencies)
    else
      match n.body with
      | .bare | .scalar _ => .ok []
      | .object | .composed .allOf _ => do
        let found ← (OrderedMap.values n.props).mapM (dependenciesWithin g steps)
        pure found.flatten
      | .array items => .ok [items]
      | .union _ | .composed .oneOf _ => .ok n.children
      | .ref link => .ok [link.target]
      | .property _ _ _ => .ok [n.valueType?]
      | .parameter slot => .ok [slot.type]

/-- The nodes that the output of a node speaks of; a missing one is kept as missing. The node has
to be visited. -/
def dependencies (g : Graph) (i : NodeId) : Attempt (List (Option NodeId)) :=
  g.dependenciesWithin (g.size + 1) i

end ApiGraph.Graph
