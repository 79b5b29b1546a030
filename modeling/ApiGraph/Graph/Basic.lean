import ApiGraph.Graph.Node

/-!
# Type graphs

The table of nodes, and the growth of it by whole declarations.

* `Graph.node`, `Graph.alloc`, `Graph.update` — look up, add and change a node;
* `Graph.ownerName?` — the nearest name on the way up from a node;
* `Graph.plant` — adds the nodes of a declaration;
* `Graph.propertiesOf`, `Graph.oneOfVariant`, `Graph.isCompound`, `Graph.selectionTarget` — what a
  node stands for once references, arrays and choices are unwrapped.

Walks along links are bounded by the number of nodes: a longer one has come back to where it was.
-/

namespace ApiGraph

/-- A table of nodes. -/
structure Graph where
  nodes : Array Node := #[]
deriving Inhabited, Repr

namespace Graph

/-- The number of nodes. -/
def size (g : Graph) : Nat := g.nodes.size

/-- The node at a place; a bare one where there is none. -/
def node (g : Graph) (i : NodeId) : Node := g.nodes.getD i.index { body := .bare }

/-- Adds a node at the next place. -/
def alloc (g : Graph) (n : Node) : NodeId × Graph := (⟨g.size⟩, { nodes := g.nodes.push n })

/-- Changes the node at a place. -/
def update (g : Graph) (i : NodeId) (f : Node → Node) : Graph :=
  { nodes := g.nodes.modify i.index f }

@[simp] theorem size_alloc (g : Graph) (n : Node) : (g.alloc n).2.size = g.size + 1 := by
  simp [alloc, size]

@[simp] theorem size_update (g : Graph) (i : NodeId) (f : Node → Node) :
    (g.update i f).size = g.size := by
  simp [update, size]

/-- A new node is at the place it was given. -/
@[simp] theorem node_alloc_self (g : Graph) (n : Node) : (g.alloc n).2.node (g.alloc n).1 = n := by
  simp [alloc, node, size]

/-- A new node changes none of the old ones. -/
theorem node_alloc_of_lt (g : Graph) (n : Node) {i : NodeId} (h : i.index < g.size) :
    (g.alloc n).2.node i = g.node i := by
  simp only [size] at h
  simp [alloc, node, Array.getD, h, Nat.lt_succ_of_lt h, Array.getElem_push_lt h]

/-- A change shows at its place. -/
theorem node_update_self (g : Graph) {i : NodeId} (h : i.index < g.size) (f : Node → Node) :
    (g.update i f).node i = f (g.node i) := by
  simp only [size] at h
  simp [update, node, Array.getD, h, Array.getElem_modify_self]

/-- A change shows at no other place. -/
theorem node_update_of_ne (g : Graph) {i j : NodeId} (h : j ≠ i) (f : Node → Node) :
    (g.update i f).node j = g.node j := by
  have hne : i.index ≠ j.index := fun he => h (by cases i; cases j; simp_all)
  by_cases hj : j.index < g.nodes.size
  · simp [update, node, Array.getD, hj, Array.getElem_modify_of_ne hne]
  · simp [update, node, Array.getD, hj]

/-! ## Names on the way up -/

/-- The first name on the way up, within a number of steps. -/
def ownerNameWithin (g : Graph) : Nat → Option NodeId → Option Json
  | 0, _ => none
  | _ + 1, none => none
  | steps + 1, some i =>
    let n := g.node i
    if n.name.isNull then ownerNameWithin g steps n.parent else some n.name

/-- The nearest name from a node upwards. -/
def ownerName? (g : Graph) (i : Option NodeId) : Option Json := g.ownerNameWithin (g.size + 1) i

/-- Where a declaration made for a node lies, in words. -/
def owner (g : Graph) (i : Option NodeId) : String :=
  match g.ownerName? i with
  | some name => name.display
  | none => "[root]"

/-- A node without a name, in words. -/
def inlineOwner (g : Graph) (i : NodeId) : String :=
  match g.ownerName? (g.node i).parent with
  | some name => "[inline in " ++ name.display ++ "]"
  | none => "[inline]"

/-! ## Growth -/

mutual

/-- Adds the nodes of a declaration made for a parent. -/
def plant (parent : Option NodeId) (g : Graph) : Schema → NodeId × Graph
  | .ref target => g.alloc { body := .ref ⟨target, none⟩, parent := parent }
  | .composed kind members => g.alloc { body := .composed kind (some members), parent := parent }
  | .scalar type => g.alloc { body := .scalar type, parent := parent }
  | .array items =>
    let (i, g) := g.alloc { body := .array none, parent := parent }
    let (item, g) := plant (some i) g items
    (i, g.update i fun n => { n with body := .array (some item), children := [some item] })
  | .object properties =>
    let (i, g) := g.alloc { body := .object, parent := parent }
    (i, plantEach i g properties)

/-- Adds the nodes of one property made for a parent. -/
def plantProperty (parent : Option NodeId) (g : Graph) : PropertyOf Schema → NodeId × Graph
  | ⟨name, required, declaration, .ref target⟩ =>
    g.alloc
      { body := .property ⟨.bool required, declaration, none⟩ [] (some ⟨target, none⟩)
        name := .str name
        parent := parent }
  | ⟨name, required, declaration, type⟩ =>
    let slot : Slot := ⟨.bool required, declaration, none⟩
    let (i, g) := g.alloc { body := .property slot [] none, name := .str name, parent := parent }
    let (t, g) := plant (some i) g type
    (i, g.update i fun n =>
      { n with body := .property { slot with type := some t } [] none, children := [some t] })

/-- Adds the properties of an object one by one. -/
def plantEach (object : NodeId) (g : Graph) : List (PropertyOf Schema) → Graph
  | [] => g
  | p :: rest =>
    let (i, g) := plantProperty (some object) g p
    plantEach object (g.update object fun n => n.putProperty (.text p.name) i) rest

end

/-! ## What a node stands for -/

/-- The properties that a node brings into a composition, within a number of references. -/
def propertiesWithin (g : Graph) : Nat → NodeId → Attempt (OrderedMap Key NodeId)
  | 0, _ => .error .endless
  | steps + 1, i =>
    let n := g.node i
    match n.body with
    | .ref ⟨_, some target⟩ => propertiesWithin g steps target
    | .object => .ok n.props
    | .composed _ _ => .ok n.props
    | _ => .ok []

/-- The properties that a node brings into a composition: those of an object or a composition, and
those of what a resolved reference leads to. -/
def propertiesOf (g : Graph) (i : NodeId) : Attempt (OrderedMap Key NodeId) :=
  g.propertiesWithin (g.size + 1) i

/-- The kept shape of a union. -/
def unionVariant (g : Graph) (i : NodeId) : Attempt (Option NodeId) :=
  let n := g.node i
  match n.body with
  | .union _ => n.firstChild
  | _ => .error .malformed

/-- The union below a composition. -/
def unionOf (g : Graph) (i : NodeId) : Attempt (Option NodeId) :=
  let n := g.node i
  match n.body with
  | .composed _ _ => n.firstChild
  | _ => .error .malformed

/-- The kept shape of a composition by `oneOf`. -/
def oneOfVariant (g : Graph) (i : NodeId) : Attempt (Option NodeId) := do
  g.unionVariant (← expect (← g.unionOf i))

/-- Whether a value needs a selection of its own, within a number of steps. -/
def isCompoundWithin (g : Graph) : Nat → Option NodeId → Attempt Bool
  | 0, _ => .error .endless
  | _ + 1, none => .ok false
  | steps + 1, some i =>
    let n := g.node i
    match n.body with
    | .array items => isCompoundWithin g steps items
    | .ref link => isCompoundWithin g steps link.target
    | .union _ => do isCompoundWithin g steps (← g.unionVariant i)
    | .composed .oneOf _ => do isCompoundWithin g steps (← g.oneOfVariant i)
    | .composed .allOf _ => .ok !n.props.isEmpty
    | .object => .ok !n.props.isEmpty
    | _ => .ok false

/-- Whether a value of the type needs a selection of its own: whether it is an object or a
composition with properties, once references, arrays and choices are unwrapped. -/
def isCompound (g : Graph) (i : Option NodeId) : Attempt Bool :=
  g.isCompoundWithin (g.size + 2) i

/-- The target of a selection, within a number of steps. -/
def selectionTargetWithin (g : Graph) : Nat → Option NodeId → Attempt (Option NodeId)
  | 0, _ => .error .endless
  | _ + 1, none => .ok none
  | steps + 1, some i =>
    match (g.node i).body with
    | .array items => selectionTargetWithin g steps items
    | .ref link => selectionTargetWithin g steps link.target
    | .union _ => do selectionTargetWithin g steps (← g.unionVariant i)
    | _ => .ok (some i)

/-- The node that the selection of a value enters: what is left once arrays, references and unions
are unwrapped. -/
def selectionTarget (g : Graph) (i : Option NodeId) : Attempt (Option NodeId) :=
  g.selectionTargetWithin (g.size + 2) i

end Graph

end ApiGraph
