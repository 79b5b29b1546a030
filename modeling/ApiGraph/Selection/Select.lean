import ApiGraph.Selection.Basic
import ApiGraph.Run

/-!
# Selecting

The selection of a node is written from a visited graph. An object or composition that is entered
already is not entered again, and a field that leads back into one is left out, which ends cycles.

* `Draft`, `Selecting` — the lines so far, and computations on them;
* `Selecting.select` — the selection of a node;
* `Selecting.selectAll` — the selections of several nodes.

The walk is bounded: no object or composition is entered twice on a way, and at most one property lies
between two of them.
-/

namespace ApiGraph

/-- A selection that is being written: the state of the run and the lines so far. -/
structure SelectionDraft where
  context : Context
  lines : List SelectionLine := []
deriving Inhabited

/-- A computation on a selection. -/
abbrev Selecting := EStateM Fault SelectionDraft

namespace Selecting

/-- A step of the run. -/
def run {α : Type} (step : Run α) : Selecting α := fun d =>
  match step d.context with
  | .ok a c => .ok a { d with context := c }
  | .error fault c => .error fault { d with context := c }

/-- The value of an attempt. -/
def lift {α : Type} (a : Attempt α) : Selecting α := run (Run.lift a)

/-- The state of the run. -/
def context : Selecting Context := do return (← get).context

/-- Writes a line. -/
def write (line : SelectionLine) : Selecting Unit :=
  modify fun d => { d with lines := d.lines ++ [line] }

/-- A step inside a node, which is left again however the step ends. -/
def within {α : Type} (i : NodeId) (step : Selecting α) : Selecting α := fun d =>
  match step { d with context := d.context.enter i } with
  | .ok a d' => .ok a { d' with context := d'.context.leave }
  | .error fault d' => .error fault { d' with context := d'.context.leave }

/-- A node in a warning: its name, or what identifies it. -/
def mention (g : Graph) (i : NodeId) : Attempt String :=
  let n := g.node i
  if n.name.truthy then .ok n.name.display else g.identity i

/-- How nodes below are selected. -/
abbrev Selector := Option NodeId → Selecting Unit

/-- The name of a property in a selection. -/
def nameOf (n : Node) : Attempt String :=
  match n.name with
  | .str s => .ok (selectedName s)
  | _ => .error .malformed

/-- Selects a property. A compound one is left out when it leads back into a node that is entered
already. -/
def selectField (selectNode : Selector) (i : NodeId) (n : Node) : Selecting Unit := do
  let c ← context
  let indent := c.depth
  let value := n.valueType?
  if ← lift (c.graph.isCompound value) then
    match ← lift (c.graph.selectionTarget value) with
    | none => throw .malformed
    | some target =>
      if c.stack.contains target then
        let words ← lift (mention c.graph target)
        run (Run.log .warning .selection
          ("Possible recursion! Skipping field '" ++ n.name.display ++ "' of type " ++ words))
      else
        let name ← lift (nameOf n)
        write (.opening i indent name)
        selectNode value
        write (.closing i indent)
  else
    let name ← lift (nameOf n)
    write (.leaf i indent name)

/-- Selects the properties of an object or composition, or the union of a choice, inside the
node. -/
def selectMembers (selectNode : Selector) (i : NodeId) (n : Node) : Selecting Unit := do
  let c ← context
  if c.stack.contains i then
    let words ← lift (mention c.graph i)
    run (Run.log .warning .selection
      ("Possible recursion! Stack should not already contain " ++ words))
  else
    within i do
      let name := n.nameOr n.body.kindName
      run (Run.trace "-> [select]" ("in: " ++ name))
      match n.body with
      | .composed .oneOf _ => selectNode (← lift (c.graph.unionOf i))
      | _ => (OrderedMap.values n.props).forM fun prop => selectNode (some prop)
      run (Run.trace "<- [select]" ("out: " ++ name))

/-- The selection of a value, given how nodes below are selected. Arrays, references and unions are
selected as what they stand for. -/
def step (selectNode : Selector) (value : Option NodeId) : Selecting Unit := do
  let g := (← context).graph
  match ← lift (g.selectionTarget value) with
  | none => throw (.notSelectable "None")
  | some i =>
    let n := g.node i
    match n.body with
    | .property _ _ _ => selectField selectNode i n
    | .object | .composed _ _ => selectMembers selectNode i n
    | .bare => throw (.notSelectable (g.literal i))
    | _ => return

/-- Selections within a depth. -/
def selectWithin : Nat → Selector
  | 0, _ => throw .endless
  | depth + 1, value => step (selectWithin depth) value

/-- Writes the selection of a value. -/
def select (value : Option NodeId) : Selecting Unit := do
  selectWithin (2 * (← context).graph.size + 3) value

/-- Writes the selections of several nodes. -/
def selectAll (roots : List (Option NodeId)) : Selecting Unit := roots.forM select

end Selecting

end ApiGraph
