import ApiGraph.Graph.Basic
import ApiGraph.Number.Whole

/-!
# Paths to nodes

Nodes are addressed from outside by handles and ways from there: `handle>step>step`, where a step
is `.name` for a property, `#n` for a child, `@n` for an argument, or the word for a link.

* `PathStep`, `NodePath` — a step and a path;
* `NodePath.parse` — the path that a text describes;
* `Graph.follow` — the node that a step leads to.
-/

namespace ApiGraph

/-- A step from one node to another. -/
inductive PathStep where
  | property (name : String)
  | child (position : Int)
  | argument (position : Int)
  | type
  | items
  | target
  | union
  | variant
  | parent
  /-- A text that describes no step. -/
  | unknown
deriving DecidableEq, Inhabited, Repr

namespace PathStep

/-- The step that a text describes. -/
def parse (s : String) : PathStep :=
  match s.toList with
  | '.' :: name => .property (String.ofList name)
  | '#' :: position => ((Whole.read? (String.ofList position)).map .child).getD .unknown
  | '@' :: position => ((Whole.read? (String.ofList position)).map .argument).getD .unknown
  | _ =>
    if s = "type" then .type
    else if s = "items" then .items
    else if s = "target" then .target
    else if s = "union" then .union
    else if s = "variant" then .variant
    else if s = "parent" then .parent
    else .unknown

end PathStep

/-- A way to a node from a handle. -/
structure NodePath where
  handle : String
  steps : List PathStep
deriving DecidableEq, Inhabited, Repr

namespace NodePath

/-- The path that a text describes. -/
def parse (s : String) : NodePath :=
  match s.splitOn ">" with
  | handle :: steps => ⟨handle, steps.map PathStep.parse⟩
  | [] => ⟨s, []⟩

end NodePath

namespace Graph

/-- The item at a position of a list; negative positions count from the end. -/
def itemAt (items : List (Option NodeId)) (position : Int) : Attempt (Option NodeId) :=
  let n := if position < 0 then position + items.length else position
  if n < 0 then .error .malformed else expect items[n.toNat]?

/-- The node that a step leads to, if there is one. A step that the kind of node does not have is a
fault. -/
def follow (g : Graph) (i : NodeId) (step : PathStep) : Attempt (Option NodeId) :=
  let n := g.node i
  match step, n.body with
  | .property name, _ => (expect (OrderedMap.get? (.text name) n.props)).map some
  | .child position, _ => itemAt n.children position
  | .argument position, .property _ arguments _ => itemAt arguments position
  | .type, .property _ _ _ => .ok n.valueType?
  | .type, _ => expect n.type?
  | .items, .array items => .ok items
  | .target, .ref link => .ok link.target
  | .union, .composed _ _ => g.unionOf i
  | .variant, .union _ => g.unionVariant i
  | .parent, _ => .ok n.parent
  | _, _ => .error .malformed

end Graph

end ApiGraph
