/-!
# Places of nodes

Nodes refer to one another by their places in the graph, so that a graph may have cycles, and two
nodes are the same exactly when they have the same place.

* `NodeId` — the place of a node.
-/

namespace ApiGraph

/-- The place of a node in its graph. -/
structure NodeId where
  index : Nat
deriving DecidableEq, Inhabited, Repr

end ApiGraph
