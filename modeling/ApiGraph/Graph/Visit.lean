import ApiGraph.Graph.Build

/-!
# Visiting

A node is visited by going through everything below it. References are resolved when they are met:
the declaration is built, stored under the reference, and only then visited, so that a cycle finds
the node that is in progress. Compositions gather the properties of their members, and the outermost
one asks which to keep.

* `Visit.resolve` — the node for a reference, built on first use;
* `Visit.collect`, `Visit.select` — the properties of the members of a composition, and those that
  are kept;
* `Visit.step` — one visit, given how the nodes below are visited;
* `Visit.visit` — visits of any depth.

The depth of visits is bounded: each reference is resolved at most once, and between two of them the
way goes down in one declaration.
-/

namespace ApiGraph.Visit

/-- How nodes below are visited. -/
abbrev Visitor := NodeId → Run Unit

/-! ## References -/

/-- The node for a reference: the stored one, or a new one that is stored and visited. -/
def resolve (d : Document) (visitNode : Visitor) (owner : Option NodeId) (ref : Json) :
    Run NodeId := do
  Run.say (.met ref)
  match ← Run.stored? ref with
  | some found =>
    Run.trace "   [ref]" ("cached: " ++ ref.display)
    return found
  | none =>
    Run.trace "-> [ref]" ("in: " ++ ref.display)
    Run.say (.lookedUp ref)
    let declaration ← Run.lift (d.lookupValue ref)
    let i ← Build.fromSchema owner (.obj declaration)
    Run.say (.built ref i)
    Run.update i fun n => { n with name := ref }
    let live ← Run.store ref i
    visitNode live
    Run.trace "<- [ref]" ("out: " ++ ref.display)
    return live

/-! ## Compositions by `allOf` -/

/-- Builds and visits the members one by one, gathering their properties: a later member takes over
a name in the place where it came first. -/
def collectFrom (visitNode : Visitor) (i : NodeId) (collected : OrderedMap Key NodeId) :
    List Json → Run (OrderedMap Key NodeId)
  | [] => return collected
  | schema :: rest => do
    let member ← Build.fromSchema (some i) schema
    visitNode member
    let props ← Run.onGraph fun g => g.propertiesOf member
    collectFrom visitNode i (OrderedMap.insertAll collected props) rest

/-- The properties of the members of an `allOf` declaration. -/
def collect (visitNode : Visitor) (i : NodeId) : Run (OrderedMap Key NodeId) := do
  let n ← Run.node i
  let members ← Run.lift (expect n.allOfMembers?)
  collectFrom visitNode i [] (← Run.lift members.elements)

/-- Asks about the candidates one by one and keeps those that are wanted. -/
def selectEach : List NodeId → Run (List NodeId)
  | [] => return []
  | i :: rest => do
    let words ← Run.onGraph fun g => g.describe i
    let wanted ← Run.askYesNo ("Add field '" ++ words ++ "'?")
    let others ← selectEach rest
    return if wanted then i :: others else others

/-- The question about all candidates of a composition at once. -/
def allQuestion (owner names : String) : String :=
  " -> Add all properties from " ++ owner ++ "?: \n - " ++ names ++ "\n"

/-- The candidates that the oracle wants: all of them, none, or those it chooses one by one. -/
def select (i : NodeId) (candidates : OrderedMap Key NodeId) : Run (List NodeId) := do
  if candidates.isEmpty then return []
  let names ← Run.lift (Graph.joinNames ",\n - " candidates)
  let c ← get
  let owner := (c.graph.node i).nameOr (c.graph.inlineOwner i)
  match ← Run.ask ⟨.yesNoSubset, allQuestion owner names⟩ with
  | .yes => return OrderedMap.values candidates
  | .subset => selectEach (OrderedMap.values candidates)
  | .no => return []

/-- Stores a composition under its name, if it has one. -/
def storeNamed (i : NodeId) : Run Unit := do
  let n ← Run.node i
  unless n.name.isNull do
    let _ ← Run.store n.name i

/-- Gathers the properties of an `allOf`. Inside another composition all are kept. -/
def visitAllOf (visitNode : Visitor) (i : NodeId) : Run Unit := do
  let collected ← collect visitNode i
  let kept ←
    if (← get).inComposition i then pure (OrderedMap.values collected) else select i collected
  kept.forM (Run.put i)
  storeNamed i

/-! ## Choices by `oneOf` -/

/-- Visits a composition by `oneOf`: the union of its members becomes its child. -/
def visitOneOf (visitNode : Visitor) (i : NodeId) (members : Option Json) : Run Unit := do
  let declared ← Run.lift (expect members)
  let union ← Build.fromUnion (some i) declared
  Run.update i fun n => n.addChild union
  visitNode union
  storeNamed i

/-- Builds and visits the shapes of a union one by one; the first is kept. -/
def visitShapes (visitNode : Visitor) (i : NodeId) (position : Nat) : List Json → Run Unit
  | [] => return
  | schema :: rest => do
    let member ← Build.fromSchema (some i) schema
    visitNode member
    if position = 0 then Run.update i fun n => n.addChild member
    else Run.trace "   [union]" ("dropping variant " ++ toString position)
    visitShapes visitNode i (position + 1) rest

/-! ## One visit -/

/-- Visits the properties of an object. -/
def visitObject (visitNode : Visitor) (n : Node) : Run Unit := do
  let name := n.nameOr "[object]"
  Run.trace "-> [object]" ("in: " ++ name)
  (OrderedMap.values n.props).forM visitNode
  Run.trace "<- [object]" ("out: " ++ name)

/-- Visits a composition. -/
def visitComposed (visitNode : Visitor) (i : NodeId) (n : Node) (kind : Composition)
    (members : Option Json) : Run Unit := do
  let name := n.nameOr "[object]"
  Run.trace "-> [composed]" ("in: " ++ name)
  let c ← get
  unless c.inComposition i do
    Run.log .info .visit ("In composed schema: " ++ n.nameOr (c.graph.inlineOwner i))
  match kind with
  | .allOf => visitAllOf visitNode i
  | .oneOf => visitOneOf visitNode i members
  Run.trace "<- [composed]" ("out: " ++ name)

/-- What a visit of a node does, by its kind. -/
def body (d : Document) (visitNode : Visitor) (i : NodeId) (n : Node) : Run Unit := do
  match n.body with
  | .bare => throw (.unknownNodeKind n.body.kindName)
  | .scalar _ => return
  | .object => visitObject visitNode n
  | .array items => visitNode (← Run.lift (expect items))
  | .ref link =>
    let target ← resolve d visitNode (some i) link.ref
    Run.update i fun n => { n with body := .ref ⟨link.ref, some target⟩ }.addChild target
  | .property slot arguments (some link) =>
    let target ← resolve d visitNode (some i) link.ref
    Run.update i fun n =>
      { n with body := .property slot arguments (some ⟨link.ref, some target⟩) }.addChild target
  | .property slot arguments none =>
    arguments.forM fun a => do visitNode (← Run.lift (expect a))
    visitNode (← Run.lift (expect slot.type))
  | .parameter slot => visitNode (← Run.lift (expect slot.type))
  | .composed kind members => visitComposed visitNode i n kind members
  | .union members =>
    if members.isEmpty then throw (.emptyOneOf ((← get).graph.inlineOwner i))
    visitShapes visitNode i 0 members

/-- One visit, given how the nodes below are visited. A visited node is not visited again. -/
def step (d : Document) (visitNode : Visitor) (i : NodeId) : Run Unit := do
  let n ← Run.node i
  unless n.visited do
    Run.within i do
      body d visitNode i n
      Run.update i fun n => { n with visited := true }

/-! ## Visits of any depth -/

/-- Visits within a depth. -/
def visitWithin (d : Document) : Nat → Visitor
  | 0, _ => throw .endless
  | depth + 1, i => step d (visitWithin d depth) i

/-- The value that a node keeps to read later. -/
def unread (n : Node) : Json :=
  match n.body with
  | .composed _ (some members) => members
  | .union members => .arr members
  | _ => n.allOfMembers?.getD .null

/-- The references of a node itself. -/
def ownReferences (n : Node) : Nat :=
  match n.body with
  | .ref _ => 1
  | .property _ _ (some _) => 1
  | _ => 0

/-- How many references there can be to follow. -/
def referenceCount (d : Document) (g : Graph) : Nat :=
  g.nodes.foldl (fun total n => total + ownReferences n + (unread n).count "$ref")
    (d.raw.count "$ref")

/-- How deep a declaration can be. -/
def declarationDepth (d : Document) (g : Graph) : Nat :=
  g.nodes.foldl (fun deepest n => max deepest (unread n).depth) d.raw.depth

/-- A depth that visits never reach: the nodes that are there, and for each reference two levels for
each level of a declaration. -/
def depthBound (d : Document) (g : Graph) : Nat :=
  g.size + (2 * declarationDepth d g + 4) * (referenceCount d g + 2)

/-- Visits a node and everything below it. -/
def visit (d : Document) (i : NodeId) : Run Unit := do
  visitWithin d (depthBound d (← get).graph) i

/-- The node for a reference, built and visited on first use. -/
def resolveRef (d : Document) (owner : Option NodeId) (ref : Json) : Run NodeId := do
  resolve d (visitWithin d (depthBound d (← get).graph)) owner ref

/-- The properties of the members of a composition, built and visited. -/
def collectProperties (d : Document) (i : NodeId) : Run (OrderedMap Key NodeId) := do
  collect (visitWithin d (depthBound d (← get).graph)) i

end ApiGraph.Visit
