import ApiGraph.Conversion
import ApiGraph.Inspection.Dump
import ApiGraph.Inspection.NodePath

/-!
# Sessions

A session grows and inspects one type graph step by step, with handles for its nodes.

* `Session` — the state of a session;
* `Action`, `Command` — what can be done, and with which nodes;
* `Report`, `Refusal` — what comes of it;
* `Session.perform` — does one command.
-/

namespace ApiGraph

/-- The state of a session. -/
structure Session where
  document : Document
  config : Config
  context : Context
  handles : OrderedMap String (Option NodeId) := []

/-- Why a command has no result. -/
inductive Refusal where
  /-- A handle without a node, or a step from no node. -/
  | noNode
  | fault (f : Fault)
deriving Inhabited

/-- What can be done. Where a node is meant, the value is the path to it. -/
inductive Action where
  /-- Something that can not be done. -/
  | unknown
  | new (body : Body) (name : Json)
  | fromSchema (schema : Json)
  | fromProperty (name schema required : Json)
  | fromParameter (name schema required : Json)
  | fromUnion (schemas : Json)
  | at
  | setName (name : Json)
  | setType (type : Json)
  | addArgument (argument : Json)
  | add (child : Json)
  | put (child : Json)
  | resolve (ref : Json)
  | visit
  | identity
  | simpleName
  | describe
  | dependencies
  | dump (depth : Nat)
  | same (other : Json)
  | isCompound
  | selectionTarget
  | propertiesOf
  | collect
  | selectProperties (candidates : Json)
  | enter
  | leave
  | inComposition
  | store (name : Json)
  | get (name : Json)
  | has (name : Json)
  | types
  | lookup (ref : Json)
  /-- Writes the definitions of some nodes, or those of all stored nodes. -/
  | definitions (roots query : Json)
  | generate
  | select (roots : Json)
  | typeExpr
  | field (owner : Json)
  | argument
deriving Inhabited

/-- Whether an action gives a node that can be bound to a handle: a new node, or one that is looked
up. -/
def Action.binds : Action → Bool
  | .new _ _ | .fromSchema _ | .fromProperty _ _ _ | .fromParameter _ _ _ | .fromUnion _ => true
  | .at | .resolve _ | .get _ => true
  | _ => false

/-- Something to do, with the node and the parent that it is about, and the handle for the node that
comes of it. -/
structure Command where
  action : Action
  node : Json := .null
  parent : Json := .null
  handle : Option String := none
deriving Inhabited

/-- What comes of a command. -/
inductive Report where
  | value (v : Json)
  /-- A declaration of the document. -/
  | declaration (members : Json.Members)
  /-- A node, which is shown by its label. -/
  | node (i : Option NodeId)
  /-- A text that was written, and what kept the writing from coming to its end. -/
  | written (text : String) (refusal : Option Refusal)
deriving Inhabited

/-- A computation of a session. -/
abbrev Inspecting := EStateM Refusal Session

namespace Inspecting

/-- A step of the run. -/
def run {α : Type} (step : Run α) : Inspecting α := fun s =>
  match step s.context with
  | .ok a c => .ok a { s with context := c }
  | .error f c => .error (.fault f) { s with context := c }

/-- The value of an attempt. -/
def lift {α : Type} (a : Attempt α) : Inspecting α := run (Run.lift a)

/-- The graph. -/
def graph : Inspecting Graph := do return (← get).context.graph

/-! ## Nodes by path -/

/-- Follows steps from a node. -/
def follow (i : Option NodeId) : List PathStep → Inspecting (Option NodeId)
  | [] => return i
  | step :: rest =>
    match i with
    | none => throw .noNode
    | some i => do
      let next ← lift ((← graph).follow i step)
      follow next rest

/-- The node at a path; an empty value leads to no node. -/
def nodeAt (path : Json) : Inspecting (Option NodeId) := do
  if !path.truthy then return none
  match path with
  | .str s =>
    let p := NodePath.parse s
    match OrderedMap.get? p.handle (← get).handles with
    | some (some i) => follow (some i) p.steps
    | _ => throw .noNode
  | _ => throw (.fault .malformed)

/-- The node at a path that has to lead to one. -/
def someNodeAt (path : Json) : Inspecting NodeId := do lift (expect (← nodeAt path))

/-- The nodes at several paths. -/
def nodesAt (paths : Json) : Inspecting (List (Option NodeId)) := do
  (← lift paths.elements).mapM nodeAt

/-! ## Texts -/

/-- A text that is written from nodes. Nothing is written when they are not found. -/
def writing {α : Type} (find : Inspecting α) (write : α → Inspecting Report) :
    Inspecting Report := fun s =>
  match find s with
  | .ok nodes s => write nodes s
  | .error refusal s => .ok (.written "" (some refusal)) s

/-- Goes on from a state of the run with a report. -/
def reportFrom (c : Context) (report : Report) : Inspecting Report := do
  modify fun s => { s with context := c }
  return report

/-- The text of definitions, or the fault that ended the writing. -/
def writeDefinitions (roots : List (Option NodeId)) (query : Option NodeId) :
    Inspecting Report := do
  let s ← get
  let write : Run Definitions := do
    let roots ← Run.lift (roots.mapM expect)
    Conversion.drafting (Drafting.definitions s.config roots query)
  match write s.context with
  | .ok d c => reportFrom c (.written (d.render s.config) none)
  | .error f c => reportFrom c (.written "" (some (.fault f)))

/-- The text of selections, as far as they were written, and the fault that ended the writing. -/
def writeSelections (roots : List (Option NodeId)) : Inspecting Report := do
  let s ← get
  match Selecting.selectAll roots { context := s.context } with
  | .ok _ d => reportFrom d.context (.written (SelectionLine.renderAll d.lines) none)
  | .error f d => reportFrom d.context (.written (SelectionLine.renderAll d.lines) (some (.fault f)))

/-- The value of a computation on a fresh draft. -/
def drafting {α : Type} (step : Config → Drafting α) : Inspecting α := do
  run (Conversion.drafting (step (← get).config))

/-- The text of the definition of a node. -/
def generated (config : Config) (i : NodeId) : Drafting String := do
  Drafting.generate config i
  return Definitions.renderTypes config (← get).types

/-- A type expression as a value: a list as a text, a name as it is. -/
def exprValue : TypeExpr → Json
  | .named name => name
  | e => .str e.text

/-! ## Actions -/

/-- Properties by name with their labels. -/
def propertyList (g : Graph) (props : OrderedMap Key NodeId) : Json :=
  .arr (props.map fun (key, i) => .arr [key.toJson, .str (g.label i)])

/-- Adds a child to a node. -/
def addChild (i : NodeId) (child : Json) : Inspecting Report := do
  let c ← nodeAt child
  run (Run.update i fun n => n.addChild c)
  let g ← graph
  return .value (g.labels (g.node i).children)

/-- Binds a property of a node. -/
def putProperty (i : NodeId) (child : Json) : Inspecting Report := do
  run (Run.put i (← someNodeAt child))
  let g ← graph
  let n := g.node i
  return .value (.obj
    [("props", .arr ((OrderedMap.keys n.props).map Key.toJson)), ("children", g.labels n.children)])

/-- The property at a path with its name as a key. -/
def keyed (path : Json) : Inspecting (Key × NodeId) := do
  let i ← someNodeAt path
  return (← run (Run.keyOf (← run (Run.node i)).name), i)

/-- Asks which of some properties a composition keeps, and gives their names. Without properties
there is nothing to ask. -/
def selectProperties (node : Option NodeId) (candidates : Json) : Inspecting Report := do
  let props ← (← lift candidates.elements).mapM keyed
  if props.isEmpty then return .value (.arr [])
  let kept ← run (Visit.select (← lift (expect node)) (OrderedMap.insertAll [] props))
  let g ← graph
  return .value (.arr (kept.map fun j => (g.node j).name))

/-- Adds an argument to a property. -/
def addArgument (i : NodeId) (argument : Json) : Inspecting Report := do
  match ((← graph).node i).body with
  | .property _ _ _ =>
    run (Run.update i (Node.addArgument (← nodeAt argument)))
    return .value .null
  | _ => throw (.fault .malformed)

/-- Stores a node under a name, or only keeps a place for it. -/
def store (name : Json) : Option NodeId → Inspecting Report
  | some i => do return .node (some (← run (Run.store name i)))
  | none => do return .node (← run (Run.reserve name))

/-- The stored nodes with their names, labels and whether they are visited. -/
def typeList : Inspecting Report := do
  let c := (← get).context
  let entries ← lift (c.types.mapM fun (key, stored) => do
    let i ← expect stored
    pure (Json.arr [key.toJson, .str (c.graph.label i), .bool (c.graph.node i).visited]))
  return .value (.arr entries)

/-- Leaves the innermost node. -/
def leave : Inspecting Report := do
  let c := (← get).context
  match c.stack with
  | [] => throw (.fault .malformed)
  | i :: _ => reportFrom c.leave (.node i)

/-- What comes of an action, for the node and the parent that it is about. -/
def perform (action : Action) (node parent : Option NodeId) : Inspecting Report := do
  let d := (← get).document
  let here : Inspecting NodeId := lift (expect node)
  match action with
  | .unknown => throw (.fault .malformed)
  | .new body name =>
    return .node (some (← run (Run.alloc { body := body, name := name, parent := parent })))
  | .fromSchema schema => return .node (some (← run (Build.fromSchema parent schema)))
  | .fromProperty name schema required =>
    return .node (some (← run (Build.fromProperty parent name schema required)))
  | .fromParameter name schema required =>
    return .node (some (← run (Build.fromParameter parent name schema required)))
  | .fromUnion schemas => return .node (some (← run (Build.fromUnion parent schemas)))
  | .at => return .node node
  | .setName name =>
    run (Run.update (← here) fun n => { n with name := name })
    return .value .null
  | .setType type =>
    let t ← nodeAt type
    run (Run.update (← here) fun n => n.setType t)
    return .value .null
  | .addArgument argument => addArgument (← here) argument
  | .add child => addChild (← here) child
  | .put child => putProperty (← here) child
  | .resolve ref => return .node (some (← run (Visit.resolveRef d parent ref)))
  | .visit =>
    run (Visit.visit d (← here))
    return .value .null
  | .identity => return .value (.str (← lift ((← graph).identity (← here))))
  | .simpleName =>
    let n := (← graph).node (← here)
    return .value (Drafting.nameValue (← lift n.simpleName))
  | .describe => return .value (.str (← lift ((← graph).describe (← here))))
  | .dependencies =>
    let g ← graph
    return .value (.arr ((← lift (g.dependencies (← here))).map g.labelOf))
  | .dump depth => return .value ((← graph).dump depth node)
  | .same other => return .value (.bool (node == (← nodeAt other)))
  | .isCompound => return .value (.bool (← lift ((← graph).isCompound node)))
  | .selectionTarget => return .node (← lift ((← graph).selectionTarget node))
  | .propertiesOf =>
    let g ← graph
    match node with
    | none => return .value (.arr [])
    | some i => return .value (propertyList g (← lift (g.propertiesOf i)))
  | .collect =>
    let props ← run (Visit.collectProperties d (← here))
    return .value (propertyList (← graph) props)
  | .selectProperties candidates => selectProperties node candidates
  | .enter =>
    modify fun s => { s with context := s.context.enter node }
    return .value .null
  | .leave => leave
  | .inComposition => return .value (.bool ((← get).context.inComposition node))
  | .store name => store name node
  | .get name => return .node (← run (Run.stored? name))
  | .has name => return .value (.bool (← run (Run.isStored name)))
  | .types => typeList
  | .lookup ref => return .declaration (← lift (d.lookupValue ref))
  | .definitions roots query =>
    let find := do
      let nodes ←
        if roots.isNull then pure (OrderedMap.values (← get).context.types) else nodesAt roots
      return (nodes, ← nodeAt query)
    writing find fun (nodes, query) => writeDefinitions nodes query
  | .generate =>
    let i ← here
    return .value (.str (← drafting fun config => generated config i))
  | .select roots => writing (nodesAt roots) writeSelections
  | .typeExpr =>
    let e ← drafting fun config => Drafting.typeExpr config node
    return .value (exprValue e)
  | .field owner =>
    let i ← here
    return .value (.str (← drafting fun config => Drafting.field config owner i).text)
  | .argument =>
    let i ← here
    return .value (.str (← drafting fun config => Drafting.argument config i).text)

/-- Finds the nodes of a command and performs its action. -/
def reportOn (c : Command) : Inspecting Report := do
  let node ← nodeAt c.node
  let parent ← nodeAt c.parent
  perform c.action node parent

/-- Binds the handle of a command to the node that comes of an action that binds. -/
def bindHandle (c : Command) (report : Report) : Inspecting Unit := do
  match report, c.handle with
  | .node i, some handle =>
    if c.action.binds then
      modify fun s => { s with handles := OrderedMap.insert handle i s.handles }
  | _, _ => pure ()

/-- Does a command. -/
def command (c : Command) : Inspecting Report := do
  let report ← reportOn c
  bindHandle c report
  return report

end Inspecting

namespace Session

/-- A session on a document. -/
def start (document : Document) (config : Config) (oracle : Oracle) : Session :=
  { document := document, config := config, context := { oracle := oracle } }

/-- Does one command. The transcript afterwards is the one of this command. -/
def perform (s : Session) (c : Command) : Except Refusal Report × Session :=
  match Inspecting.command c { s with context := { s.context with transcript := [] } } with
  | .ok report s => (.ok report, s)
  | .error refusal s => (.error refusal, s)

end Session

end ApiGraph
