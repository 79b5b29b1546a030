import ApiGraph.Graph.Describe
import ApiGraph.Oracle.Basic

/-!
# Runs

A run grows a type graph, keeps the nodes it is inside of on a stack, stores nodes by reference,
puts questions to an oracle and says what it does. A fault ends it, but what was done before stays
done.

* `Context` — the state of a run;
* `Run` — computations on it that may end with a fault;
* `Run.within` — a step inside a node, which is left again however the step ends;
* `Run.store`, `Run.stored?`, `Run.reserve` — the store of nodes by reference, in which the first
  one stays;
* `Run.ask` — puts a question.
-/

namespace ApiGraph

/-- The state of a run. -/
structure Context where
  graph : Graph := {}
  /-- The nodes by reference, in the order in which they were stored. A reference may be kept in its
  place without a node. -/
  types : OrderedMap Key (Option NodeId) := []
  /-- The nodes that the run is inside of, the innermost first; a step may be inside of none. -/
  stack : List (Option NodeId) := []
  /-- How many of them are compositions. -/
  composeDepth : Nat := 0
  oracle : Oracle := Oracle.always
  transcript : Transcript := []
deriving Inhabited

namespace Context

/-- The number of nodes that the run is inside of. -/
def depth (c : Context) : Nat := c.stack.length

/-- Whether there is a composition at a place. -/
def isComposition (c : Context) : Option NodeId → Bool
  | some i => (c.graph.node i).body.isComposed
  | none => false

/-- Goes into a node. -/
def enter (c : Context) (i : Option NodeId) : Context :=
  { c with
    stack := i :: c.stack
    composeDepth := if c.isComposition i then c.composeDepth + 1 else c.composeDepth
    transcript := .entered i :: c.transcript }

/-- Goes out of the innermost node. -/
def leave (c : Context) : Context :=
  match c.stack with
  | [] => c
  | i :: rest =>
    { c with
      stack := rest
      composeDepth := if c.isComposition i then c.composeDepth - 1 else c.composeDepth
      transcript := .left i :: c.transcript }

@[simp] theorem graph_enter (c : Context) (i : Option NodeId) : (c.enter i).graph = c.graph := rfl

@[simp] theorem stack_enter (c : Context) (i : Option NodeId) :
    (c.enter i).stack = i :: c.stack := rfl

@[simp] theorem stack_leave_enter (c : Context) (i : Option NodeId) :
    (c.enter i).leave.stack = c.stack := rfl

@[simp] theorem isComposition_enter (c : Context) (i j : Option NodeId) :
    (c.enter i).isComposition j = c.isComposition j := by
  cases j <;> rfl

@[simp] theorem composeDepth_leave_enter (c : Context) (i : Option NodeId) :
    (c.enter i).leave.composeDepth = c.composeDepth := by
  have hi : (c.enter i).leave.composeDepth =
      if (c.enter i).isComposition i then (c.enter i).composeDepth - 1
      else (c.enter i).composeDepth := rfl
  rw [hi, isComposition_enter]
  by_cases h : c.isComposition i <;> simp [enter, h]

/-- Whether the run is inside a composition other than the node itself. -/
def inComposition (c : Context) (i : Option NodeId) : Bool :=
  let others :=
    if c.isComposition i && c.stack.contains i then c.composeDepth - 1 else c.composeDepth
  0 < others

end Context

/-- A computation on the state of a run. -/
abbrev Run := EStateM Fault Context

namespace Run

/-- The value of an attempt. -/
def lift {α : Type} : Attempt α → Run α
  | .ok a => pure a
  | .error fault => throw fault

/-- A value computed from the graph. -/
def onGraph {α : Type} (f : Graph → Attempt α) : Run α := do lift (f (← get).graph)

/-- The node at a place. -/
def node (i : NodeId) : Run Node := do return (← get).graph.node i

/-- Changes the node at a place. -/
def update (i : NodeId) (f : Node → Node) : Run Unit :=
  modify fun c => { c with graph := c.graph.update i f }

/-- Adds a node. -/
def alloc (n : Node) : Run NodeId :=
  modifyGet fun c =>
    let (i, graph) := c.graph.alloc n
    (i, { c with graph := graph })

/-- Adds the nodes of a declaration. -/
def plant (parent : Option NodeId) (schema : Schema) : Run NodeId :=
  modifyGet fun c =>
    let (i, graph) := c.graph.plant parent schema
    (i, { c with graph := graph })

/-! ## Saying -/

/-- Notes an event. -/
def say (e : Event) : Run Unit := modify fun c => { c with transcript := e :: c.transcript }

/-- Writes a log record. -/
def log (level : Level) (channel : Channel) (text : String) : Run Unit :=
  say (.logged level channel text)

/-- Writes a trace of the traversal, indented by the depth of the stack. -/
def trace (tag text : String) : Run Unit := do
  let depth := (← get).depth
  log .debug .traversal (String.ofList (List.replicate depth ' ') ++ tag ++ " " ++ text)

/-! ## Questions -/

/-- Puts a question to the oracle. -/
def ask (q : Question) : Run Answer := do
  say (.asked q)
  let response := (← get).oracle.respond q
  modify fun c =>
    { c with oracle := response.oracle, transcript := response.events.reverse ++ c.transcript }
  let answer ← lift response.result
  say (.answered answer)
  return answer

/-- Puts a question that is answered by yes or no. -/
def askYesNo (text : String) : Run Bool := do
  let answer ← ask ⟨.yesNo, text⟩
  return answer == .yes

/-! ## The stack -/

/-- A step inside a node. The node is left again whether the step succeeds or not. -/
def within {α : Type} (i : NodeId) (step : Run α) : Run α := fun c =>
  match step (c.enter i) with
  | .ok a c' => .ok a c'.leave
  | .error fault c' => .error fault c'.leave

/-! ## The store -/

/-- The key of a reference or name. -/
def keyOf (name : Json) : Run Key := lift (expect name.key?)

/-- Whether a name is in the store, with a node or without. -/
def isStored (name : Json) : Run Bool := do
  let key ← keyOf name
  return OrderedMap.contains key (← get).types

/-- The node stored under a name. -/
def stored? (name : Json) : Run (Option NodeId) := do
  let key ← keyOf name
  return (OrderedMap.get? key (← get).types).join

/-- Tells that a name is taken by another node than the given one. -/
def warnTaken (name : Json) (ignored : Option NodeId) : Run Unit := do
  let c ← get
  log .warning .traversal
    ("Type store already holds '" ++ name.display ++ "', keeping the first node (ignored " ++
      c.graph.literalOf ignored ++ ")")

/-- Stores a node under a name, unless another node has it already. Gives the node that the name
stands for. -/
def store (name : Json) (i : NodeId) : Run NodeId := do
  trace "   [store]" ("storing: " ++ name.display)
  let key ← keyOf name
  let c ← get
  match (OrderedMap.get? key c.types).join with
  | none =>
    modify fun c => { c with types := OrderedMap.insert key (some i) c.types }
    return i
  | some existing =>
    if existing ≠ i then warnTaken name i
    return existing

/-- Keeps a place in the store for a name, unless a node has it already. Gives the node that the
name stands for, if there is one. -/
def reserve (name : Json) : Run (Option NodeId) := do
  trace "   [store]" ("storing: " ++ name.display)
  let key ← keyOf name
  let c ← get
  match (OrderedMap.get? key c.types).join with
  | none => modify fun c => { c with types := OrderedMap.insert key none c.types }
  | some _ => warnTaken name none
  return (OrderedMap.get? key c.types).join

/-! ## Properties -/

/-- Binds a property of a node under the property's name. -/
def put (i prop : NodeId) : Run Unit := do
  let key ← keyOf (← node prop).name
  update i fun n => n.putProperty key prop

end Run

end ApiGraph
