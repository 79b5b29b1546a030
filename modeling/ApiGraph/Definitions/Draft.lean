import ApiGraph.Definitions.Basic
import ApiGraph.Run

/-!
# Drafting type definitions

Type definitions are drafted from a visited graph. Types without a name get one when a field leads
to them: they are called after the type and the field, and wait until the type that holds the field
is written.

* `Draft`, `Drafting` — the definitions so far, and computations on them;
* `Drafting.typeName`, `Drafting.typeExpr` — the name of an object or composition, and the type
  expression for any value;
* `Drafting.field`, `Drafting.argument` — fields and arguments;
* `Drafting.generate` — the definition of a node;
* `Drafting.definitions` — the definitions for a list of nodes and a query type.
-/

namespace ApiGraph

/-- Definitions that are being drafted. -/
structure Draft where
  context : Context
  /-- Names given to nodes that have none of their own. -/
  inlineNames : OrderedMap NodeId (Option String) := []
  /-- Names that may not be given any more. -/
  takenNames : List String := []
  /-- Named nodes whose definitions are still to be written. -/
  pending : List NodeId := []
  /-- The shapes of choices that were written. -/
  writtenVariants : List NodeId := []
  /-- Whether a type fell back to the scalar for values of any form. -/
  usesJson : Bool := false
  /-- The types written so far, in order. -/
  types : List TypeBlock := []
deriving Inhabited

/-- A computation on a draft. -/
abbrev Drafting := EStateM Fault Draft

namespace Drafting

/-- A step of the run. -/
def run {α : Type} (step : Run α) : Drafting α := fun d =>
  match step d.context with
  | .ok a c => .ok a { d with context := c }
  | .error fault c => .error fault { d with context := c }

/-- The value of an attempt. -/
def lift {α : Type} (a : Attempt α) : Drafting α := run (Run.lift a)

/-- The graph. -/
def graph : Drafting Graph := do return (← get).context.graph

/-- The node at a place. -/
def node (i : NodeId) : Drafting Node := do return (← graph).node i

/-- A step inside a node, which is left again however the step ends. -/
def within {α : Type} (i : NodeId) (step : Drafting α) : Drafting α := fun d =>
  match step { d with context := d.context.enter i } with
  | .ok a d' => .ok a { d' with context := d'.context.leave }
  | .error fault d' => .error fault { d' with context := d'.context.leave }

/-! ## Types -/

/-- The scalar for values of any form. -/
def json (config : Config) : Drafting Json := do
  modify fun d => { d with usesJson := true }
  return config.jsonScalar

/-- Whether a node is an object or an `allOf` that has properties but no name. -/
def isAnonymous (g : Graph) : Option NodeId → Bool
  | none => false
  | some i =>
    let n := g.node i
    n.name.isNull &&
      match n.body with
      | .object => !n.props.isEmpty
      | .composed .allOf _ => !n.props.isEmpty
      | _ => false

/-- A text or null as a value. -/
def nameValue : Option String → Json
  | some s => .str s
  | none => .null

/-- The type name of an object or composition: by its own name, or by the one it was given. -/
def typeName (config : Config) (i : NodeId) : Drafting Json := do
  let n ← node i
  if !n.name.isNull then
    return nameValue (← lift n.simpleName)
  match OrderedMap.get? i (← get).inlineNames with
  | some (some name) => return .str name
  | _ =>
    run (Run.log .warning .definitions
      ("No type name for anonymous " ++ n.body.kindName ++ ", using " ++
        config.jsonScalar.display))
    json config

/-- The scalar for a primitive type: the configured one, or the type's own word. -/
def scalarFor (config : Config) (p : Primitive) : Attempt Json := do
  let table ← expect (← expect config.scalarTypes).members?
  pure ((OrderedMap.get? p.word table).getD (.str p.word))

/-- The type expression for a value, within a depth. A node inside itself is of any form; `seen`
holds the nodes around. -/
def typeExprWithin (config : Config) : Nat → List NodeId → Option NodeId → Drafting TypeExpr
  | 0, _, _ => throw .endless
  | _ + 1, _, none => return .named (← json config)
  | depth + 1, seen, some i => do
    if i ∈ seen then return .named (← json config)
    let inner := typeExprWithin config depth (i :: seen)
    let g ← graph
    let n := g.node i
    match n.body with
    | .scalar none => return .named (← json config)
    | .scalar (some p) => return .named (← lift (scalarFor config p))
    | .object | .composed .allOf _ =>
      if n.props.isEmpty then return .named (← json config)
      else return .named (← typeName config i)
    | .array items => return .list (← inner items)
    | .ref link => inner link.target
    | .composed .oneOf _ => inner (← lift (g.oneOfVariant i))
    | .union _ => inner (← lift (g.unionVariant i))
    | .property _ _ _ => inner n.valueType?
    | .parameter slot => inner slot.type
    | .bare => throw (.noTypeExpression (g.literal i))

/-- The type expression for a value. -/
def typeExpr (config : Config) (i : Option NodeId) : Drafting TypeExpr := do
  typeExprWithin config ((← graph).size + 2) [] i

/-! ## Fields and arguments -/

/-- A name as a text. -/
def textOf : Json → Attempt String
  | .str s => .ok s
  | _ => .error .malformed

/-- The type of an argument. Objects are passed as values of any form. -/
def argumentType (config : Config) (type : Option NodeId) : Drafting TypeExpr := do
  if ← lift ((← graph).isCompound type) then return .named (← json config)
  typeExpr config type

/-- An argument. Any node that has a type is asked for it first; only a property or a parameter says
whether a value has to be given. -/
def argument (config : Config) (i : NodeId) : Drafting Argument := do
  let n ← node i
  let type ← argumentType config (← lift (expect n.type?))
  let name ← lift (textOf n.name)
  let slot ← lift (expect n.slot?)
  return {
    node := i
    name := fieldName name
    type := type
    required := slot.isRequired
    default := slot.default }

/-- The names that a wanted name may become: itself, and then with a number from two on. -/
def candidateName (name : String) : Nat → String
  | 0 => name
  | k + 1 => name ++ toString (k + 2)

/-- The first of these that is not taken. -/
def freshName (taken : List String) (name : String) : String :=
  (((List.range (taken.length + 1)).map (candidateName name)).find? (· ∉ taken)).getD name

/-- The node in need of a name that a value leads to, through arrays, unions and choices without a
name, within a number of steps. -/
def inlineTarget (g : Graph) : Nat → Option NodeId → Attempt (Option NodeId)
  | 0, _ => .error .endless
  | _ + 1, none => .ok none
  | steps + 1, some i =>
    let n := g.node i
    match n.body with
    | .array items => inlineTarget g steps items
    | .union _ => do inlineTarget g steps (← g.unionVariant i)
    | .composed .oneOf _ =>
      if n.name.isNull then do inlineTarget g steps (← g.oneOfVariant i) else .ok (some i)
    | _ => .ok (some i)

/-- Gives a name to the type that a value leads to, if it needs one, and puts it in the line of
types to be written. -/
def nameInline (value : Option NodeId) (name : String) : Drafting Unit := do
  let g ← graph
  match ← lift (inlineTarget g (g.size + 2) value) with
  | none => return
  | some i =>
    let d ← get
    if isAnonymous g (some i) && !OrderedMap.contains i d.inlineNames then
      let unique := freshName d.takenNames name
      modify fun d => { d with
        takenNames := unique :: d.takenNames
        inlineNames := OrderedMap.insert i (some unique) d.inlineNames
        pending := d.pending ++ [i] }

/-- The words of a name; a name that does not count as given has none. -/
def wordsOf (name : Json) : Attempt String :=
  match name with
  | .str s => .ok (pascalCase s)
  | other => if other.truthy then .error .malformed else .ok ""

/-- A field of a type with a given name. -/
def field (config : Config) (owner : Json) (i : NodeId) : Drafting Field := do
  let n ← node i
  match n.body with
  | .property slot arguments _ =>
    let ownerName ← lift (textOf owner)
    let words ← lift (wordsOf n.name)
    nameInline n.valueType? (ownerName ++ words)
    let name ← lift (textOf n.name)
    let arguments ← arguments.mapM fun a => do argument config (← lift (expect a))
    let type ← typeExpr config n.valueType?
    if !type.isText then throw .malformed
    return {
      node := i
      name := fieldName name
      arguments := arguments
      type := type
      required := slot.isRequired
      default := slot.default }
  | _ => throw .malformed

/-! ## Definitions -/

/-- Writes the type of a node with its properties as fields. -/
def writeType (config : Config) (i : NodeId) (name : Json) (props : List NodeId) :
    Drafting Unit := do
  let fields ← props.mapM (field config name)
  modify fun d => { d with types := d.types ++ [⟨i, name, fields⟩] }

/-- Writes the type of an object or composition, if it has properties. -/
def writeObject (config : Config) (i : NodeId) : Drafting Unit := do
  let n ← node i
  unless n.props.isEmpty do
    let name ← typeName config i
    writeType config i name (OrderedMap.values n.props)

/-- A step of writing a node: inside the node, between two traces. -/
def traced (i : NodeId) (step : Drafting Unit) : Drafting Unit :=
  within i do
    let n ← node i
    let name := n.nameOr n.body.kindName
    run (Run.trace "-> [generate]" ("in: " ++ name))
    step
    run (Run.trace "<- [generate]" ("out: " ++ name))

/-- The kept shape of a union or a choice. -/
def variantOf (g : Graph) (i : NodeId) : Attempt (Option NodeId) :=
  match (g.node i).body with
  | .composed .oneOf _ => g.oneOfVariant i
  | .union _ => g.unionVariant i
  | _ => .ok none

/-- Gives the shape of a named choice the name of the choice, unless the shape has a name. Tells
whether the shape goes by that name. -/
def nameVariant (i : NodeId) : Drafting Bool := do
  let g ← graph
  match ← lift (variantOf g i) with
  | none => return false
  | some variant =>
    let n := g.node i
    if n.name.isNull || !isAnonymous g (some variant) then return false
    let name ← lift n.simpleName
    let d ← get
    match OrderedMap.get? variant d.inlineNames with
    | some given => return given == name
    | none =>
      modify fun d => { d with inlineNames := OrderedMap.insert variant name d.inlineNames }
      return true

/-- Writes a choice as its kept shape, once, and only if the shape goes by the choice's name. -/
def writeVariant (config : Config) (i : NodeId) : Option NodeId → Drafting Unit
  | none => return
  | some variant => do
    if ← nameVariant i then
      let d ← get
      if variant ∉ d.writtenVariants then
        modify fun d => { d with writtenVariants := d.writtenVariants ++ [variant] }
        traced variant (writeObject config variant)

/-- Writes the definition of a node, if it has one. -/
def generate (config : Config) (i : NodeId) : Drafting Unit :=
  traced i do
    let g ← graph
    match (g.node i).body with
    | .object | .composed .allOf _ => writeObject config i
    | .composed .oneOf _ => writeVariant config i (← lift (g.oneOfVariant i))
    | .union _ => writeVariant config i (← lift (g.unionVariant i))
    | .ref _ | .array _ | .scalar _ => return
    | .bare | .property _ _ _ | .parameter _ => throw (.noDefinition (g.literal i))

/-- Writes the types in the line, and those that come into it meanwhile, within a number. -/
def flushWithin (config : Config) : Nat → Drafting Unit
  | 0 => throw .endless
  | steps + 1 => do
    let d ← get
    match d.pending with
    | [] => return
    | i :: rest =>
      modify fun d => { d with pending := rest }
      generate config i
      flushWithin config steps

/-- Writes all types in the line. A node comes into the line at most once. -/
def flush (config : Config) : Drafting Unit := do
  let d ← get
  flushWithin config (d.context.graph.size + d.pending.length + 1)

/-- Takes the names of the nodes that have one. -/
def takeNames (roots : List NodeId) : Drafting Unit := do
  let g ← graph
  let names ← roots.filterMapM fun i => do
    lift (g.node i).simpleName
  modify fun d => { d with takenNames := d.takenNames ++ names }

/-- Takes the name of the query type. -/
def takeQueryName (config : Config) : Drafting Unit := do
  let _ ← lift (expect config.queryType.key?)
  match config.queryType with
  | .str s => modify fun d => { d with takenNames := d.takenNames ++ [s] }
  | _ => return

/-- The definitions of the nodes in order, each followed by the types that its fields named, and at
last the query type. -/
def definitions (config : Config) (roots : List NodeId) (query : Option NodeId) :
    Drafting Definitions := do
  takeNames roots
  takeQueryName config
  roots.forM fun i => do
    let _ ← nameVariant i
  roots.forM fun i => do
    generate config i
    flush config
  match query with
  | none => return ← finish
  | some q =>
    let n ← node q
    unless n.props.isEmpty do
      within q (writeType config q config.queryType (OrderedMap.values n.props))
      flush config
    finish
where
  /-- The definitions drafted so far. -/
  finish : Drafting Definitions := do
    let d ← get
    return {
      comment := config.comment.truthy
      scalar := if d.usesJson then some config.jsonScalar else none
      types := d.types }

end Drafting

end ApiGraph
