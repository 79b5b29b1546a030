import ApiGraph.Graph.NodeId
import ApiGraph.Schema
import ApiGraph.Json.Key
import ApiGraph.Naming

/-!
# Nodes of a type graph

A node stands for one declaration. Its links to other nodes are their places in the graph.

* `Link`, `Slot` — a reference, and what a named member says about its value;
* `Body` — what kind of declaration a node stands for, with its links to other nodes;
* `Node` — a node, with the properties and children it has gathered so far.
-/

namespace ApiGraph

/-- A reference and, once it is resolved, the node it leads to. -/
structure Link where
  ref : Json
  target : Option NodeId := none
deriving Inhabited, Repr

/-- What a named member says about its value. -/
structure Slot where
  /-- Whether a value has to be given. Any value may say so; it says yes when it counts as given
  itself. -/
  required : Json := .bool false
  /-- The declaration as it is written. -/
  declaration : Json := .obj []
  /-- The node of the declared type, unless it is a reference. -/
  type : Option NodeId := none
deriving Inhabited, Repr

namespace Slot

/-- Whether a value has to be given. -/
def isRequired (s : Slot) : Bool := s.required.truthy

/-- The default value, null if there is none. -/
def default (s : Slot) : Json := Schema.defaultOf s.declaration

end Slot

/-- The kinds of nodes. -/
inductive Body where
  /-- A node without a kind. -/
  | bare
  | scalar (type : Option Primitive)
  | object
  | array (items : Option NodeId)
  /-- One of several shapes, with their declarations. -/
  | union (members : List Json)
  /-- A composition, with the value that declares its members. -/
  | composed (kind : Composition) (members : Option Json)
  | ref (link : Link)
  /-- A member of an object, with the arguments it takes, of which some may be missing; one whose
  type is a reference has a link. -/
  | property (slot : Slot) (arguments : List (Option NodeId)) (link : Option Link)
  /-- An argument of an operation. -/
  | parameter (slot : Slot)
deriving Inhabited, Repr

namespace Body

/-- The word for the kind of a node. -/
def kindName : Body → String
  | .bare => "Node"
  | .scalar _ => "Scalar"
  | .object => "Object"
  | .array _ => "Array"
  | .union _ => "Union"
  | .composed _ _ => "Composed"
  | .ref _ => "Ref"
  | .property _ _ none => "Property"
  | .property _ _ (some _) => "PropertyRef"
  | .parameter _ => "Parameter"

/-- Whether a node is a composition. -/
def isComposed : Body → Bool
  | .composed _ _ => true
  | _ => false

end Body

/-- A node of a type graph. -/
structure Node where
  body : Body
  /-- The name of the node, null if it has none. -/
  name : Json := .null
  /-- The node that this one was made for. -/
  parent : Option NodeId := none
  /-- Whether everything below the node is there. -/
  visited : Bool := false
  /-- The properties by name. -/
  props : OrderedMap Key NodeId := []
  /-- The nodes below, of which some may be missing. -/
  children : List (Option NodeId) := []
  /-- The type that a node of a kind without types was given, which may be missing itself. -/
  attached : Option (Option NodeId) := none
deriving Inhabited, Repr

namespace Node

/-- The value of a property: where its reference leads, or its declared type. -/
def valueType? (n : Node) : Option NodeId :=
  match n.body with
  | .property _ _ (some link) => link.target
  | .property slot _ none => slot.type
  | _ => none

/-- The declared type of a property or a parameter. -/
def slot? (n : Node) : Option Slot :=
  match n.body with
  | .property slot _ _ => some slot
  | .parameter slot => some slot
  | _ => none

/-- The type of a node: the declared one of a property or a parameter, and the attached one of any
other node. -/
def type? (n : Node) : Option (Option NodeId) :=
  match n.slot? with
  | some slot => some slot.type
  | none => n.attached

/-- Gives a node a type. A node that declares none has it attached, and keeps its kind. -/
def setType (type : Option NodeId) (n : Node) : Node :=
  match n.body with
  | .property slot arguments link => { n with body := .property { slot with type } arguments link }
  | .parameter slot => { n with body := .parameter { slot with type } }
  | _ => { n with attached := some type }

@[simp] theorem type?_setType (type : Option NodeId) (n : Node) :
    (n.setType type).type? = some type := by
  unfold setType
  split <;> simp_all [type?, slot?]

@[simp] theorem kindName_setType (type : Option NodeId) (n : Node) :
    (n.setType type).body.kindName = n.body.kindName := by
  rcases n with ⟨_ | _ | _ | _ | _ | _ | _ | ⟨_, _, _ | _⟩ | _⟩ <;> rfl

/-- The name, if it counts as given, and the other text if not. -/
def nameOr (n : Node) (other : String) : String :=
  if n.name.truthy then n.name.display else other

/-- The type name of a node with a name; null when the name is missing or empty. -/
def simpleName (n : Node) : Attempt (Option String) :=
  match n.name with
  | .str s => .ok (if s = "" then none else some (typeName s))
  | other => if other.truthy then .error .malformed else .ok none

/-- The value that declares the members of an `allOf`, if the node was made for such a
declaration. -/
def allOfMembers? (n : Node) : Option Json :=
  match n.body with
  | .composed .allOf members => members
  | .property slot _ _ => slot.declaration.get? Composition.allOf.word
  | .parameter slot => slot.declaration.get? Composition.allOf.word
  | _ => none

/-- The first of the nodes below, which has to be in the list but may be missing itself. -/
def firstChild (n : Node) : Attempt (Option NodeId) := expect n.children.head?

/-- Adds a child unless it is one already. -/
def addChild (n : Node) (child : Option NodeId) : Node :=
  if child ∈ n.children then n else { n with children := n.children ++ [child] }

/-- Adds an argument to a property. Other nodes take none. -/
def addArgument (argument : Option NodeId) (n : Node) : Node :=
  match n.body with
  | .property slot arguments link =>
    { n with body := .property slot (arguments ++ [argument]) link }
  | _ => n

/-- Binds a property. A property of the same name is replaced where it stands, among the properties
and, if it is there, among the children. -/
def putProperty (n : Node) (key : Key) (prop : NodeId) : Node :=
  let bound := { n with props := OrderedMap.insert key prop n.props }
  match OrderedMap.get? key n.props with
  | some previous =>
    if some previous ∈ n.children then
      { bound with children := replaceFirst previous prop n.children }
    else bound.addChild prop
  | none => bound.addChild prop
where
  /-- Puts another node in the place of the first occurrence of one. -/
  replaceFirst (old new : NodeId) : List (Option NodeId) → List (Option NodeId)
    | [] => []
    | x :: rest => if x = some old then some new :: rest else x :: replaceFirst old new rest

end Node

end ApiGraph
