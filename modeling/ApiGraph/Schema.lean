import ApiGraph.Document.Basic

/-!
# Schemas

The grammar of schema declarations: what a declaration says about a value, as far as it is written
down in one place. References and compositions stay closed; what they hold is read when they are
visited.

* `Primitive`, `Composition` — the four types of single values, and the two ways to compose schemas;
* `Schema`, `PropertyOf` — a declaration and one property of an object;
* `Schema.Form.ofMembers` — which kind of declaration an object is;
* `Schema.read` — the declaration that a value stands for.
-/

namespace ApiGraph

/-- The types of single values. -/
inductive Primitive where
  | string
  | integer
  | number
  | boolean
deriving DecidableEq, Inhabited, Repr

namespace Primitive

/-- The word for a type. -/
def word : Primitive → String
  | .string => "string"
  | .integer => "integer"
  | .number => "number"
  | .boolean => "boolean"

/-- The type for a word. -/
def ofWord? (word : String) : Option Primitive :=
  if word = "string" then some .string
  else if word = "integer" then some .integer
  else if word = "number" then some .number
  else if word = "boolean" then some .boolean
  else none

end Primitive

/-- The ways to compose schemas. -/
inductive Composition where
  /-- A value has the properties of all members. -/
  | allOf
  /-- A value is as one of the members says. -/
  | oneOf
deriving DecidableEq, Inhabited, Repr

namespace Composition

/-- The key of a composition. -/
def word : Composition → String
  | .allOf => "allOf"
  | .oneOf => "oneOf"

end Composition

/-- A property of an object, with a type of some sort. -/
structure PropertyOf (τ : Type) where
  name : String
  required : Bool
  /-- The declaration as it is written. -/
  declaration : Json
  type : τ
deriving Inhabited, Repr

/-- What a declaration says about a value. -/
inductive Schema where
  | ref (target : Json)
  | composed (kind : Composition) (members : Json)
  | array (items : Schema)
  | object (properties : List (PropertyOf Schema))
  /-- A single value; of any form when no type is given. -/
  | scalar (type : Option Primitive)
deriving Inhabited, Repr

namespace Schema

/-- The kind of a declaration, before its parts are read. -/
inductive Form where
  /-- A declaration without parts that are read now. -/
  | leaf (schema : Schema)
  | array
  | object (required : List String)
deriving Inhabited, Repr

/-- The names that a list of required properties holds. -/
def requiredNames (value : Json) : Attempt (List String) := do
  let elements ← (value.orElse (.arr [])).elements
  if elements.all fun e => e.isHashable then
    pure (elements.filterMap fun
      | .str s => some s
      | _ => none)
  else .error .malformed

/-- The type that a declaration gives. Of a list of types exactly one besides null has to be left,
and a list of values without a type stands for texts. -/
def effectiveType (owner : String) (members : Json.Members) : Attempt Json := do
  let declared := Document.field "type" members
  let type ←
    match declared with
    | .arr types =>
      match types.filter fun t => !t.isText "null" with
      | [type] => .ok type
      | _ => .error (.ambiguousType types owner)
    | type => .ok type
  if type.isNull && OrderedMap.contains "enum" members then pure (.str "string") else pure type

/-- The declaration of a single value. -/
def scalarOf (owner : String) : Json → Attempt Schema
  | .null => .ok (.scalar none)
  | .arr _ | .obj _ => .error .malformed
  | type =>
    match type with
    | .str word =>
      match Primitive.ofWord? word with
      | some primitive => .ok (.scalar (some primitive))
      | none => .error (.unknownType type owner)
    | _ => .error (.unknownType type owner)

/-- The keys of an object in the order of their code points. -/
def sortedKeys (members : Json.Members) : List String :=
  (OrderedMap.keys members).mergeSort Text.comesBefore

/-- The kind of the declaration that an object is: a reference before all else, then a composition,
and otherwise what its type says, where properties make it an object unless it is an array. -/
def Form.ofMembers (owner : String) (members : Json.Members) : Attempt Form :=
  match OrderedMap.get? "$ref" members with
  | some target => .ok (.leaf (.ref target))
  | none =>
    match OrderedMap.get? "allOf" members, OrderedMap.get? "oneOf" members with
    | some parts, _ => .ok (.leaf (.composed .allOf parts))
    | none, some parts => .ok (.leaf (.composed .oneOf parts))
    | none, none =>
      if OrderedMap.contains "anyOf" members || OrderedMap.contains "not" members then
        .error (.unsupportedComposition (sortedKeys members) owner)
      else do
        let type ← effectiveType owner members
        if type.isText "array" then pure .array
        else if type.isText "object" || OrderedMap.contains "properties" members then
          pure (.object (← requiredNames (Document.field "required" members)))
        else pure (.leaf (← scalarOf owner type))

/-- The default value of a declaration, null if it has none. -/
def defaultOf (declaration : Json) : Json := (declaration.get? "default").getD .null

mutual

/-- The declaration that a value stands for; `owner` is the nearest name around it. -/
def read (owner : String) : Json → Attempt Schema
  | .obj members =>
    match Form.ofMembers owner members with
    | .error fault => .error fault
    | .ok (.leaf schema) => .ok schema
    | .ok .array => (readItems owner members).map .array
    | .ok (.object required) => (readProperties required members).map .object
  | value => .error (.notASchema value owner)

/-- The declaration of the items of an array, which has to be an object. -/
def readItems (owner : String) : List (String × Json) → Attempt Schema
  | [] => .error (.arrayWithoutItems owner)
  | (key, value) :: rest =>
    if key = "items" then
      if value.isObject then read owner value else .error (.arrayWithoutItems owner)
    else readItems owner rest

/-- The properties that an object declares, none when it does not say. -/
def readProperties (required : List String) :
    List (String × Json) → Attempt (List (PropertyOf Schema))
  | [] => .ok []
  | (key, value) :: rest =>
    if key = "properties" then
      match value with
      | .obj declared => readEach required declared
      | other => if other.truthy then .error .malformed else .ok []
    else readProperties required rest

/-- The declared properties one by one; each is the nearest name around its type. -/
def readEach (required : List String) :
    List (String × Json) → Attempt (List (PropertyOf Schema))
  | [] => .ok []
  | (name, declaration) :: rest =>
    match read name declaration with
    | .error fault => .error fault
    | .ok type =>
      (readEach required rest).map
        ({ name := name
           required := required.contains name
           declaration := declaration
           type := type } :: ·)

end

end Schema

end ApiGraph
