import ApiGraph.Document.Basic
import ApiGraph.Json.Key
import ApiGraph.Naming

/-!
# Operations

The operations of a document: one for each method of each path, in document order, with the
parameters of path and operation merged and the schema of the answer.

* `Operation` — an operation;
* `Document.mergeParameters` — parameters by name and location, later declarations in the place of
  earlier ones;
* `Document.responseSchema` — the schema of the first success answer, or else of the default one;
* `Document.operations` — the operations for the wanted methods;
* `Operation.listedParameters`, `parameterSchema` — the parameters outside the body, and the schema
  of one.
-/

namespace ApiGraph

/-- An operation of a document. -/
structure Operation where
  path : String
  method : String
  identifier : Json := .null
  parameters : List Json.Members := []
  /-- The schema of the answer, null when there is none. -/
  response : Json := .null
deriving Inhabited, Repr

namespace Operation

/-- An operation in words: its method in capitals and its path. -/
def text (op : Operation) : String :=
  String.ofList (op.method.toList.map capital) ++ " " ++ op.path

/-- The parameters that do not stand in the body of a request. -/
def listedParameters (op : Operation) : List Json.Members :=
  op.parameters.filter fun p => !(Document.field "in" p).isText "body"

end Operation

/-- The keys that describe a parameter itself and not its type. -/
def parameterKeys : List String :=
  ["name", "in", "required", "description", "allowEmptyValue", "collectionFormat"]

/-- The schema of a parameter: its own, or what the parameter says besides the keys that describe
it. -/
def parameterSchema (parameter : Json.Members) : Json :=
  match OrderedMap.get? "schema" parameter with
  | some schema => schema
  | none => .obj (parameter.filter fun (key, _) => !parameterKeys.contains key)

namespace Document

/-- The methods that a path may have. -/
def knownMethods : List String :=
  ["get", "put", "post", "delete", "options", "head", "patch", "trace"]

/-- The wanted methods in small letters; all known ones when nothing is wanted in particular. -/
def wantedMethods (methods : Json) : Attempt (List String) :=
  if methods.truthy then do
    let elements ← methods.elements
    elements.mapM fun
      | .str s => .ok (String.ofList (s.toList.map small))
      | _ => .error .malformed
  else .ok knownMethods

/-! ## Parameters -/

/-- What tells parameters apart: name and location, each the empty text by default. -/
def parameterKey? (parameter : Json.Members) : Option (Key × Key) := do
  let name ← ((OrderedMap.get? "name" parameter).getD (.str "")).key?
  let location ← ((OrderedMap.get? "in" parameter).getD (.str "")).key?
  pure (name, location)

/-- Adds parameters one by one; one of a known name and location takes the place of the earlier
one. -/
def addParameters (d : Document) (merged : OrderedMap (Key × Key) Json.Members) :
    List Json → Attempt (OrderedMap (Key × Key) Json.Members)
  | [] => .ok merged
  | p :: rest => do
    let parameter ← d.dereference p
    let key ← expect (parameterKey? parameter)
    addParameters d (OrderedMap.insert key parameter merged) rest

/-- The items of a list of parameters, which may be missing. -/
def parameterList (value : Json) : Attempt (List Json) := (value.orElse (.arr [])).elements

/-- The parameters of a path followed by those of an operation, merged. -/
def mergeParameters (d : Document) (pathLevel operationLevel : Json) :
    Attempt (List Json.Members) := do
  let shared ← parameterList pathLevel
  let own ← parameterList operationLevel
  let merged ← d.addParameters [] (shared ++ own)
  pure merged.values

/-! ## Answers -/

/-- Whether a status code is one of success. -/
def isSuccess (code : Json) : Bool := code.display.toList.head? == some '2'

/-- The answer for a code: of an object by key, of an array by position. -/
def answerFor (responses code : Json) : Attempt Json :=
  match responses, code with
  | .obj members, .str key => expect (OrderedMap.get? key members)
  | .arr items, .int n => expect (if 0 ≤ n then items[n.toNat]? else none)
  | _, _ => .error .malformed

/-- The schema that an answer has by itself or for its media type: JSON, or else the first one.
Nothing when the answer has no schema. -/
def schemaOfAnswer (d : Document) (answer : Json) : Attempt (Option Json) := do
  let response ← d.dereference answer
  match OrderedMap.get? "schema" response with
  | some schema => pure (some schema)
  | none =>
    let content ← membersOf (field "content" response)
    let first := (content.values.head?).getD .null
    let media := (field "application/json" content).orElse first
    if media.truthy then
      if ← media.has "schema" then
        let members ← expect media.members?
        pure (OrderedMap.get? "schema" members)
      else pure none
    else pure none

/-- The schema of the first of the answers that has one; null when none has. -/
def firstSchema (d : Document) (responses : Json) : List Json → Attempt Json
  | [] => .ok .null
  | code :: rest => do
    let answer ← answerFor responses code
    match ← d.schemaOfAnswer answer with
    | some schema => pure schema
    | none => firstSchema d responses rest

/-- The schema of the answer of an operation: the success codes in document order, then the
default. -/
def responseSchema (d : Document) (operation : Json.Members) : Attempt Json := do
  let responses := (field "responses" operation).orElse (.obj [])
  let codes ← responses.elements
  let hasDefault ← responses.has "default"
  d.firstSchema responses
    (codes.filter isSuccess ++ if hasDefault then [.str "default"] else [])

/-! ## Operations of a document -/

/-- The operation that a path declares for a method. -/
def operationOf (d : Document) (path method : String) (item : Json.Members) (declared : Json) :
    Attempt Operation := do
  let operation ← expect declared.members?
  let parameters ← d.mergeParameters (field "parameters" item) (field "parameters" operation)
  let response ← d.responseSchema operation
  pure
    { path := path
      method := method
      identifier := field "operationId" operation
      parameters := parameters
      response := response }

/-- The operations of one path, in order. -/
def operationsOfPath (d : Document) (wanted : List String) (path : String) (item : Json.Members) :
    Attempt (List Operation) :=
  (item.filter fun (method, _) => knownMethods.contains method && wanted.contains method).mapM
    fun (method, declared) => d.operationOf path method item declared

/-- The operations of a document for the wanted methods, in document order. -/
def operations (d : Document) (methods : Json) : Attempt (List Operation) := do
  let wanted ← wantedMethods methods
  let top ← expect d.raw.members?
  let paths ← membersOf (field "paths" top)
  let found ← paths.mapM fun (path, value) => do
    let item ← d.dereference value
    d.operationsOfPath wanted path item
  pure found.flatten

end Document

end ApiGraph
