import ApiGraph.Definitions.Draft
import ApiGraph.Document.Operation
import ApiGraph.Graph.Visit
import ApiGraph.Selection.Select

/-!
# Conversion

From a document to the text of type definitions or of selections.

* `Conversion.operationField` — the field of an operation, with its parameters as arguments;
* `Conversion.definitions` — resolves the named schemas and then the operations, and drafts the
  definitions of everything stored;
* `Conversion.selection` — asks for each operation whether to select it;
* `Conversion.run` — one of the two, as a text.
-/

namespace ApiGraph

/-- The two kinds of output. -/
inductive Mode where
  | definitions
  | selection
deriving DecidableEq, Inhabited, Repr

namespace Conversion

/-- The name of the field of an operation. -/
def fieldNameOf (op : Operation) : Attempt String :=
  if op.identifier.truthy then
    match op.identifier with
    | .str id => .ok (operationName op.method op.path (some id))
    | _ => .error .malformed
  else .ok (operationName op.method op.path none)

/-- The argument for a parameter of an operation. -/
def operationArgument (field : NodeId) (parameter : Json.Members) : Run NodeId := do
  let name ← Run.lift (expect (OrderedMap.get? "name" parameter))
  let required := (Document.field "required" parameter).truthy
  Build.fromParameter (some field) name (parameterSchema parameter) (.bool required)

/-- The field of an operation: the type of its answer, and its parameters as arguments. -/
def operationField (query : NodeId) (op : Operation) : Run NodeId := do
  let name ← Run.lift (fieldNameOf op)
  let field ← Build.fromProperty (some query) (.str name) (op.response.orElse (.obj []))
    (.bool false)
  op.listedParameters.forM fun parameter => do
    let argument ← operationArgument field parameter
    Run.update field (Node.addArgument argument)
  return field

/-- An object for the fields of operations. -/
def newQuery (config : Config) : Run NodeId :=
  Run.alloc { body := .object, name := config.queryType }

/-- Resolves all named schemas of a document. -/
def resolveSchemas (d : Document) : Run Unit := do
  let schemas ← Run.lift d.schemas
  (OrderedMap.keys schemas).forM fun ref => do
    let _ ← Visit.resolveRef d none (.str ref)

/-- The operations that the configuration asks for. -/
def wantedOperations (d : Document) (config : Config) : Attempt (List Operation) := do
  d.operations (← expect config.methods)

/-- The query object with the fields of operations, not yet visited. -/
def buildQuery (config : Config) (operations : List Operation) : Run NodeId := do
  let query ← newQuery config
  operations.forM fun op => do
    Run.put query (← operationField query op)
  return query

/-- Everything that definitions speak of: resolves the schemas, and visits the operations. Gives
the query object. -/
def visitAll (d : Document) (config : Config) : Run NodeId := do
  resolveSchemas d
  let operations ← Run.lift (wantedOperations d config)
  let query ← buildQuery config operations
  Visit.visit d query
  return query

/-- A computation on a fresh draft of definitions. -/
def drafting {α : Type} (step : Drafting α) : Run α := fun c =>
  match step { context := c } with
  | .ok a d => .ok a d.context
  | .error fault d => .error fault d.context

theorem exists_of_drafting {α : Type} {step : Drafting α} {a : α} {c c' : Context}
    (h : drafting step c = .ok a c') : ∃ d, step { context := c } = .ok a d ∧ c' = d.context := by
  rw [drafting] at h
  cases hstep : step { context := c } with
  | ok b d =>
    rw [hstep] at h
    cases h
    exact ⟨d, rfl, rfl⟩
  | error fault d =>
    rw [hstep] at h
    cases h

/-- A computation on a fresh selection, with the lines written. -/
def selecting (step : Selecting Unit) : Run (List SelectionLine) := fun c =>
  match step { context := c } with
  | .ok _ d => .ok d.lines d.context
  | .error fault d => .error fault d.context

/-- The type definitions of a document. -/
def definitions (d : Document) (config : Config) : Run Definitions := do
  let query ← visitAll d config
  let roots ← Run.lift ((OrderedMap.values (← get).types).mapM expect)
  drafting (Drafting.definitions config roots (some query))

/-- The field of an operation as a property of the query object, visited. -/
def visitOperation (d : Document) (query : NodeId) (op : Operation) : Run NodeId := do
  let field ← operationField query op
  Run.put query field
  Visit.visit d field
  return field

/-- Selects an operation if the oracle wants it. -/
def selectOperation (d : Document) (query : NodeId) (op : Operation) : Selecting Unit := do
  if ← Selecting.run (Run.askYesNo ("Visit path " ++ op.text ++ "?")) then
    Selecting.run (Run.log .info .conversion ("Visiting path " ++ op.text))
    let field ← Selecting.run (visitOperation d query op)
    Selecting.select (some field)
  else
    Selecting.run (Run.log .info .conversion ("Skipping path " ++ op.text))

/-- The selections of the operations that the oracle wants. -/
def selection (d : Document) (config : Config) : Run (List SelectionLine) := do
  let query ← newQuery config
  let operations ← Run.lift (wantedOperations d config)
  selecting (operations.forM (selectOperation d query))

/-- The text of a conversion. -/
def run (mode : Mode) (d : Document) (config : Config) : Run String :=
  match mode with
  | .definitions => do return (← definitions d config).render config
  | .selection => do return SelectionLine.renderAll (← selection d config)

/-- The state before a conversion. -/
def start (oracle : Oracle) : Context := { oracle := oracle }

end Conversion

end ApiGraph
