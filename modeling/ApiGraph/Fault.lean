import ApiGraph.Json.Literal

/-!
# Faults

Everything that ends a run early, by cause.

* `Fault` — the causes, with what their messages speak of;
* `Fault.Category`, `Fault.category` — the families to which callers react;
* `Fault.message?` — the wording. A value of a form that nothing checks has no message of its own.
-/

namespace ApiGraph

/-- What a node is asked for before it is ready. -/
inductive NodeQuery where
  | identity
  | dependencies
deriving DecidableEq, Inhabited, Repr

namespace NodeQuery

/-- The word for the query in messages. -/
def word : NodeQuery → String
  | .identity => "identity"
  | .dependencies => "dependencies"

end NodeQuery

/-- Why a run ends early. -/
inductive Fault where
  /-- A reference that does not point into the document. -/
  | externalReference (ref : String)
  /-- A reference on whose way a key is missing. -/
  | danglingReference (ref : String)
  /-- A reference to a value that is not an object. -/
  | notADeclaration (ref : String)
  /-- A value where a schema is expected; `owner` is the nearest name around it. -/
  | notASchema (value : Json) (owner : String)
  /-- A composition by other words than `allOf` and `oneOf`. -/
  | unsupportedComposition (keys : List String) (owner : String)
  | arrayWithoutItems (owner : String)
  /-- A list of types that leaves none or several besides null. -/
  | ambiguousType (types : List Json) (owner : String)
  | unknownType (type : Json) (owner : String)
  | emptyOneOf (owner : String)
  /-- A node of no kind that can be visited. -/
  | unknownNodeKind (kind : String)
  /-- A replay that is asked once more after `count` answers. -/
  | recordingExhausted (count : Nat) (question : String)
  | emptyRecording
  | emptyRecordingFile (name : String)
  | badRecordingLine (number : Nat) (line : String)
  /-- A destination that is a directory. -/
  | destinationIsDirectory (name path : String)
  /-- A node that is asked for something before it was visited. -/
  | notVisited (node : String) (query : NodeQuery)
  | unknownInputType (inputType : Json)
  | noDefinition (node : String)
  | noTypeExpression (node : String)
  | notSelectable (node : String)
  /-- The typed input ended at a question. -/
  | inputEnded
  /-- A value that does not have the form in which it is used. -/
  | malformed
  /-- A walk that came back to where it was without end. -/
  | endless
deriving Inhabited, Repr

namespace Fault

/-- The families of causes. -/
inductive Category where
  | reference
  | schemaShape
  | recordingExhausted
  | recordingFormat
  | outputConflict
  | graphState
  | choice
  | generation
  | aborted
  | unchecked
deriving DecidableEq, Inhabited, Repr

/-- The family of a cause. -/
def category : Fault → Category
  | externalReference _ | danglingReference _ | notADeclaration _ => .reference
  | notASchema _ _ | unsupportedComposition _ _ | arrayWithoutItems _ | ambiguousType _ _
  | unknownType _ _ | emptyOneOf _ | unknownNodeKind _ => .schemaShape
  | recordingExhausted _ _ | emptyRecording | emptyRecordingFile _ => .recordingExhausted
  | badRecordingLine _ _ => .recordingFormat
  | destinationIsDirectory _ _ => .outputConflict
  | notVisited _ _ => .graphState
  | unknownInputType _ => .choice
  | noDefinition _ | noTypeExpression _ | notSelectable _ => .generation
  | inputEnded => .aborted
  | malformed | endless => .unchecked

namespace Category

/-- Whether faults of the family are reported to the operator by their message. -/
def isReported : Category → Bool
  | .reference | .schemaShape | .recordingExhausted | .recordingFormat | .outputConflict
  | .graphState => true
  | .choice | .generation | .aborted | .unchecked => false

end Category

/-- Where in the description a fault lies. -/
def under (owner : String) : String := " (under " ++ owner ++ ")"

/-- The wording of a fault. -/
def message? : Fault → Option String
  | externalReference ref =>
    some ("Unsupported $ref '" ++ ref ++ "': only local references are supported")
  | danglingReference ref => some ("Could not resolve $ref '" ++ ref ++ "'")
  | notADeclaration ref => some ("$ref '" ++ ref ++ "' does not point to a schema declaration")
  | notASchema value owner => some ("Unsupported schema kind: " ++ value.literal ++ under owner)
  | unsupportedComposition keys owner =>
    some ("Unsupported composed schema: " ++ (Json.arr (keys.map Json.str)).literal ++ under owner)
  | arrayWithoutItems owner => some ("Unsupported schema kind: array without items" ++ under owner)
  | ambiguousType types owner =>
    some ("Unsupported schema kind: type " ++ (Json.arr types).literal ++ under owner)
  | unknownType type owner =>
    some ("Unsupported schema kind: type '" ++ type.display ++ "'" ++ under owner)
  | emptyOneOf owner => some ("Unsupported schema kind: empty oneOf" ++ under owner)
  | unknownNodeKind kind => some ("Unsupported node kind: " ++ kind)
  | recordingExhausted count question =>
    some ("Recording exhausted after " ++ toString count ++ " answers at: " ++
      Text.literal question ++ ". The recording was made against a different exploration path.")
  | emptyRecording => some "Recording is empty"
  | emptyRecordingFile name => some ("Recording '" ++ name ++ "' is empty")
  | badRecordingLine number line =>
    some ("Invalid recording line " ++ toString number ++ ": '" ++ line ++
      "' (expected 'y', 'n' or 's')")
  | destinationIsDirectory name path =>
    some ("Could not overwrite destination file '" ++ name ++ "': [Errno 21] Is a directory: " ++
      Text.literal path)
  | notVisited node query =>
    some (node ++ " should have been visited before asking for " ++ query.word)
  | unknownInputType inputType =>
    some ("Input type needs to be one of prompt, record, skip, not: " ++ inputType.display)
  | noDefinition node => some ("Cannot generate a type definition for " ++ node)
  | noTypeExpression node => some ("Cannot render a type expression for " ++ node)
  | notSelectable node => some ("Cannot select " ++ node)
  | inputEnded | malformed | endless => none

end Fault

/-- A computation that ends with a value or a fault. -/
abbrev Attempt := Except Fault

/-- The value that is there, and a fault of form when there is none. -/
def expect {α : Type} : Option α → Attempt α
  | some a => .ok a
  | none => .error .malformed

end ApiGraph
