import ApiGraph.Config
import ApiGraph.Graph.NodeId
import ApiGraph.Json.Literal

/-!
# Type definitions

What a text of type definitions is made of, and how it is written.

* `TypeExpr` — a name, or a list of some type;
* `Argument`, `Field`, `TypeBlock` — a type with its fields and their arguments;
* `Definitions` — a whole text: a comment, the scalar for values of any form, and the types;
* `defaultText?` — how a default value is written;
* `Definitions.render` — the text.

Names come from the configuration too, which may hold any value; such a name is written as running
text. Each part keeps the node that it was written for.
-/

namespace ApiGraph

/-- A type expression. -/
inductive TypeExpr where
  | named (name : Json)
  | list (inner : TypeExpr)
deriving Inhabited, Repr

namespace TypeExpr

/-- The name inside all lists. -/
def innermost : TypeExpr → Json
  | .named name => name
  | .list inner => inner.innermost

/-- A type expression as running text. -/
def text : TypeExpr → String
  | .named name => name.display
  | .list inner => "[" ++ inner.text ++ "]"

/-- Whether a type expression can be joined to a text: a bare name has to be one itself. -/
def isText : TypeExpr → Bool
  | .named (.str _) => true
  | .named _ => false
  | .list _ => true

end TypeExpr

/-- How a default value is written: numbers as they are, texts in quotes. Other values are not. -/
def defaultText? : Json → Option String
  | .int n => some (Json.int n).literal
  | .float x => some x.text
  | .str s => some (Text.jsonString s)
  | _ => none

/-- What follows a type: whether a value is required, and its default. -/
def modifiers (required : Bool) (default : Json) : String :=
  (if required then "!" else "") ++
    match defaultText? default with
    | some text => " = " ++ text
    | none => ""

/-- An argument of a field. -/
structure Argument where
  node : NodeId
  name : String
  type : TypeExpr
  required : Bool
  default : Json
deriving Inhabited, Repr

namespace Argument

/-- An argument in a list of arguments. -/
def text (a : Argument) : String := a.name ++ ": " ++ a.type.text ++ modifiers a.required a.default

end Argument

/-- A field of a type. -/
structure Field where
  node : NodeId
  name : String
  arguments : List Argument
  type : TypeExpr
  required : Bool
  default : Json
deriving Inhabited, Repr

namespace Field

/-- The arguments of a field in brackets, nothing if there are none. -/
def argumentText (arguments : List Argument) : String :=
  if arguments.isEmpty then ""
  else "(" ++ Json.commaSeparated (arguments.map Argument.text) ++ ")"

/-- The line of a field. -/
def text (f : Field) : String :=
  f.name ++ argumentText f.arguments ++ ": " ++ f.type.text ++ modifiers f.required f.default

end Field

/-- A type with its fields. -/
structure TypeBlock where
  node : NodeId
  name : Json
  fields : List Field
deriving Inhabited, Repr

namespace TypeBlock

/-- The lines of a type, each field after the indentation, and an empty line. -/
def render (indent : String) (b : TypeBlock) : String :=
  "type " ++ b.name.display ++ " \x7b\n" ++
    String.join (b.fields.map fun f => indent ++ f.text ++ "\n") ++ "\x7d\n\n"

end TypeBlock

/-- A text of type definitions. -/
structure Definitions where
  /-- Whether the text starts with a comment. -/
  comment : Bool
  /-- The scalar for values of any form, if one of the types uses it. -/
  scalar : Option Json
  types : List TypeBlock
deriving Inhabited, Repr

namespace Definitions

/-- The comment at the start of a text. -/
def commentLine : String := "# Generated by oas_to_graphql 0.1.0\n\n"

/-- The text of a list of types. -/
def renderTypes (config : Config) (types : List TypeBlock) : String :=
  String.join (types.map (TypeBlock.render config.fieldIndent.display))

/-- The text. -/
def render (config : Config) (d : Definitions) : String :=
  (if d.comment then commentLine else "") ++
    (match d.scalar with
      | some name => "scalar " ++ name.display ++ "\n\n"
      | none => "") ++
    renderTypes config d.types

end Definitions

end ApiGraph
