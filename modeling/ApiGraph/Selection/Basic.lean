import ApiGraph.Graph.NodeId

/-!
# Selections

The lines of a selection: fields, and fields with a selection of their own in braces.

* `SelectionLine` — one line, with the number of blanks in front and the property it was written
  for;
* `SelectionLine.renderAll` — the text of the lines.
-/

namespace ApiGraph

/-- A line of a selection. -/
inductive SelectionLine where
  /-- A field of a single value. -/
  | leaf (node : NodeId) (indent : Nat) (name : String)
  /-- A field whose selection follows. -/
  | opening (node : NodeId) (indent : Nat) (name : String)
  /-- The end of the selection of a field. -/
  | closing (node : NodeId) (indent : Nat)
deriving DecidableEq, Inhabited, Repr

namespace SelectionLine

/-- Blanks at the start of a line. -/
def blanks (n : Nat) : String := String.ofList (List.replicate n ' ')

/-- The text of a line, with its end. -/
def render : SelectionLine → String
  | .leaf _ indent name => blanks indent ++ name ++ "\n"
  | .opening _ indent name => blanks indent ++ name ++ " \x7b\n"
  | .closing _ indent => blanks indent ++ "\x7d\n"

/-- The text of lines. -/
def renderAll (lines : List SelectionLine) : String := String.join (lines.map render)

end SelectionLine

end ApiGraph
