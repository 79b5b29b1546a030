import ApiGraph.Json.Basic
import ApiGraph.Number.Shortest
import ApiGraph.Text.Quoted

/-!
# Literal text of a JSON value

The form in which messages quote a value, on one line.

* `Json.literal` — `None`, `True`, `False`, numbers, quoted texts, `[…]` and `{…}`;
* `Json.display` — the same, except that a text stands without quotes.
-/

namespace ApiGraph.Json

/-- Texts joined by a comma and a space. -/
def commaSeparated (parts : List String) : String := ", ".intercalate parts

mutual

/-- A value as it is quoted in messages. -/
def literal : Json → String
  | .null => "None"
  | .bool true => "True"
  | .bool false => "False"
  | .int n => toString n
  | .float x => x.text
  | .str s => Text.literal s
  | .arr items => "[" ++ commaSeparated (literals items) ++ "]"
  | .obj members => "\x7b" ++ commaSeparated (memberLiterals members) ++ "\x7d"

/-- The literals of the items of an array. -/
def literals : List Json → List String
  | [] => []
  | x :: xs => literal x :: literals xs

/-- The literals of the members of an object. -/
def memberLiterals : List (String × Json) → List String
  | [] => []
  | (k, v) :: ms => (Text.literal k ++ ": " ++ literal v) :: memberLiterals ms

end

/-- A value as running text: a text itself, and the literal of any other value. -/
def display : Json → String
  | .str s => s
  | v => literal v

end ApiGraph.Json
