/-!
# Lines of a text

A line ends at a line feed, a carriage return, or the two together.

* `lines` — the lines of a text without their ends; a last line needs no end.
-/

namespace ApiGraph.Text

/-- Splits off the lines; `line` holds the characters of the current line in reverse. -/
def linesFrom (line : List Char) : List Char → List String
  | [] => if line.isEmpty then [] else [String.ofList line.reverse]
  | '\r' :: '\n' :: rest => String.ofList line.reverse :: linesFrom [] rest
  | '\r' :: rest => String.ofList line.reverse :: linesFrom [] rest
  | '\n' :: rest => String.ofList line.reverse :: linesFrom [] rest
  | c :: rest => linesFrom (c :: line) rest

/-- The lines of a text without their ends. -/
def lines (s : String) : List String := linesFrom [] s.toList

/-! ## Sanity checks -/

example : lines "a\r\n\rb" = ["a", "", "b"] := by decide +kernel
example : lines "a\n" = ["a"] := by decide +kernel

end ApiGraph.Text
