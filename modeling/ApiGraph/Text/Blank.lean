/-!
# Blank characters

The characters that count as white space, and the removal of them at the ends of a text.

* `isBlank` — the white space characters of the Unicode standard together with the four
  separators `U+001C` to `U+001F`;
* `strip`, `stripEnd` — a text without the blanks at its two ends, or at its end only.
-/

namespace ApiGraph.Text

/-- White space: the Unicode property and the information separators `U+001C` to `U+001F`. -/
def isBlank (c : Char) : Bool :=
  let n := c.toNat
  (0x09 ≤ n && n ≤ 0x0d) || (0x1c ≤ n && n ≤ 0x20) || n == 0x85 || n == 0xa0 || n == 0x1680 ||
    (0x2000 ≤ n && n ≤ 0x200a) || n == 0x2028 || n == 0x2029 || n == 0x202f || n == 0x205f ||
    n == 0x3000

/-- The characters from the first one that is not blank. -/
def dropBlanks (s : List Char) : List Char := s.dropWhile isBlank

/-- The characters up to the last one that is not blank. -/
def dropBlanksEnd (s : List Char) : List Char := (dropBlanks s.reverse).reverse

/-- The text without the blanks at its end. -/
def stripEnd (s : String) : String := String.ofList (dropBlanksEnd s.toList)

/-- The text without the blanks at its two ends. -/
def strip (s : String) : String := String.ofList (dropBlanksEnd (dropBlanks s.toList))

/-! ## Sanity checks -/

example : strip "\u3000 a\tb \u0085" = "a\tb" := by decide +kernel
example : strip "\ufeffa\u200b" = "\ufeffa\u200b" := by decide +kernel

end ApiGraph.Text
