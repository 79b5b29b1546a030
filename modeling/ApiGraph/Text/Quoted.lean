import ApiGraph.Text.CodePoint
import ApiGraph.Text.Printable

/-!
# Quoted text

Two ways to write a text between quotes on one line, and a way to write it without halves of pairs.

* `literal` — between single quotes, or between double quotes when the text has a single quote and
  no double one; code points without a printable form are escaped;
* `jsonString` — between double quotes with the escapes of a JSON string; only quotes, backslashes
  and control characters are escaped;
* `escapeHalves` — without quotes, with an escape in place of each half of a pair.
-/

namespace ApiGraph.Text

/-- A digit of the hexadecimal system. -/
def hexDigit (n : Nat) : Char := "0123456789abcdef".toList.getD (n % 16) '0'

/-- The last `width` hexadecimal digits of a number. -/
def hex (width n : Nat) : List Char :=
  (List.range width).reverse.map fun i => hexDigit (n / Nat.pow 16 i)

/-- The escape of a code point: two, four or eight hexadecimal digits, whichever are enough. -/
def escapeCode (n : Nat) : List Char :=
  if n < 0x100 then '\\' :: 'x' :: hex 2 n
  else if n < 0x10000 then '\\' :: 'u' :: hex 4 n
  else '\\' :: 'U' :: hex 8 n

/-- One character of a quoted literal that is no half of a pair. -/
def literalChar (quote c : Char) : List Char :=
  if c == quote || c == '\\' then ['\\', c]
  else if c == '\n' then ['\\', 'n']
  else if c == '\r' then ['\\', 'r']
  else if c == '\t' then ['\\', 't']
  else if isPrintable c then [c]
  else escapeCode c.toNat

/-- One code point of a quoted literal. -/
def literalPoint (quote : Char) (n : Nat) : List Char :=
  if isHalf n then escapeCode n else literalChar quote (Char.ofNat n)

/-- Single quotes, unless they would have to be escaped and double quotes would not. -/
def quoteFor (s : List Char) : Char :=
  if s.contains '\'' && !s.contains '\"' then '\"' else '\''

/-- A text as a quoted literal. -/
def literal (s : String) : String :=
  let quote := quoteFor s.toList
  String.ofList (quote :: ((codePoints s).flatMap (literalPoint quote) ++ [quote]))

/-- One character of a JSON string. -/
def jsonChar (c : Char) : List Char :=
  if c == '\"' || c == '\\' then ['\\', c]
  else if c == '\n' then ['\\', 'n']
  else if c == '\r' then ['\\', 'r']
  else if c == '\t' then ['\\', 't']
  else if c == '\x08' then ['\\', 'b']
  else if c == '\x0c' then ['\\', 'f']
  else if c.toNat < 0x20 then '\\' :: 'u' :: hex 4 c.toNat
  else [c]

/-- A text as a JSON string. -/
def jsonString (s : String) : String :=
  String.ofList ('\"' :: (s.toList.flatMap jsonChar ++ ['\"']))

/-- A text with an escape in place of each half of a pair. -/
def escapeHalves (s : String) : String :=
  String.ofList ((codePoints s).flatMap fun n => if isHalf n then escapeCode n else carry n)

/-! ## Sanity checks -/

example : literal "it's" = "\"it's\"" := by decide +kernel
example : literal "a\n\u200b'\"" = "'a\\n\\u200b\\'\"'" := by decide +kernel
example : literal (ofCodePoints [0x61, 0xd800]) = "'a\\ud800'" := by decide +kernel
example : literal (ofCodePoints [0x10ffff]) = "'\\U0010ffff'" := by decide +kernel
example : escapeHalves (ofCodePoints [0xdc80, 0xe9]) = "\\udc80é" := by decide +kernel
example : jsonString "é\x01\"" = "\"é\\u0001\\\"\"" := by decide +kernel

end ApiGraph.Text
