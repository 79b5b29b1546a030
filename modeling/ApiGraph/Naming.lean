import ApiGraph.Document.Pointer
import ApiGraph.Text.CodePoint

/-!
# Names

How names of an API description become names of GraphQL: `[_A-Za-z][_0-9A-Za-z]*`.

* `pascalCase` — the words of a text, each with a capital first letter, joined together;
* `legalName` — any text as a legal name, one underscore for each code point that is not allowed;
* `typeName`, `fieldName`, `selectedName`, `operationName` — the names of types, fields and
  arguments, fields in selections, and operations.
-/

namespace ApiGraph

/-- A small letter of the Latin alphabet without accents. -/
def isSmall (c : Char) : Bool := 'a' ≤ c && c ≤ 'z'

/-- A capital letter of the Latin alphabet without accents. -/
def isCapital (c : Char) : Bool := 'A' ≤ c && c ≤ 'Z'

/-- A decimal digit `0` to `9`. -/
def isDecimal (c : Char) : Bool := '0' ≤ c && c ≤ '9'

/-- A small letter as a capital; other characters stay. -/
def capital (c : Char) : Char := if isSmall c then Char.ofNat (c.toNat - 32) else c

/-- A capital letter as a small one; other characters stay. -/
def small (c : Char) : Char := if isCapital c then Char.ofNat (c.toNat + 32) else c

/-- Joins words: letters and digits stay, all else is dropped, and a small letter becomes a capital
where a word starts. A capital letter always starts a word; a small one starts a word unless a
letter stands right before it, which `inWord` tells. -/
def joinWords (inWord : Bool) : List Char → List Char
  | [] => []
  | c :: rest =>
    if isSmall c then (if inWord then c else capital c) :: joinWords true rest
    else if isCapital c then c :: joinWords true rest
    else if isDecimal c then c :: joinWords false rest
    else joinWords false rest

/-- The words of a text in one, each with a capital first letter: `first_name` and `firstName` both
become `FirstName`. -/
def pascalCase (s : String) : String := String.ofList (joinWords false s.toList)

/-- Whether a character may stand in a name. -/
def isNameChar (c : Char) : Bool := c == '_' || isDecimal c || isSmall c || isCapital c

/-- Whether a text is a legal name. -/
def isLegalName (s : List Char) : Bool :=
  match s with
  | [] => false
  | c :: _ => !isDecimal c && s.all isNameChar

/-- A text with an underscore for each character that a name may not have, and one more in front
when the first character would be a digit or missing. -/
def legalChars (s : List Char) : List Char :=
  match s.map fun c => if isNameChar c then c else '_' with
  | [] => ['_']
  | c :: rest => if isDecimal c then '_' :: c :: rest else c :: rest

/-- A text as a legal name. -/
def legalName (s : String) : String := String.ofList (legalChars (Text.characters s))

/-- The type name for a plain schema name: its words joined, or the name itself when it has no
words. -/
def typeNameOfKey (key : String) : String :=
  let words := pascalCase key
  legalName (if words = "" then key else words)

/-- The type name for a reference or a plain schema name, taken from the last segment of the
pointer. -/
def typeName (ref : String) : String := typeNameOfKey (Pointer.unescape (Pointer.lastSegment ref))

/-- The name of a field or an argument. -/
def fieldName (name : String) : String := legalName name

/-- The name of a field in a selection; a leading at sign is left out. -/
def selectedName (name : String) : String :=
  match Text.characters name with
  | '@' :: rest => String.ofList (legalChars rest)
  | cs => String.ofList (legalChars cs)

/-- A method in small letters. The Kelvin sign is a form of `K`, and the dotted capital `I` is
written as two characters. -/
def smallMethod (method : String) : String :=
  String.ofList (method.toList.flatMap fun c =>
    if c == '\u212a' then ['k'] else if c == '\u0130' then ['i', '\u0307'] else [small c])

/-- The name of an operation: its identifier when it has one, and otherwise the method followed by
the words of the path. -/
def operationName (method path : String) (identifier : Option String) : String :=
  match identifier with
  | some id => if id = "" then fromPath else legalName id
  | none => fromPath
where
  /-- The method followed by the words of the path. -/
  fromPath : String := legalName (smallMethod method ++ pascalCase path)

/-! ## Sanity checks -/

example : pascalCase "first_name" = "FirstName" := by decide +kernel
example : pascalCase "first 3rows" = "First3Rows" := by decide +kernel
example : typeName "#/components/schemas/pet_owner" = "PetOwner" := by decide +kernel
example : typeName "#/definitions/~1" = "_" := by decide +kernel
example : fieldName "1st-item" = "_1st_item" := by decide +kernel
example : selectedName "@type" = "type" := by decide +kernel
example : operationName "GET" "/pets/\x7bpetId\x7d" none = "getPetsPetId" := by decide +kernel

end ApiGraph
