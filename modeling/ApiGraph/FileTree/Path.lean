import ApiGraph.Document.Pointer
import ApiGraph.Text.Utf8

/-!
# Paths

A path names a file or a directory from the root or from a working directory. It is kept as it is
given, apart from empty components and single dots, which change nothing: where two dots lead is only
known in a file tree. A half of a pair can be in a name where it stands for a byte.

* `Place` — where something is in a file tree, by the components from the root;
* `Path`, `Path.ofText` — a path as it is given;
* `Path.text`, `Path.name`, `Path.extension`, `Path.parent` — its parts;
* `Path.flatten` — the path from the root in which two dots take back a component.
-/

namespace ApiGraph

/-- Where something is, by the components from the root; the empty place is the root. -/
abbrev Place := List String

namespace Place

/-- The places around a place, the outermost first, without the root and the place itself. -/
def above : Place → List Place
  | [] => []
  | [_] => []
  | c :: rest => [c] :: (above rest).map (c :: ·)

/-- A place as a text, seen from the root. -/
def text (p : Place) : String := "/" ++ "/".intercalate p

end Place

/-- A path as it is given. -/
structure Path where
  /-- How the root is written where the path starts: with a slash or two, or not at all. -/
  root : String := ""
  /-- The components, the outermost first, without empty ones and single dots. -/
  parts : List String := []
deriving DecidableEq, Inhabited, Repr

namespace Path

/-- Whether a component changes nothing. -/
def isIdle (component : String) : Bool := component = "" || component = "."

/-- How the root is written at the start of a text. Two slashes are kept apart from one, but more of
them are not. -/
def rootOf : List Char → String
  | '/' :: '/' :: '/' :: _ => "/"
  | '/' :: '/' :: _ => "//"
  | '/' :: _ => "/"
  | _ => ""

/-- The path that a text names. -/
def ofText (text : String) : Path :=
  { root := rootOf text.toList
    parts := (Pointer.segments text).filter fun c => !isIdle c }

/-- Whether a text can only name a directory: whether it ends in a slash or a single dot. -/
def asksDirectory (text : String) : Bool := isIdle (Pointer.lastSegment text)

/-- A path as a text. -/
def text (p : Path) : String :=
  if p.root = "" && p.parts.isEmpty then "." else p.root ++ "/".intercalate p.parts

/-- Whether the path starts at the root. -/
def absolute (p : Path) : Bool := p.root ≠ ""

/-- Whether something can be at a path: no name holds a null character, or a half of a pair that
stands for no byte. -/
def isNameable (p : Path) : Bool :=
  p.parts.all fun c => (Text.codePoints c).all fun n =>
    n ≠ 0 && (!Text.isHalf n || (Utf8.byteOfHalf? n).isSome)

/-- The number of bytes of a text that is a name or a path. -/
def byteCount (s : String) : Nat :=
  (Utf8.encode (Text.codePoints s)).length

/-- The last component. -/
def name (p : Path) : String := p.parts.getLastD ""

/-- The path without its last component. -/
def parent (p : Path) : Path := { p with parts := p.parts.dropLast }

/-- What follows the last point of a file name, the point included; nothing when the name starts or
ends with its only point. -/
def extension (p : Path) : String :=
  let reversed := p.name.toList.reverse
  let last := reversed.takeWhile (· != '.')
  match reversed.drop last.length with
  | '.' :: _ :: _ => if last.isEmpty then "" else String.ofList ('.' :: last.reverse)
  | _ => ""

/-- Where a path starts, seen from a working directory. -/
def start (base : Place) (p : Path) : Place := if p.absolute then [] else base

/-- Adds a component, of which two dots take the last one back. The components are held in
reverse. -/
def push (reversed : List String) (component : String) : List String :=
  if component = ".." then reversed.tail else component :: reversed

/-- The path from the root that a path stands for in a working directory, when two dots take back
the component before them. -/
def flatten (base : Place) (p : Path) : Path :=
  { root := "/", parts := (p.parts.foldl push (p.start base).reverse).reverse }

/-! ## Sanity checks -/

example : ofText "./a//../b/" = { parts := ["a", "..", "b"] } := by decide +kernel
example : (ofText "./a//../b").flatten ["w"] = { root := "/", parts := ["w", "b"] } := by
  decide +kernel
example : ["//", "///a", "//a/", "", "./"].map (fun s => (ofText s).text) =
    ["//", "/a", "//a", ".", "."] := by decide +kernel
example : byteCount (Text.ofCodePoints [0xdcff, 0xe9]) = 3 := by decide +kernel
example : (ofText "dir/a.tar.JSON").extension = ".JSON" := by decide +kernel
example : (ofText "dir/.json").extension = "" := by decide +kernel

end Path

end ApiGraph
