import ApiGraph.Document.Pointer
import ApiGraph.Fault

/-!
# Documents

An API description as it was read, in one of its two dialects, and what it declares by name.

* `Document` — a description;
* `Document.lookup` — the declaration that a reference points to;
* `Document.schemas` — the named schemas with their references, in order of declaration.

Nothing promises that a description has the expected form. Where a value has no such form the
result is the fault of form, in the place where the value is first used.
-/

namespace ApiGraph

namespace Json

/-- Whether one text stands somewhere in another. -/
def occurs (part : List Char) : List Char → Bool
  | [] => part.isEmpty
  | c :: rest => part.isPrefixOf (c :: rest) || occurs part rest

/-- Whether a value has a word: an object as a key, an array as an item, a text as a part. -/
def has (word : String) : Json → Attempt Bool
  | .obj members => .ok (OrderedMap.contains word members)
  | .arr items => .ok (items.any (isText word))
  | .str s => .ok (occurs word.toList s.toList)
  | _ => .error .malformed

/-- What a value is made of: the items of an array, the keys of an object, the code points of a
text. -/
def elements : Json → Attempt (List Json)
  | .arr items => .ok items
  | .obj members => .ok ((OrderedMap.keys members).map .str)
  | .str s => .ok ((Text.codePoints s).map fun n => .str (Text.ofCodePoints [n]))
  | _ => .error .malformed

end Json

/-- An API description. -/
structure Document where
  raw : Json
deriving Inhabited, Repr

namespace Document

/-- A description as it was read; nothing at all is the empty one. -/
def ofJson (raw : Json) : Document := ⟨raw.orElse (.obj [])⟩

/-- Whether the description is in the older dialect, with its version under `swagger`. -/
def isSwagger (d : Document) : Attempt Bool := d.raw.has "swagger"

/-! ## References -/

/-- The value at the end of a way of keys. -/
def follow (node : Json) : List String → Option Json
  | [] => some node
  | key :: rest =>
    match node.get? key with
    | some next => follow next rest
    | none => none

/-- The declaration that a reference points to. -/
def lookup (d : Document) (ref : String) : Attempt Json.Members :=
  match Pointer.localKeys? ref with
  | none => .error (.externalReference ref)
  | some keys =>
    match follow d.raw keys with
    | none => .error (.danglingReference ref)
    | some (.obj members) => .ok members
    | some _ => .error (.notADeclaration ref)

/-- The same for a value in the place of a reference. -/
def lookupValue (d : Document) : Json → Attempt Json.Members
  | .str ref => d.lookup ref
  | _ => .error .malformed

/-- The object itself, or the declaration that it refers to. -/
def dereference (d : Document) (value : Json) : Attempt Json.Members :=
  match value with
  | .obj members =>
    match OrderedMap.get? "$ref" members with
    | some ref => d.lookupValue ref
    | none => .ok members
  | _ => .error .malformed

/-! ## Named schemas -/

/-- The members of an object; a value that does not count as given has none. -/
def membersOf (value : Json) : Attempt Json.Members :=
  match value with
  | .obj members => .ok members
  | v => if v.truthy then .error .malformed else .ok []

/-- The value of a key of an object, null if it has none. -/
def field (key : String) (members : Json.Members) : Json := (OrderedMap.get? key members).getD .null

/-- The named schemas with their references, in order of declaration. -/
def schemas (d : Document) : Attempt (OrderedMap String Json) := do
  let swagger ← d.isSwagger
  let top ← expect d.raw.members?
  if swagger then
    let declared ← membersOf (field "definitions" top)
    pure (declared.map fun (name, schema) => ("#/definitions/" ++ Pointer.escape name, schema))
  else
    let components ← membersOf (field "components" top)
    let declared ← membersOf (field "schemas" components)
    pure (declared.map fun (name, schema) =>
      ("#/components/schemas/" ++ Pointer.escape name, schema))

end Document

end ApiGraph
