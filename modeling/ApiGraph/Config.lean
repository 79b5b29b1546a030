import ApiGraph.Fault

/-!
# Configuration

The settings of a conversion. They are taken over as they are given; a setting of an unexpected form
shows only where it is used.

* `Config` — the settings with their usual values;
* `Config.set`, `Config.ofMembers` — the settings given by the members of an object, unknown ones
  ignored, one after the other;
* `Config.toMembers` — all settings as members.

Some names are reserved. `__dict__` gives all settings at once and forgets those before it,
`__class__` and `__weakref__` can not be given, and under `to_dict` settings hide the list of all
settings.
-/

namespace ApiGraph

/-- Settings of a conversion. -/
structure Config where
  /-- Whether the output starts with a comment. -/
  comment : Json := .bool true
  /-- What stands before each field of a type. -/
  fieldIndent : Json := .str "  "
  /-- The scalar for each primitive type. -/
  scalarTypes : Option Json := some (.obj [("string", .str "String"), ("integer", .str "Int"),
    ("number", .str "Float"), ("boolean", .str "Boolean")])
  /-- The scalar for values of any form. -/
  jsonScalar : Json := .str "JSON"
  /-- The name of the type that holds the operations. -/
  queryType : Json := .str "Query"
  /-- The methods whose operations are taken. -/
  methods : Option Json := some (.arr [.str "get"])
  /-- Whether the settings can be listed. -/
  listed : Bool := true
deriving Inhabited, Repr

namespace Config

/-- The settings when exactly the given ones are there. Tables of scalars and methods are missing
unless they are given; the other settings have their usual values then. -/
def exactly (given : Json.Members) : Config :=
  let usual : Config := {}
  { comment := (OrderedMap.get? "add_generation_comment" given).getD usual.comment
    fieldIndent := (OrderedMap.get? "field_indent" given).getD usual.fieldIndent
    scalarTypes := OrderedMap.get? "scalar_types" given
    jsonScalar := (OrderedMap.get? "json_scalar" given).getD usual.jsonScalar
    queryType := (OrderedMap.get? "query_type_name" given).getD usual.queryType
    methods := OrderedMap.get? "methods" given
    listed := !OrderedMap.contains "to_dict" given }

/-- Changes the setting of a given name. A missing table stays missing, and names that are no
settings change nothing. -/
def set (c : Config) (name : String) (value : Json) : Attempt Config :=
  if name = "add_generation_comment" then .ok { c with comment := value }
  else if name = "field_indent" then .ok { c with fieldIndent := value }
  else if name = "scalar_types" then
    .ok { c with scalarTypes := c.scalarTypes.map fun _ => value }
  else if name = "json_scalar" then .ok { c with jsonScalar := value }
  else if name = "query_type_name" then .ok { c with queryType := value }
  else if name = "methods" then .ok { c with methods := c.methods.map fun _ => value }
  else if name = "to_dict" then .ok { c with listed := false }
  else if name = "__dict__" then (expect value.members?).map exactly
  else if name = "__class__" || name = "__weakref__" then .error .malformed
  else .ok c

/-- Changes the settings of the given members, in their order. -/
def setAll (c : Config) : List (String × Json) → Attempt Config
  | [] => .ok c
  | (name, value) :: rest => do
    let c ← c.set name value
    c.setAll rest

/-- The usual settings with those of the given members changed. -/
def ofMembers (members : Json.Members) : Attempt Config := setAll {} members

/-- All settings by name, if they can be listed and none is missing. -/
def toMembers (c : Config) : Attempt Json.Members := do
  unless c.listed do throw .malformed
  let scalarTypes ← expect c.scalarTypes
  let methods ← expect c.methods
  pure [("add_generation_comment", c.comment), ("field_indent", c.fieldIndent),
    ("scalar_types", scalarTypes), ("json_scalar", c.jsonScalar),
    ("query_type_name", c.queryType), ("methods", methods)]

/-! ## Sanity checks -/

example : ofMembers [("__class__", .null)] matches .error .malformed := by decide +kernel
example : (ofMembers [("unknown", .null)]).toOption.map (·.listed) = some true := by decide +kernel

end Config

end ApiGraph
