import ApiGraph.Number.Binary64
import ApiGraph.OrderedMap

/-!
# JSON values

Values keep what a document says: members in the order in which they stand, and whole numbers apart
from fractional ones.

* `Json` — the values; an object is the list of its members, each key once;
* `Json.Members` — the members of an object;
* `Json.truthy` — whether a value counts as given: null, false, zero and empty values do not;
* `Json.size`, `Json.depth`, `Json.count` — measures by structural recursion.
-/

namespace ApiGraph

/-- A JSON value. -/
inductive Json where
  | null
  | bool (b : Bool)
  | int (n : Int)
  | float (x : Binary64)
  | str (s : String)
  | arr (items : List Json)
  | obj (members : List (String × Json))
deriving Inhabited, Repr

namespace Json

/-! ## Members -/

/-- The members of an object, in order. -/
abbrev Members := OrderedMap String Json

/-- The members of an object. -/
def members? : Json → Option Members
  | .obj ms => some ms
  | _ => none

/-- The value of a key of an object; nothing for a value that is not an object. -/
def get? (key : String) : Json → Option Json
  | .obj ms => OrderedMap.get? key ms
  | _ => none

/-- Whether the value is an object. -/
def isObject : Json → Bool
  | .obj _ => true
  | _ => false

/-- Whether the value is null. -/
def isNull : Json → Bool
  | .null => true
  | _ => false

/-- Whether the value is the given text. -/
def isText (text : String) : Json → Bool
  | .str s => s == text
  | _ => false

/-- Whether the value can be a member of a set: arrays and objects can not. -/
def isHashable : Json → Bool
  | .arr _ => false
  | .obj _ => false
  | _ => true

/-- Whether a value counts as given. Null, false, zero, and the empty text, array and object do
not. -/
def truthy : Json → Bool
  | .null => false
  | .bool b => b
  | .int n => n != 0
  | .float x => !x.isZero
  | .str s => s != ""
  | .arr items => !items.isEmpty
  | .obj members => !members.isEmpty

/-- The value itself if it counts as given, and the other one if not. -/
def orElse (v other : Json) : Json := if v.truthy then v else other

/-! ## Measures -/

mutual

/-- The number of values in a value, itself included. -/
def size : Json → Nat
  | .arr items => sizeItems items + 1
  | .obj members => sizeMembers members + 1
  | _ => 1

/-- The number of values in the items of an array. -/
def sizeItems : List Json → Nat
  | [] => 0
  | x :: xs => size x + sizeItems xs

/-- The number of values in the members of an object. -/
def sizeMembers : List (String × Json) → Nat
  | [] => 0
  | (_, v) :: ms => size v + sizeMembers ms

end

mutual

/-- The greatest number of values on a path downwards from a value, itself included. -/
def depth : Json → Nat
  | .arr items => depthItems items + 1
  | .obj members => depthMembers members + 1
  | _ => 1

/-- The depth of the deepest item. -/
def depthItems : List Json → Nat
  | [] => 0
  | x :: xs => max (depth x) (depthItems xs)

/-- The depth of the deepest member. -/
def depthMembers : List (String × Json) → Nat
  | [] => 0
  | (_, v) :: ms => max (depth v) (depthMembers ms)

end

mutual

/-- How many members with a given key there are in a value, at any depth. -/
def count (key : String) : Json → Nat
  | .arr items => countItems key items
  | .obj members => countMembers key members
  | _ => 0

/-- How many members with a given key there are in the items of an array. -/
def countItems (key : String) : List Json → Nat
  | [] => 0
  | x :: xs => count key x + countItems key xs

/-- How many members with a given key there are in the members of an object. -/
def countMembers (key : String) : List (String × Json) → Nat
  | [] => 0
  | (k, v) :: ms => (if k = key then 1 else 0) + count key v + countMembers key ms

end

end Json

end ApiGraph
