import ApiGraph.OrderedMap
import ApiGraph.Fault
import ApiGraph.FileTree.Path

/-!
# File trees

Directories and text files by place, and where paths lead.

* `FileTree`, `FileTree.get?` — what there is at each place; the root is always a directory;
* `FileTree.walk` — the place to which components lead: each of them is looked up in a directory, and
  two dots lead to the directory around;
* `FileTree.locate`, `FileTree.stat` — where a path leads, and what is there;
* `Obstacle` — why a path leads nowhere.

Names are bytes. A place holds each of them as the text that is read from its bytes, so that components
with the same bytes lead to one place, however a path spells them. A component has at most 255 bytes, a
path fewer than 4096, and neither holds anything that no name can hold.
-/

namespace ApiGraph

/-- What there is at a place. -/
inductive Entry where
  | directory
  | file (text : String)
deriving DecidableEq, Inhabited, Repr

/-- Directories and files by place. -/
structure FileTree where
  entries : OrderedMap Place Entry := []
deriving DecidableEq, Inhabited, Repr

/-- Why a path leads nowhere, or why nothing new can be made there. -/
inductive Obstacle where
  /-- A component that is not there. -/
  | missing
  /-- A file where a directory is expected. -/
  | notDirectory
  | tooLong
  /-- Something that no name can hold. -/
  | unnameable
  /-- Something is there already. -/
  | taken
deriving DecidableEq, Inhabited, Repr

namespace FileTree

/-- What there is at a place. -/
def get? (t : FileTree) (p : Place) : Option Entry :=
  if p = [] then some .directory else OrderedMap.get? p t.entries

/-- Puts something at a place. -/
def put (t : FileTree) (p : Place) (e : Entry) : FileTree :=
  { entries := OrderedMap.insert p e t.entries }

/-- Takes away what is at a place. -/
def erase (t : FileTree) (p : Place) : FileTree :=
  { entries := t.entries.filter fun entry => entry.1 ≠ p }

@[simp] theorem get?_root (t : FileTree) : t.get? [] = some .directory := rfl

@[simp] theorem get?_put_self (t : FileTree) {p : Place} (h : p ≠ []) (e : Entry) :
    (t.put p e).get? p = some e := by
  simp [get?, put, h]

theorem get?_put_of_ne (t : FileTree) {p q : Place} (h : q ≠ p) (e : Entry) :
    (t.put p e).get? q = t.get? q := by
  simp [get?, put, OrderedMap.get?_insert_of_ne h]

@[simp] theorem get?_erase_self (t : FileTree) {p : Place} (h : p ≠ []) :
    (t.erase p).get? p = none := by
  rw [get?, if_neg h, OrderedMap.get?_eq_none_iff]
  simp [erase, OrderedMap.keys]

theorem get?_erase_of_ne (t : FileTree) {p q : Place} (h : q ≠ p) :
    (t.erase p).get? q = t.get? q := by
  simp only [get?, erase]
  split
  · rfl
  · induction t.entries with
    | nil => rfl
    | cons entry rest ih =>
      obtain ⟨k, e⟩ := entry
      by_cases hk : k = p
      · subst hk
        simpa [OrderedMap.get?_cons, Ne.symm h] using ih
      · simp only [List.filter_cons, hk, ne_eq, not_false_eq_true, decide_true, if_true,
          OrderedMap.get?_cons]
        rw [ih]

/-! ## Where paths lead -/

/-- The greatest number of bytes in a component. -/
def nameLimit : Nat := 255

/-- The number of bytes that a path does not reach. -/
def pathLimit : Nat := 4096

/-- The place that one component leads to from a place, which has to be a directory. -/
def descend (t : FileTree) (here : Place) (component : String) : Except Obstacle Place :=
  match t.get? here with
  | none => .error .missing
  | some (.file _) => .error .notDirectory
  | some .directory =>
    if component = ".." then .ok here.dropLast
    else if nameLimit < Path.byteCount component then .error .tooLong
    else .ok (here ++ [Utf8.normal component])

/-- The place that components lead to from a place. There may be nothing at it yet. -/
def walk (t : FileTree) (here : Place) : List String → Except Obstacle Place
  | [] => .ok here
  | component :: rest => do
    let next ← t.descend here component
    t.walk next rest

/-- The obstacle that lies in the text of a path. -/
def checkText (p : Path) : Except Obstacle Unit :=
  if !p.isNameable then .error .unnameable
  else if pathLimit ≤ Path.byteCount p.text then .error .tooLong
  else .ok ()

/-- The place that a path leads to from a working directory. -/
def locate (t : FileTree) (base : Place) (p : Path) : Except Obstacle Place := do
  checkText p
  t.walk (p.start base) p.parts

/-- The place that a path leads to, and what is there. -/
def stat (t : FileTree) (base : Place) (p : Path) : Except Obstacle (Place × Entry) := do
  let place ← t.locate base p
  match t.get? place with
  | some e => pure (place, e)
  | none => throw .missing

/-- What there is at a path. -/
def lookup? (t : FileTree) (base : Place) (p : Path) : Option Entry :=
  match t.stat base p with
  | .ok (_, e) => some e
  | .error _ => none

/-- The text of the file at a path. -/
def textAt (t : FileTree) (base : Place) (p : Path) : Attempt String :=
  match t.lookup? base p with
  | some (.file text) => .ok text
  | _ => .error .malformed

/-- The text of the file that a text names. -/
def textNamed (t : FileTree) (base : Place) (name : String) : Attempt String :=
  if Path.asksDirectory name then .error .malformed else t.textAt base (Path.ofText name)

end FileTree

end ApiGraph
