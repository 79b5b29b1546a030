import ApiGraph.FileTree.Basic

/-!
# Changes of file trees

What was changed before a fault stays changed.

* `Changing` — a change of a tree that may end with a fault;
* `FileTree.ensureDirectory` — makes a directory with those above it that are missing, as deep as this can
  go;
* `FileTree.delete` — deletes a file if it is there;
* `FileTree.writeWithin` — writes a file: what was there is deleted first, missing directories above it
  are made, and then the file is there with exactly the new text;
* `FileTree.makeDirectory`, `FileTree.write` — the same with the usual depth.

A directory is made by a call that calls itself for the directory above. How deep this goes is up to the
stack of the caller, so it is a number that is given to every change.

The text is written under a longer name beside the file before the file is replaced, so the name and
the place of a file that is written have to leave room for it.
-/

namespace ApiGraph

/-- A change of a tree that may end with a fault. -/
abbrev Changing := EStateM Fault FileTree

namespace FileTree

/-- The tree with a directory at a path that leads to nothing yet. -/
def withDirectory (t : FileTree) (base : Place) (p : Path) : Except Obstacle FileTree := do
  checkText p
  let around ← t.walk (p.start base) p.parent.parts
  match p.parts.getLast? with
  | none => throw .taken
  | some name =>
    let place ← t.descend around name
    if (t.get? place).isSome then throw .taken
    pure (t.put place .directory)

/-- Makes one directory. Gives the obstacle if there is one. -/
def makeOne (base : Place) (p : Path) : Changing (Option Obstacle) := fun t =>
  match t.withDirectory base p with
  | .ok t => .ok none t
  | .error o => .ok (some o) t

/-- Goes on if there is a directory at a path. -/
def expectDirectory (base : Place) (p : Path) : Changing Unit := do
  unless (← get).lookup? base p = some .directory do throw .malformed

/-- Makes a directory that may be there already, with at most so many levels. The components of its
path are given in reverse. -/
def ensureReversed (base : Place) (root : String) : Nat → List String → Changing Unit
  | 0, _ => throw .malformed
  | _ + 1, [] => expectDirectory base ⟨root, []⟩
  | levels + 1, name :: above => do
    let p : Path := ⟨root, (name :: above).reverse⟩
    match ← makeOne base p with
    | none => return
    | some .missing =>
      ensureReversed base root levels above
      match ← makeOne base p with
      | none => return
      | some _ => expectDirectory base p
    | some _ => expectDirectory base p

/-- Makes a directory that may be there already, with those above it. For each of them the making goes one
level deeper, which it can do only so often. -/
def ensureDirectory (depth : Nat) (base : Place) (p : Path) : Changing Unit :=
  ensureReversed base p.root (depth + 1) p.parts.reverse

/-- Deletes a file if it is there. A directory is not deleted. -/
def delete (base : Place) (p : Path) : Changing Unit := fun t =>
  match t.stat base p with
  | .ok (place, .file _) => .ok () (t.erase place)
  | .ok (_, .directory) => .error (.destinationIsDirectory p.name p.text) t
  | .error .tooLong => .error .malformed t
  | .error _ => .ok () t

/-- How many bytes longer the name is under which a text is written first. -/
def temporaryExtra : Nat := 14

/-- Whether there is room for the longer name of a file at a place. -/
def hasRoom (place : Place) : Bool :=
  Path.byteCount (place.getLastD "") + temporaryExtra ≤ nameLimit &&
    Path.byteCount place.text + temporaryExtra < pathLimit

/-- Goes on if there is room for the longer name of the file at a path. -/
def expectRoom (base : Place) (p : Path) : Changing Unit := do
  unless ((← get).locate base p).toOption.any hasRoom do throw .malformed

/-- Puts a file at a path whose directory is there. A text with a half of a pair can not be written. -/
def putFile (base : Place) (p : Path) (text : String) : Changing Unit := fun t =>
  match t.locate base p with
  | .error _ => .error .malformed t
  | .ok place =>
    if t.get? place = some .directory || Text.hasHalf text then .error .malformed t
    else .ok () (t.put place (.file text))

/-- Writes a file: what was there is deleted first, and the directories above it are made, as deep as the
making can go. -/
def writeWithin (depth : Nat) (base : Place) (p : Path) (text : String) : Changing Unit := do
  delete base p
  ensureDirectory depth base p.parent
  expectRoom base p
  putFile base p text

/-! ## With the usual depth -/

/-- How deep the making of directories can go where nothing else takes up much of the stack. -/
def usualDepth : Nat := 987

/-- Makes a directory that is not there yet, with those above it. -/
def makeDirectory (base : Place) (p : Path) : Changing Unit := do
  match ← makeOne base p with
  | none => return
  | some .missing =>
    ensureDirectory (usualDepth - 1) base p.parent
    if (← makeOne base p).isSome then throw .malformed
  | some _ => throw .malformed

/-- Writes a file with the directories above it. -/
def write (base : Place) (p : Path) (text : String) : Changing Unit := writeWithin usualDepth base p text

/-! ## Sanity checks -/

example : makeDirectory [] (Path.ofText "a/../b") {} matches
    .ok () ⟨[(["a"], .directory), (["b"], .directory)]⟩ := by decide +kernel
example : write [] (Path.ofText "d/../f") "new" ⟨[(["f"], .file "old")]⟩ matches
    .ok () ⟨[(["f"], .file "new"), (["d"], .directory)]⟩ := by decide +kernel
example : write [] (Path.ofText "f/x") "new" ⟨[(["f"], .file "old")]⟩ matches
    .error .malformed ⟨[(["f"], .file "old")]⟩ := by decide +kernel
example : write [] (Path.ofText (Text.ofCodePoints [0xdcc3, 0xdca9])) "new" ⟨[(["é"], .file "old")]⟩
    matches .ok () ⟨[(["é"], .file "new")]⟩ := by decide +kernel

end FileTree

end ApiGraph
