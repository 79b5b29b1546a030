import ApiGraph.FileTree.Change

/-!
# Listings of file trees

What there is below a directory, by paths seen from it.

* `FileTree.ofFiles` — the tree of a directory with given files, each made with the directories that
  its path goes through;
* `FileTree.listing` — everything below a directory, in the order of the texts;
* `FileTree.changedSince` — the files below a directory that are new or different.
-/

namespace ApiGraph.FileTree

/-- A directory with nothing in it. -/
def emptyAt (base : Place) : FileTree :=
  (Place.above base ++ [base]).foldl (fun t p => t.put p .directory) {}

/-- Makes a file with the directories above it. -/
def addFile (base : Place) (path text : String) : Changing Unit := do
  let p := Path.ofText path
  ensureDirectory usualDepth base p.parent
  putFile base p text

/-- A directory with files, each given by its path and its text. -/
def ofFiles (base : Place) (files : List (String × String)) : Attempt FileTree :=
  match (files.forM fun (path, text) => addFile base path text) (emptyAt base) with
  | .ok _ t => .ok t
  | .error f _ => .error f

/-- What there is below a directory, seen from it. -/
def below (t : FileTree) (base : Place) : List (Place × Entry) :=
  t.entries.filterMap fun (p, e) =>
    if base.isPrefixOf p && p ≠ base then some (p.drop base.length, e) else none

/-- The text for a place seen from a directory. -/
def relativeText (p : Place) : String := "/".intercalate p

/-- The paths below a directory and what is there, directories with a slash at the end, in the order
of the texts. -/
def listing (t : FileTree) (base : Place) : List (String × Entry) :=
  let shown := (t.below base).map fun (p, e) =>
    match e with
    | .directory => (relativeText p ++ "/", e)
    | .file _ => (relativeText p, e)
  shown.mergeSort fun a b => Text.comesBefore a.1 b.1

/-- The files below a directory that are new or different from those of an earlier tree, in the order
of their paths. -/
def changedSince (t before : FileTree) (base : Place) : List (String × String) :=
  let changed := (t.below base).filterMap fun (p, e) =>
    match e with
    | .file text =>
      if before.get? (base ++ p) = some (.file text) then none else some (relativeText p, text)
    | .directory => none
  changed.mergeSort fun a b => Text.comesBefore a.1 b.1

end ApiGraph.FileTree
