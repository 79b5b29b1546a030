import ApiGraph.FileTree.Change

/-!
# Writing by replacement

A text is first written under a longer name beside the file. Only when it is there as a whole does that
file take the place of the other one, so that what is at the place is at no time a part of the text. When
it can not be written, or can not take the place, the file with the longer name is taken away again.

* `Place.beside` — the place beside a file, under a longer name;
* `FileTree.prepare` — makes room for a file: what was there is deleted, and the directories above it are
  made;
* `FileTree.replaceFile` — writes a text beside a file and moves it there;
* `FileTree.writeThrough` — both, one after the other.
-/

namespace ApiGraph

/-- The place beside a file, under its name between two points, with some characters and an ending. -/
def Place.beside (word : String) (place : Place) : Place :=
  place.dropLast ++ ["." ++ place.getLastD "" ++ "." ++ word ++ ".tmp"]

namespace FileTree

/-- The place that a path leads to. -/
def placeAt (base : Place) (p : Path) : Changing Place := fun t =>
  match t.locate base p with
  | .ok place => .ok place t
  | .error _ => .error .malformed t

/-- Makes an empty file where there is nothing yet. -/
def createFile (place : Place) : Changing Unit := fun t =>
  if (t.get? place).isSome then .error .malformed t else .ok () (t.put place (.file ""))

/-- Writes a text to a file. A text with a half of a pair can not be written. -/
def fillFile (place : Place) (text : String) : Changing Unit := fun t =>
  if Text.hasHalf text then .error .malformed t else .ok () (t.put place (.file text))

/-- Moves a file to another place, where it replaces a file but not a directory. -/
def moveFile (source place : Place) : Changing Unit := fun t =>
  match t.get? source with
  | none => .error .malformed t
  | some e =>
    if t.get? place = some .directory then .error .malformed t
    else .ok () ((t.erase source).put place e)

/-- Takes away what is at a place, whether it is there or not. -/
def removeFile (place : Place) : Changing Unit := modify fun t => t.erase place

/-- Writes a text to a new file and moves it to a place. Where that fails, the new file is taken away. -/
def putByWay (spare place : Place) (text : String) : Changing Unit := do
  createFile spare
  tryCatch
    (do
      fillFile spare text
      moveFile spare place)
    fun fault => do
      removeFile spare
      throw fault

/-- Writes a text beside a file and moves it there. -/
def replaceFile (word : String) (base : Place) (p : Path) (text : String) : Changing Unit := do
  let place ← placeAt base p
  putByWay (place.beside word) place text

/-- Makes room for a file: what was there is deleted, and the directories above it are made. -/
def prepare (depth : Nat) (base : Place) (p : Path) : Changing Unit := do
  delete base p
  ensureDirectory depth base p.parent
  expectRoom base p

/-- Writes a file by way of another one beside it. -/
def writeThrough (word : String) (depth : Nat) (base : Place) (p : Path) (text : String) :
    Changing Unit := do
  prepare depth base p
  replaceFile word base p text

/-- The text comes to its place after room was made for it. -/
theorem writeWithin_eq_prepare (depth : Nat) (base : Place) (p : Path) (text : String) :
    writeWithin depth base p text = (do prepare depth base p; putFile base p text) := by
  simp only [writeWithin, prepare, bind_assoc]

/-- What was put where there was nothing can be taken away again. -/
theorem erase_put {t : FileTree} {place : Place} (h : t.get? place = none) (e : Entry) :
    (t.put place e).erase place = t := by
  have hroot : place ≠ [] := by
    rintro rfl
    cases h
  have hnone : OrderedMap.get? place t.entries = none := by simpa [get?, hroot] using h
  have hkeys := OrderedMap.get?_eq_none_iff.1 hnone
  rw [put, erase, OrderedMap.insert_of_get?_eq_none hnone]
  simp only [List.filter_append]
  rw [List.filter_eq_self.2 ?_]
  · simp
  · intro entry hentry
    simpa using fun he : entry.1 = place => hkeys (he ▸ List.mem_map_of_mem hentry)

/-- Of two things put at a place, one after the other, the second one is there. -/
theorem put_put (t : FileTree) (place : Place) (e e' : Entry) :
    (t.put place e).put place e' = t.put place e' := by
  rw [put, put, put]
  congr 1
  induction t.entries with
  | nil => simp [OrderedMap.insert]
  | cons entry rest ih =>
    obtain ⟨k, a⟩ := entry
    by_cases hk : k = place
    · simp [OrderedMap.insert, hk]
    · simp [OrderedMap.insert, hk, ih]

end FileTree

end ApiGraph
