/-!
# JSON pointers

References of a document are pointers: keys joined by slashes, in which a slash inside a key is
written `~1` and a tilde `~0`.

* `Pointer.escape`, `Pointer.unescape` — one key to and from its written form;
* `Pointer.segments` — the written keys of a pointer;
* `Pointer.lastSegment` — what stands after the last slash.
-/

namespace ApiGraph.Pointer

/-- A key in its written form. -/
def escapeChars : List Char → List Char
  | [] => []
  | '~' :: rest => '~' :: '0' :: escapeChars rest
  | '/' :: rest => '~' :: '1' :: escapeChars rest
  | c :: rest => c :: escapeChars rest

/-- Puts slashes for `~1`. -/
def restoreSlashes : List Char → List Char
  | [] => []
  | '~' :: '1' :: rest => '/' :: restoreSlashes rest
  | c :: rest => c :: restoreSlashes rest

/-- Puts tildes for `~0`. -/
def restoreTildes : List Char → List Char
  | [] => []
  | '~' :: '0' :: rest => '~' :: restoreTildes rest
  | c :: rest => c :: restoreTildes rest

/-- A key in its written form. -/
def escape (key : String) : String := String.ofList (escapeChars key.toList)

/-- The key of a written form; a tilde that stands alone is kept. -/
def unescape (segment : String) : String :=
  String.ofList (restoreTildes (restoreSlashes segment.toList))

/-- The pieces between slashes. -/
def splitSlashes : List Char → List (List Char)
  | [] => [[]]
  | '/' :: rest => [] :: splitSlashes rest
  | c :: rest => (splitSlashes rest).modifyHead (c :: ·)

/-- The keys of a pointer, without its leading mark, in their written form. -/
def segments (pointer : String) : List String := (splitSlashes pointer.toList).map String.ofList

/-- What stands after the last slash, or the whole text when there is none. -/
def lastSegment (s : String) : String :=
  String.ofList ((splitSlashes s.toList).getLastD [])

/-- The keys of a local pointer, which starts with `#/`; nothing for any other text. -/
def localKeys? (ref : String) : Option (List String) :=
  match ref.toList with
  | '#' :: '/' :: rest => some ((splitSlashes rest).map fun piece => unescape (String.ofList piece))
  | _ => none

/-! ## Laws of escaping -/

/-- The written form of a key reads back as the key. -/
theorem restore_escapeChars (key : List Char) :
    restoreTildes (restoreSlashes (escapeChars key)) = key := by
  fun_induction escapeChars key with
  | case1 => rfl
  | case2 rest ih => simp [restoreSlashes, restoreTildes, ih]
  | case3 rest ih => simp [restoreSlashes, restoreTildes, ih]
  | case4 c rest hTilde hSlash ih =>
    rw [restoreSlashes, restoreTildes, ih]
    · exact fun _ h => absurd h hTilde
    · exact fun _ h => absurd h hTilde

/-- The written form of a key has no slash. -/
theorem slash_not_mem_escapeChars (key : List Char) : '/' ∉ escapeChars key := by
  fun_induction escapeChars key with
  | case1 => simp
  | case2 rest ih => simp [ih]
  | case3 rest ih => simp [ih]
  | case4 c rest hTilde hSlash ih => simp [ih, Ne.symm hSlash]

/-- The written form of a key stays in one piece. -/
theorem splitSlashes_escapeChars (key : List Char) :
    splitSlashes (escapeChars key) = [escapeChars key] := by
  fun_induction escapeChars key with
  | case1 => rfl
  | case2 rest ih => simp [splitSlashes, ih]
  | case3 rest ih => simp [splitSlashes, ih]
  | case4 c rest hTilde hSlash ih => simp [splitSlashes, ih]

@[simp] theorem unescape_escape (key : String) : unescape (escape key) = key := by
  simp [unescape, escape, restore_escapeChars]

/-! ## Sanity checks -/

example : localKeys? "#/a~1b/c~01" = some ["a/b", "c~1"] := by decide +kernel
example : localKeys? "other.json#/a" = none := by decide +kernel

end ApiGraph.Pointer
