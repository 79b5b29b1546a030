import ApiGraph.CommandLine.Run

/-!
# The command line program

The outer layer of the command line: it takes a picture of the files that the words speak of, runs
on it, shows what is to be shown, and writes the changed files. A line is read from the operator
whenever the run asks for one. What comes from outside and goes there is plain text, and the run works
on the strings that carry it.
-/

namespace ApiGraph.Program

open ApiGraph.CommandLine

/-- The places that the words of a command line speak of. -/
def mentioned (words : List String) (base : Place) : List Place :=
  match Arguments.parse? words with
  | none => []
  | some a => a.paths.map fun word => ((Path.ofText word).flatten base).parts.map Utf8.normal

/-- The name of a place outside. -/
def outside (p : Place) : String := Text.toPlain p.text

/-- What there is at a place whose directory is there. -/
def look (p : Place) : IO (Option Entry) := do
  try
    return some (.file (Text.ofPlain (← IO.FS.readFile (outside p))))
  catch
    | .noFileOrDirectory _ _ _ => return none
    | _ => return some .directory

/-- Adds what there is at a place to the picture, if its directory is in the picture. -/
def picture (t : FileTree) (p : Place) : IO FileTree := do
  match t.get? p, t.get? p.dropLast with
  | none, some .directory =>
    match ← look p with
    | some e => return t.put p e
    | none => return t
  | _, _ => return t

/-- The picture of the files that the words speak of. -/
def pictureOf (words : List String) (base : Place) : IO FileTree := do
  let places := (base :: mentioned words base).flatMap fun p => Place.above p ++ [p]
  places.foldlM picture {}

/-- Makes the directories that are new, and writes the files that are new or different. -/
def writeChanges (before after : FileTree) : IO Unit := do
  for (p, entry) in after.entries do
    unless before.get? p = some entry do
      match entry with
      | .directory => IO.FS.createDirAll (outside p)
      | .file text => IO.FS.writeFile (outside p) (Text.toPlain text)

/-- A typed line without its end. -/
def lineText (line : String) : String := ((Text.lines (Text.ofPlain line)).head?).getD ""

/-- The last words about a run. -/
def lastWords (o : Outcome) : String :=
  if o.exitCode = 2 then "Usage: oas_to_graphql [OPTIONS] SOURCE\n"
  else if o.crashed then "Error: the input does not have the expected form\n"
  else (o.fault.map report).getD ""

/-- Runs with the lines typed so far, of which the operator has seen the first characters, and reads
another line when the run asks for one. -/
partial def converse (words : List String) (tree : FileTree) (base : Place) (typed : List String)
    (shown : Nat) : IO UInt32 := do
  let o := run words tree base typed
  let stderr ← IO.getStderr
  stderr.putStr (Text.toPlain (String.ofList (o.seen.toList.drop shown)))
  stderr.flush
  if o.inputEnded then
    let line ← (← IO.getStdin).getLine
    unless line.isEmpty do
      return ← converse words tree base (typed ++ [lineText line]) o.seen.length
  stderr.putStr (Text.toPlain (lastWords o))
  writeChanges tree o.tree
  let stdout ← IO.getStdout
  stdout.putStr (Text.toPlain o.stdout)
  stdout.flush
  return o.exitCode.toUInt32

end ApiGraph.Program

/-- The command line program. -/
def main (words : List String) : IO UInt32 := do
  let words := words.map ApiGraph.Text.ofPlain
  let base := (ApiGraph.Path.ofText (ApiGraph.Text.ofPlain (← IO.currentDir).toString)).parts
  let tree ← ApiGraph.Program.pictureOf words base
  ApiGraph.Program.converse words tree base [] 0
