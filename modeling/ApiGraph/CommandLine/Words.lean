import ApiGraph.CommandLine.Options
import ApiGraph.FileTree.Change

/-!
# Words of a command line

The usual way to read a command line. Its words are options with or without a value, and the one source.
Options may stand anywhere; of one given several times the last value counts, at the place of the first.
After a word of two dashes no more options follow.

* `OptionName` — the options by their long and short names;
* `Arguments`, `Arguments.parse?` — what the words give;
* `Options.check` — the options that arguments give in a file tree. They are checked one after the other,
  the options in the order in which they are given and then the source, and the first one that has not the
  right form decides what is wrong;
* `Host.usual` — the host that reads words in this way.
-/

namespace ApiGraph.CommandLine

/-- The options. -/
inductive OptionName where
  | outputFile
  | inputType
  | recording
  | saveRecording
  | mode
  | config
  | verbose
deriving DecidableEq, Inhabited, Repr

namespace OptionName

/-- The option with a long name. -/
def ofLong? (name : String) : Option OptionName :=
  if name = "output-file" then some .outputFile
  else if name = "input-type" then some .inputType
  else if name = "recording" then some .recording
  else if name = "save-recording" then some .saveRecording
  else if name = "mode" then some .mode
  else if name = "config" then some .config
  else if name = "verbose" then some .verbose
  else none

/-- The option with a short name. -/
def ofShort? (c : Char) : Option OptionName :=
  if c = 'o' then some .outputFile
  else if c = 'i' then some .inputType
  else if c = 'r' then some .recording
  else if c = 'm' then some .mode
  else if c = 'c' then some .config
  else if c = 'v' then some .verbose
  else none

/-- Whether an option takes a value. -/
def takesValue : OptionName → Bool
  | .verbose => false
  | _ => true

end OptionName

/-- What the words of a command line give. -/
structure Arguments where
  outputFile : Option String := none
  inputType : String := "prompt"
  recording : Option String := none
  saveRecording : Option String := none
  mode : String := "sdl"
  config : Option String := none
  /-- How often more output is asked for. -/
  verbose : Nat := 0
  /-- The options that are given, each once, in order. -/
  given : List OptionName := []
  /-- The words that are no options, in order. -/
  words : List String := []
deriving DecidableEq, Inhabited, Repr

namespace Arguments

/-- Takes the value of an option. -/
def setValue (a : Arguments) (name : OptionName) (value : String) : Arguments :=
  match name with
  | .outputFile => { a with outputFile := some value }
  | .inputType => { a with inputType := value }
  | .recording => { a with recording := some value }
  | .saveRecording => { a with saveRecording := some value }
  | .mode => { a with mode := value }
  | .config => { a with config := some value }
  | .verbose => { a with verbose := a.verbose + 1 }

/-- Takes an option with its value. -/
def set (a : Arguments) (name : OptionName) (value : String) : Arguments :=
  { a.setValue name value with
    given := if a.given.contains name then a.given else a.given ++ [name] }

/-- Takes the options of a group of short names. The rest of the group after an option with a value
is the value; an option at the end of the group waits for the next word. -/
def setShort (a : Arguments) : List Char → Option (Arguments × Option OptionName)
  | [] => some (a, none)
  | c :: rest =>
    match OptionName.ofShort? c with
    | none => none
    | some name =>
      if name.takesValue then
        if rest.isEmpty then some (a, some name)
        else some (a.set name (String.ofList rest), none)
      else setShort (a.set name "") rest

/-- Takes a long option, whose value may follow an equals sign. -/
def setLong (a : Arguments) (word : List Char) : Option (Arguments × Option OptionName) :=
  let name := word.takeWhile (· != '=')
  match OptionName.ofLong? (String.ofList name), word.drop name.length with
  | some option, _ :: value =>
    if option.takesValue then some (a.set option (String.ofList value), none) else none
  | some option, [] => if option.takesValue then some (a, some option) else some (a.set option "", none)
  | none, _ => none

/-- Takes one word: the arguments with it, and the option that waits for a value. -/
def take (a : Arguments) (word : String) : Option (Arguments × Option OptionName) :=
  match word.toList with
  | '-' :: '-' :: rest => a.setLong rest
  | '-' :: c :: rest => a.setShort (c :: rest)
  | _ => some ({ a with words := a.words ++ [word] }, none)

/-- Takes the words one by one. -/
def takeAll (a : Arguments) : List String → Option Arguments
  | [] => some a
  | [word] =>
    if word = "--" then some a
    else
      match a.take word with
      | some (a, none) => some a
      | _ => none
  | word :: next :: rest =>
    if word = "--" then some { a with words := a.words ++ next :: rest }
    else
      match a.take word with
      | none => none
      | some (a, none) => takeAll a (next :: rest)
      | some (a, some option) => takeAll (a.set option next) rest

/-- What the words of a command line give, if they can be read. -/
def parse? (words : List String) : Option Arguments := takeAll {} words

/-- The words that name files: the source and the values of options. -/
def paths (a : Arguments) : List String :=
  a.words.take 1 ++ [a.recording, a.config, a.outputFile, a.saveRecording].filterMap id

end Arguments

namespace Options

/-- The kind of output for a word. -/
def modeOf? (word : String) : Option Mode :=
  if word = "sdl" then some .definitions
  else if word = "select" then some .selection
  else none

/-- What has to be at the path of an option. -/
inductive Expected where
  | file
  | anything
  | noDirectory
deriving DecidableEq, Inhabited, Repr

/-- Whether what there is at a path is as expected. -/
def Expected.admits : Expected → Option Entry → Bool
  | .file, some (.file _) => true
  | .anything, some _ => true
  | .noDirectory, some .directory => false
  | .noDirectory, _ => true
  | _, _ => false

/-- The path from the root that a word names in a directory of a tree, if what is there is as
expected. -/
def pathOf (t : FileTree) (base : Place) (expected : Expected) (word : String) :
    Except Misuse Path :=
  let given := Path.ofText word
  let p := given.flatten base
  if !given.isNameable then .error .unnameable
  else if expected.admits (t.lookup? base p) then .ok p
  else .error .form

/-- The path of an option that may be missing. -/
def optionalPath (t : FileTree) (base : Place) (expected : Expected) :
    Option String → Except Misuse (Option Path)
  | none => .ok none
  | some word => (pathOf t base expected word).map some

/-- The options with one more of them, as the arguments give it. A word has to be among the known ones,
a file to read has to be there, and a file to write may not be a directory. -/
def takeChecked (t : FileTree) (base : Place) (a : Arguments) (o : Options) :
    OptionName → Except Misuse Options
  | .mode =>
    match modeOf? a.mode with
    | some mode => .ok { o with mode := mode }
    | none => .error .form
  | .inputType =>
    if ["prompt", "record", "skip"].contains a.inputType then .ok { o with inputType := a.inputType }
    else .error .form
  | .recording => do return { o with recording := ← optionalPath t base .file a.recording }
  | .config => do return { o with config := ← optionalPath t base .anything a.config }
  | .outputFile => do return { o with outputFile := ← optionalPath t base .noDirectory a.outputFile }
  | .saveRecording => do
    return { o with saveRecording := ← optionalPath t base .noDirectory a.saveRecording }
  | .verbose => .ok { o with verbose := a.verbose }

/-- The options that arguments give in a directory of a tree, if all of them have the right form and
there is one source. -/
def check (t : FileTree) (base : Place) (a : Arguments) : Except Misuse Options := do
  let o ← a.given.foldlM (takeChecked t base a) {}
  match a.words with
  | [] => throw .form
  | word :: more =>
    let source ← pathOf t base .file word
    unless more.isEmpty do throw .form
    return { o with source := source }

end Options

/-- The options that words give in a directory of a tree, if they can be read and have the right form. -/
def optionsIn (words : List String) (t : FileTree) (base : Place) : Except Misuse Options :=
  match Arguments.parse? words with
  | none => .error .form
  | some a => Options.check t base a

/-- What can be shown of a text: all but its control sequences, unless it has a half of a pair. -/
def shownOf (text : String) : Attempt String :=
  if Text.hasHalf text then .error .malformed else .ok (Text.visible text)

/-- A host that reads no YAML. -/
def Host.usual : Host where
  options := optionsIn
  prompt := Terminal.ask false
  echo := shownOf
  yaml _ := none
  depth := FileTree.usualDepth

/-! ## Sanity checks -/

example : optionsIn ["-o", "\x00", "-m", "none"] {} [] matches .error .unnameable := by decide +kernel
example : optionsIn ["-m", "none", "-o", "\x00"] {} [] matches .error .form := by decide +kernel
example : optionsIn ["-o", "\x00", "-m", "none", "-o", "a"] {} [] matches .error .form := by decide +kernel

end ApiGraph.CommandLine
