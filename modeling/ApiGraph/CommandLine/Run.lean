import ApiGraph.CommandLine.Words
import ApiGraph.Json.Reader

/-!
# Runs of the command line

A run reads a configuration, a recording and a document from a file tree, converts the document, and
writes the text to a file or to the standard output. The words of the command line, YAML and the operator
are up to the host of the run.

* `Stage` — how far a run came and what it has shown and changed;
* `convert` — the conversion, with the configuration, the oracle and the document that are loaded before;
* `deliver` — the writing of the results;
* `Outcome`, `run` — a whole run, with its exit code.
-/

namespace ApiGraph.CommandLine

/-- What a run has shown and changed so far. -/
structure Stage where
  tree : FileTree
  /-- The working directory. -/
  base : Place := []
  /-- The text that was delivered to the standard output. -/
  out : String := ""
  /-- What the operator was told besides the transcript. -/
  told : String := ""
  context : Context := {}
deriving Inhabited

/-- A step of a run. -/
abbrev Step := EStateM Fault Stage

namespace Step

/-- The value of an attempt. -/
def lift {α : Type} : Attempt α → Step α
  | .ok a => pure a
  | .error fault => throw fault

/-- A step of a conversion. -/
def run {α : Type} (step : Run α) : Step α := fun s =>
  match step s.context with
  | .ok a c => .ok a { s with context := c }
  | .error fault c => .error fault { s with context := c }

/-- The text of a file. -/
def readText (p : Path) : Step String := do
  let s ← get
  lift (s.tree.textAt s.base p)

/-- The value in a file of JSON text. -/
def readJson (p : Path) : Step Json := do lift (expect (Json.read? (← readText p)))

/-- Writes a file. -/
def writeFile (depth : Nat) (p : Path) (text : String) : Step Unit := fun s =>
  match FileTree.writeWithin depth s.base p text s.tree with
  | .ok _ tree => .ok () { s with tree := tree }
  | .error fault tree => .error fault { s with tree := tree }

end Step

/-! ## Loading -/

/-- The configuration: the usual one, with the settings of a file if there is one. -/
def loadConfig (o : Options) : Step Config := do
  match o.config with
  | none => return {}
  | some p =>
    let members ← Step.lift (expect (← Step.readJson p).members?)
    Step.lift (Config.ofMembers members)

/-- The answers of a recording if there is one. -/
def loadRecording (o : Options) : Step (Option (List Answer)) := do
  match o.recording with
  | none => return none
  | some p => return some (← Step.lift (Recording.ofFile p.name (← Step.readText p)))

/-- The oracle: a replay if there is a recording, and otherwise what the way of input says. -/
def chooseOracle (host : Host) (o : Options) (typed : List String) : Step Oracle := do
  Step.lift (Oracle.ofOptions (.str o.inputType) (← loadRecording o) typed host.prompt)

/-- Lets an oracle answer the questions of the run. -/
def setOracle (oracle : Oracle) : Step Unit :=
  modify fun s => { s with context := { s.context with oracle := oracle } }

/-- The document, from a file of JSON text if its name ends in `.json`, and of YAML text otherwise. -/
def loadDocument (host : Host) (o : Options) : Step Document := do
  let raw ←
    if o.source.extension.toList.map small = ".json".toList then Step.readJson o.source
    else do Step.lift (expect (host.yaml (← Step.readText o.source)))
  Step.run (Run.log .info .document ("Loaded " ++ o.source.name))
  return Document.ofJson raw

/-- The conversion of a run, with all that is loaded before. -/
def convert (host : Host) (o : Options) (typed : List String) : Step String := do
  let config ← loadConfig o
  setOracle (← chooseOracle host o typed)
  let document ← loadDocument host o
  Step.run (Conversion.run o.mode document config)

/-! ## Delivery -/

/-- Writes the text to its file, or shows it on the standard output. -/
def deliverText (host : Host) (o : Options) (text : String) : Step Unit := do
  match o.outputFile with
  | some p => Step.writeFile host.depth p text
  | none =>
    let shown ← Step.lift (host.echo text)
    modify fun s => { s with out := s.out ++ shown }

/-- Writes the recorded answers to their file, or shows them to the operator. -/
def deliverRecording (host : Host) (o : Options) : Step Unit := do
  match (← get).context.oracle with
  | .recorder _ recorded =>
    match o.saveRecording with
    | some p => Step.writeFile host.depth p (Recording.toText recorded)
    | none =>
      let shown ← Step.lift (host.echo (Recording.toText recorded))
      modify fun s => { s with told := s.told ++ shown }
  | _ => return

/-- Writes the results of a run. -/
def deliver (host : Host) (o : Options) (text : String) : Step Unit := do
  deliverText host o text
  deliverRecording host o

/-- The steps of a run. -/
def steps (host : Host) (o : Options) (typed : List String) : Step Unit := do
  deliver host o (← convert host o typed)

/-! ## Outcomes -/

/-- The end of a run. -/
structure Outcome where
  exitCode : Nat
  /-- The fault that ended the run. -/
  fault : Option Fault := none
  stdout : String := ""
  /-- What the operator saw before the end. -/
  seen : String := ""
  tree : FileTree
deriving Inhabited

/-- What the operator is told about a fault. -/
def report (f : Fault) : String :=
  if f.category.isReported then
    Text.escapeHalves (Text.visible ("Error: " ++ f.message?.getD "") ++ "\n")
  else if f.category = .aborted then "Aborted!\n"
  else ""

namespace Outcome

/-- Whether the run ended at something that nothing checks. -/
def crashed (o : Outcome) : Bool :=
  match o.fault with
  | some f => !f.category.isReported && f.category ≠ .aborted
  | none => false

/-- Whether the run ended because nothing more was typed. -/
def inputEnded (o : Outcome) : Bool :=
  match o.fault with
  | some f => f.category = .aborted
  | none => false

/-- Everything that the operator saw. -/
def stderr (o : Outcome) : String := o.seen ++ ((o.fault.map report).getD "")

end Outcome

/-- What the operator has seen at a stage, where a half of a pair is shown by its escape. -/
def Stage.seen (s : Stage) (level : Level) : String :=
  Text.escapeHalves (s.context.transcript.terminal level ++ s.told)

/-- What is on the standard output at a stage: what went there while questions were put, and then what was
delivered to it. -/
def Stage.stdout (s : Stage) : String := s.context.oracle.printed ++ s.out

/-- A run with given options. -/
def runWith (host : Host) (o : Options) (tree : FileTree) (base : Place) (typed : List String) : Outcome :=
  match steps host o typed { tree := tree, base := base } with
  | .ok _ s => { exitCode := 0, stdout := s.stdout, seen := s.seen o.level, tree := s.tree }
  | .error f s =>
    { exitCode := 1, fault := some f, stdout := s.stdout, seen := s.seen o.level, tree := s.tree }

/-- A run with the words of a command line, in a directory of a file tree, with the lines that the
operator types. Words that do not have the form of options end it with the exit code two, and it fails at a
path that nothing can be at. -/
def run (words : List String) (tree : FileTree) (base : Place) (typed : List String)
    (host : Host := .usual) : Outcome :=
  match host.options words tree base with
  | .error .form => { exitCode := 2, tree := tree }
  | .error .unnameable => { exitCode := 1, fault := some .malformed, tree := tree }
  | .ok o => runWith host o tree base typed

end ApiGraph.CommandLine
