import ApiGraph.Conversion
import ApiGraph.FileTree.Basic

/-!
# Options of a run

* `Options` — what a run is asked to do;
* `Misuse` — what can be wrong with the words that ask for it;
* `Host` — what a run of the command line finds around it: how the words of a command line are read, how
  questions are put and texts shown, how YAML is read and how deep directories can be made.
-/

namespace ApiGraph.CommandLine

/-- What a run is asked to do. -/
structure Options where
  source : Path := {}
  mode : Mode := .definitions
  inputType : String := "prompt"
  recording : Option Path := none
  config : Option Path := none
  outputFile : Option Path := none
  saveRecording : Option Path := none
  verbose : Nat := 0
deriving DecidableEq, Inhabited, Repr

/-- The least level of log records that are shown. -/
def Options.level (o : Options) : Level :=
  match o.verbose with
  | 0 => .warning
  | 1 => .info
  | _ => .debug

/-- What can be wrong with the words of a command line. -/
inductive Misuse where
  /-- A word is not among the known ones, or at a path there is not what has to be there. -/
  | form
  /-- A path that nothing can be at. -/
  | unnameable
deriving DecidableEq, Inhabited, Repr

/-- What a run of the command line finds around it. -/
structure Host where
  /-- The options that words give in a directory of a tree. -/
  options : List String → FileTree → Place → Except Misuse Options
  /-- How questions are put to an operator. -/
  prompt : Prompt
  /-- What is shown of a text, if it can be shown. -/
  echo : String → Attempt String
  /-- The value of a text in YAML. -/
  yaml : String → Option Json
  /-- How deep directories can be made. -/
  depth : Nat
deriving Inhabited

end ApiGraph.CommandLine
