import ApiGraph.Fault
import ApiGraph.Json.Basic
import ApiGraph.Naming
import ApiGraph.Oracle.Answer
import ApiGraph.Text.Blank
import ApiGraph.Text.Lines

/-!
# Recordings

A recording keeps answers as a text with one answer to a line, of which only the first character
counts.

* `Recording.toText` — the text of a recording;
* `Recording.ofLines` — the answers of its lines; blank lines are passed over, any other line has to
  start with an answer;
* `Recording.ofValues` — the same for lines that may be no texts;
* `Recording.ofFile` — the same for a whole text, which has to hold an answer.
-/

namespace ApiGraph

namespace Recording

/-- One answer to a line. -/
def toText (answers : List Answer) : String :=
  String.ofList (answers.flatMap fun a => [a.letter, '\n'])

/-- What a line of a recording holds. -/
inductive Entry where
  | blank
  | answer (a : Answer)
  /-- A line that starts with no answer, without the blanks at its ends. -/
  | invalid (text : String)
deriving DecidableEq, Inhabited, Repr

/-- Reads one line. The letter may be a capital. -/
def Entry.ofLine (line : String) : Entry :=
  let stripped := Text.strip line
  match stripped.toList with
  | [] => .blank
  | c :: _ =>
    match Answer.ofLetter? (small c) with
    | some a => .answer a
    | none => .invalid stripped

/-- The answers of the lines, of which the first has the given number. -/
def ofLinesFrom (number : Nat) : List String → Attempt (List Answer)
  | [] => .ok []
  | line :: rest =>
    match Entry.ofLine line with
    | .blank => ofLinesFrom (number + 1) rest
    | .answer a => (ofLinesFrom (number + 1) rest).map (a :: ·)
    | .invalid text => .error (.badRecordingLine number text)

/-- The answers of the lines of a recording. -/
def ofLines (lines : List String) : Attempt (List Answer) := ofLinesFrom 1 lines

/-- The text that a value is. -/
def text? : Json → Option String
  | .str s => some s
  | _ => none

/-- The answers of lines that may be no texts. A fault in a line before the first that is none is the
fault of the recording. -/
def ofValues (values : List Json) : Attempt (List Answer) := do
  let texts := (values.takeWhile fun v => (text? v).isSome).filterMap text?
  let answers ← ofLines texts
  if texts.length = values.length then .ok answers else .error .malformed

/-- The answers of the text of a file; a recording without any is refused. -/
def ofFile (name text : String) : Attempt (List Answer) :=
  match ofLines (Text.lines text) with
  | .ok [] => .error (.emptyRecordingFile name)
  | r => r

/-! ## Sanity checks -/

example : ofLines [" Yes, all", "", "n", "S"] matches .ok [.yes, .no, .subset] := by decide +kernel
example : ofValues [.str "y", .int 5, .str "?"] matches .error .malformed := by decide +kernel
example : ofValues [.str "?", .int 5] matches .error (.badRecordingLine 1 "?") := by decide +kernel
example : ofLines ["y", "", "?"] matches .error (.badRecordingLine 3 "?") := by decide +kernel

end Recording

end ApiGraph
