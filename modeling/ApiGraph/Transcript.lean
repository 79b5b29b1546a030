import ApiGraph.Graph.NodeId
import ApiGraph.Json.Basic
import ApiGraph.Oracle.Answer

/-!
# Transcripts

What happens during a run, in order: the nodes that it makes, goes into and out of, the references
that it follows, questions and answers, log records, and text shown on the terminal.

* `Level`, `Channel` — how important a log record is and which part of the program speaks;
* `Event`, `Transcript` — what happened;
* `Transcript.logLines`, `Transcript.shownText`, `Transcript.terminal` — what was said;
* `Transcript.questions`, `Transcript.answers` — the dialogue with the oracle;
* `Transcript.enteredNodes`, `Transcript.metReferences`, `Transcript.lookups`, `Transcript.builds` —
  the way through the graph.
-/

namespace ApiGraph

/-- How important a log record is. -/
inductive Level where
  | debug
  | info
  | warning
deriving DecidableEq, Inhabited, Repr

namespace Level

/-- The rank of a level; more important ones have a higher rank. -/
def rank : Level → Nat
  | .debug => 0
  | .info => 1
  | .warning => 2

/-- The word for a level in log lines. -/
def word : Level → String
  | .debug => "DEBUG"
  | .info => "INFO"
  | .warning => "WARNING"

end Level

/-- The part of the program that writes a log record. -/
inductive Channel where
  | document
  | conversion
  | traversal
  | visit
  | definitions
  | selection
  | oracle
deriving DecidableEq, Inhabited, Repr

namespace Channel

/-- The name of a channel in log lines. -/
def name : Channel → String
  | .document => "oas_to_graphql.document"
  | .conversion => "oas_to_graphql.converter"
  | .traversal => "oas_to_graphql.graph.context"
  | .visit => "oas_to_graphql.graph.visitor"
  | .definitions => "oas_to_graphql.generators.sdl"
  | .selection => "oas_to_graphql.generators.selection"
  | .oracle => "oas_to_graphql.prompt.base"

end Channel

/-- Something that happened during a run. -/
inductive Event where
  | entered (node : Option NodeId)
  | left (node : Option NodeId)
  /-- A reference is to be followed. -/
  | met (ref : Json)
  /-- The declaration of a reference is looked up. -/
  | lookedUp (ref : Json)
  /-- A node is made for a schema, under another node or none. -/
  | planted (parent : Option NodeId) (schema : Json) (node : NodeId)
  /-- A node is built for the declaration of a reference. -/
  | built (ref : Json) (node : NodeId)
  | asked (question : Question)
  | answered (answer : Answer)
  | logged (level : Level) (channel : Channel) (text : String)
  | shown (text : String)
deriving Inhabited, Repr

/-- What happened, the latest event first. -/
abbrev Transcript := List Event

namespace Event

/-- The line of a log record that is at least as important as the threshold. -/
def logLine? (threshold : Level) : Event → Option String
  | .logged level channel text =>
    if threshold.rank ≤ level.rank then
      some (level.word ++ " " ++ channel.name ++ ": " ++ text)
    else none
  | _ => none

/-- The text that an event puts on the terminal. -/
def shownText? : Event → Option String
  | .shown text => some text
  | _ => none

/-- The question of an event. -/
def question? : Event → Option Question
  | .asked question => some question
  | _ => none

/-- The node that an event goes into. -/
def enteredNode? : Event → Option NodeId
  | .entered node => node
  | _ => none

/-- The reference that an event meets. -/
def metReference? : Event → Option Json
  | .met ref => some ref
  | _ => none

/-- The reference whose declaration an event looks up. -/
def lookedUp? : Event → Option Json
  | .lookedUp ref => some ref
  | _ => none

/-- The reference that an event builds a node for, and the node. -/
def built? : Event → Option (Json × NodeId)
  | .built ref node => some (ref, node)
  | _ => none

/-- The answer of an event. -/
def answer? : Event → Option Answer
  | .answered answer => some answer
  | _ => none

/-- What an operator sees of an event: shown text, and log lines from the threshold on. -/
def terminalText (threshold : Level) (e : Event) : String :=
  match e with
  | .shown text => text
  | e => ((e.logLine? threshold).map (· ++ "\n")).getD ""

end Event

namespace Transcript

/-- The log lines from the threshold on, in order. -/
def logLines (t : Transcript) (threshold : Level) : List String :=
  t.reverse.filterMap (Event.logLine? threshold)

/-- The text shown on the terminal. -/
def shownText (t : Transcript) : String := String.join (t.reverse.filterMap Event.shownText?)

/-- The questions, in order. -/
def questions (t : Transcript) : List Question := t.reverse.filterMap Event.question?

/-- The answers, in order. -/
def answers (t : Transcript) : List Answer := t.reverse.filterMap Event.answer?

/-- The nodes that were gone into, in order. -/
def enteredNodes (t : Transcript) : List NodeId := t.reverse.filterMap Event.enteredNode?

/-- The references that were met, in order. -/
def metReferences (t : Transcript) : List Json := t.reverse.filterMap Event.metReference?

/-- The references whose declarations were looked up, in order. -/
def lookups (t : Transcript) : List Json := t.reverse.filterMap Event.lookedUp?

/-- The references that nodes were built for, with these nodes, in order. -/
def builds (t : Transcript) : List (Json × NodeId) := t.reverse.filterMap Event.built?

/-- Everything an operator sees. -/
def terminal (t : Transcript) (threshold : Level) : String :=
  String.join (t.reverse.map (Event.terminalText threshold))

end Transcript

end ApiGraph
