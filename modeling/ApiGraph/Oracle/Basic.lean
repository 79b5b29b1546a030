import ApiGraph.Oracle.Terminal
import ApiGraph.Transcript

/-!
# Oracles

Whoever answers the questions of a run.

* `Oracle` — one that decides by the question alone, a replay of a recording, an operator at a
  terminal, and an operator whose answers are recorded;
* `Oracle.respond` — the answer to a question, the oracle afterwards, and what was said meanwhile;
* `Oracle.ofOptions` — the oracle for a way of input and an optional recording.
-/

namespace ApiGraph

/-- Whoever answers questions. -/
inductive Oracle where
  /-- Decides by the question alone. -/
  | policy (decide : Question → Answer)
  /-- Replays a recording, of which `used` answers were given before. -/
  | replay (used : Nat) (rest : List Answer)
  /-- An operator at a terminal. -/
  | terminal (console : Console)
  /-- An operator, with the answers given so far. -/
  | recorder (console : Console) (recorded : List Answer)
deriving Inhabited

namespace Oracle

/-- What comes back from an oracle. -/
structure Response where
  result : Attempt Answer
  oracle : Oracle
  /-- What was said, in order. -/
  events : List Event := []

/-- The answer to a question. -/
def respond (q : Question) : Oracle → Response
  | .policy decide => { result := .ok (decide q), oracle := .policy decide }
  | .replay used [] =>
    { result := .error (.recordingExhausted used (Text.strip q.text)), oracle := .replay used [] }
  | .replay used (a :: rest) =>
    { result := .ok a
      oracle := .replay (used + 1) rest
      events := [.logged .info .oracle
        (Text.strip q.text ++ " -> " ++ String.singleton a.letter)] }
  | .terminal console =>
    { result := console.answer q
      oracle := .terminal (console.next q)
      events := (console.reply q).shown.map .shown }
  | .recorder console recorded =>
    { result := console.answer q
      oracle := .recorder (console.next q) (recorded ++ (console.reply q).answer.toList)
      events := (console.reply q).shown.map .shown }

/-- Besides its answer an oracle says nothing but a log record or texts that it shows. -/
theorem shown_or_logged {q : Question} {o : Oracle} {e : Event} (h : e ∈ (o.respond q).events) :
    (∃ text, e = .shown text) ∨ ∃ text, e = .logged .info .oracle text := by
  cases o with
  | policy decide => cases h
  | replay used rest =>
    cases rest with
    | nil => cases h
    | cons a rest => exact .inr ⟨_, List.mem_singleton.1 h⟩
  | terminal console | recorder console recorded =>
    obtain ⟨text, -, rfl⟩ := List.mem_map.1 h
    exact .inl ⟨text, rfl⟩

/-- An oracle that agrees to everything. -/
def always : Oracle := .policy fun _ => .yes

/-- A replay from the start of a recording. -/
def ofRecording (answers : List Answer) : Oracle := .replay 0 answers

/-- The answers recorded so far. -/
def recording : Oracle → List Answer
  | .recorder _ recorded => recorded
  | _ => []

/-- The number of answers that a replay has left. -/
def remaining : Oracle → Nat
  | .replay _ rest => rest.length
  | _ => 0

/-- The operator at a terminal, if there is one. -/
def console? : Oracle → Option Console
  | .terminal console => some console
  | .recorder console _ => some console
  | _ => none

/-- The text that went to the standard output while questions were put. -/
def printed (o : Oracle) : String := (o.console?.map Console.printed).getD ""

/-- The oracle for a run. A recording counts before the way of input, which is one of `prompt`,
`record` and `skip`. -/
def ofOptions (inputType : Json) (recording : Option (List Answer)) (typed : List String)
    (prompt : Prompt := Terminal.ask false) : Attempt Oracle :=
  let console : Console := { typed := typed, prompt := prompt }
  match recording with
  | some [] => .error .emptyRecording
  | some answers => .ok (ofRecording answers)
  | none =>
    if inputType.isText "prompt" then .ok (.terminal console)
    else if inputType.isText "record" then .ok (.recorder console [])
    else if inputType.isText "skip" then .ok always
    else .error (.unknownInputType inputType)

end Oracle

end ApiGraph
