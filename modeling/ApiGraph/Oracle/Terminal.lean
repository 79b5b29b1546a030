import ApiGraph.Oracle.Recording
import ApiGraph.Text.ControlSequence

/-!
# Terminals

An operator answers questions by lines that are typed at a terminal. How a question is put there, which
lines answer it, and what is written meanwhile is up to a prompt.

* `Reply`, `Prompt` — what comes of putting a question to an operator with given lines;
* `Terminal.ask` — the usual prompt: a line that is a letter answers, and after any other line the
  question is put again;
* `Console` — an operator with a prompt.
-/

namespace ApiGraph

/-- What comes of putting a question at a terminal. -/
structure Reply where
  /-- The answer, if the lines do not end before. -/
  answer : Option Answer
  /-- The lines left over. -/
  left : List String
  /-- The texts shown to the operator, in order. -/
  shown : List String := []
  /-- The text that went to the standard output meanwhile. -/
  printed : String := ""
deriving DecidableEq, Inhabited, Repr

/-- A way of putting questions to an operator who types the given lines. -/
abbrev Prompt := Question → List String → Reply

namespace QuestionForm

/-- The admitted letters, separated by a comma. -/
def letters (form : QuestionForm) : String :=
  Json.commaSeparated (form.choices.map fun a => String.singleton a.letter)

/-- The admitted letters in quotes, separated by a comma. -/
def quotedLetters (form : QuestionForm) : String :=
  Json.commaSeparated (form.choices.map fun a => Text.literal (String.singleton a.letter))

end QuestionForm

namespace Terminal

/-- A typed character without regard to case: the long `s` is a form of `s`. -/
def foldCase (c : Char) : Char := if c == '\u017f' then 's' else small c

/-- The answer that a typed line stands for, if the question admits it. -/
def choice? (form : QuestionForm) (line : String) : Option Answer :=
  match line.toList with
  | [c] => form.choices.find? fun a => a.letter == foldCase c
  | _ => none

/-- What is shown when a question is put: the question with the admitted letters, without control
sequences. A blank follows. -/
def promptText (q : Question) : String :=
  Text.visible (Text.stripEnd q.text ++ " (" ++ q.form.letters ++ "):")

/-- What is shown after a line that is no answer. -/
def complaint (form : QuestionForm) (line : String) : String :=
  "Error: " ++ Text.literal line ++ " is not one of " ++ form.quotedLetters ++ ".\n"

/-- A reply after the question was put once more. The blank after it is shown as well, or it goes to the
standard output. -/
def put (aside : Bool) (q : Question) (reply : Reply) : Reply :=
  if aside then { reply with shown := promptText q :: reply.shown, printed := " " ++ reply.printed }
  else { reply with shown := (promptText q ++ " ") :: reply.shown }

/-- Puts a question until a line answers it. -/
def ask (aside : Bool) (q : Question) : List String → Reply
  | [] => put aside q { answer := none, left := [] }
  | line :: rest =>
    if line = "" then put aside q (ask aside q rest)
    else
      match choice? q.form line with
      | some a => put aside q { answer := some a, left := rest }
      | none =>
        let reply := ask aside q rest
        put aside q { reply with shown := complaint q.form line :: reply.shown }

end Terminal

/-- An operator at a terminal. -/
structure Console where
  /-- The lines that are still to be typed. -/
  typed : List String
  prompt : Prompt := Terminal.ask false
  /-- The text that went to the standard output so far. -/
  printed : String := ""
deriving Inhabited

namespace Console

instance : Coe (List String) Console := ⟨fun typed => { typed := typed }⟩

/-- What comes of putting a question. -/
def reply (console : Console) (q : Question) : Reply := console.prompt q console.typed

/-- The console after a question was put. -/
def next (console : Console) (q : Question) : Console :=
  { console with
    typed := (console.reply q).left
    printed := console.printed ++ (console.reply q).printed }

/-- The answer to a question, unless the lines end before. -/
def answer (console : Console) (q : Question) : Attempt Answer :=
  match (console.reply q).answer with
  | some a => .ok a
  | none => .error .inputEnded

end Console

end ApiGraph
