/-!
# Questions and answers

* `Answer` — yes, no, or a choice one by one, each with its letter;
* `Question` — a question with the answers that it admits.
-/

namespace ApiGraph

/-- An answer to a question. -/
inductive Answer where
  | yes
  | no
  /-- Choose one by one. -/
  | subset
deriving DecidableEq, Inhabited, Repr

namespace Answer

/-- The letter that stands for an answer. -/
def letter : Answer → Char
  | .yes => 'y'
  | .no => 'n'
  | .subset => 's'

/-- The answer for which a small letter stands. -/
def ofLetter? (c : Char) : Option Answer :=
  if c = 'y' then some .yes
  else if c = 'n' then some .no
  else if c = 's' then some .subset
  else none

end Answer

/-- The answers that a question admits. -/
inductive QuestionForm where
  /-- Yes or no. -/
  | yesNo
  /-- Yes, no, or a choice one by one. -/
  | yesNoSubset
deriving DecidableEq, Inhabited, Repr

namespace QuestionForm

/-- The answers that a question admits, in the order in which they are offered. -/
def choices : QuestionForm → List Answer
  | .yesNo => [.yes, .no]
  | .yesNoSubset => [.yes, .no, .subset]

end QuestionForm

/-- A question as it is put. -/
structure Question where
  form : QuestionForm
  text : String
deriving DecidableEq, Inhabited, Repr

end ApiGraph
