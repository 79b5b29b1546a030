/-!
# Control sequences

A terminal takes some characters not as text but as commands. A control sequence starts with the
escape character and an opening bracket; parameters, intermediates and one final character follow.

* `Text.afterSequence?` — what follows the control sequence at the start of a text;
* `Text.visible` — a text without its control sequences, found from left to right.

A text without the escape character has none (`visibleChars_eq_self`). What is left of a text may form
a new control sequence, which stays.
-/

namespace ApiGraph.Text

/-- Whether a character is a parameter of a control sequence. -/
def isParameter (c : Char) : Bool := '0' ≤ c && c ≤ '?'

/-- Whether a character stands between the parameters and the end of a control sequence. -/
def isIntermediate (c : Char) : Bool := ' ' ≤ c && c ≤ '/'

/-- Whether a character ends a control sequence. -/
def isFinal (c : Char) : Bool := '@' ≤ c && c ≤ '~'

/-- What follows the control sequence at the start of a text, if there is one. -/
def afterSequence? : List Char → Option (List Char)
  | '\x1b' :: '[' :: rest =>
    match (rest.dropWhile isParameter).dropWhile isIntermediate with
    | c :: after => if isFinal c then some after else none
    | [] => none
  | _ => none

theorem length_lt_of_afterSequence? {s after : List Char} (h : afterSequence? s = some after) :
    after.length < s.length := by
  unfold afterSequence? at h
  split at h
  · next rest =>
    have hp := (List.dropWhile_sublist (l := rest) isParameter).length_le
    have hi := (List.dropWhile_sublist (l := rest.dropWhile isParameter) isIntermediate).length_le
    split at h
    · next c tail hc =>
      split at h
      · obtain rfl := Option.some.inj h
        rw [hc] at hi
        simp only [List.length_cons] at hi ⊢
        omega
      · simp at h
    · simp at h
  · simp at h

/-- The characters that are no part of a control sequence. -/
def visibleChars : List Char → List Char
  | [] => []
  | c :: rest =>
    match _h : afterSequence? (c :: rest) with
    | some after => visibleChars after
    | none => c :: visibleChars rest
termination_by s => s.length
decreasing_by
  · exact length_lt_of_afterSequence? _h
  · simp

/-- A text without its control sequences. -/
def visible (s : String) : String := String.ofList (visibleChars s.toList)

theorem afterSequence?_eq_none {c : Char} (h : c ≠ '\x1b') (rest : List Char) :
    afterSequence? (c :: rest) = none := by
  unfold afterSequence?
  split
  · next e => exact absurd (List.cons.inj e).1 h
  · rfl

/-- All of a text is seen when the escape character is not in it. -/
theorem visibleChars_eq_self {s : List Char} (h : '\x1b' ∉ s) : visibleChars s = s := by
  induction s with
  | nil => simp [visibleChars]
  | cons c rest ih =>
    obtain ⟨hc, hrest⟩ := not_or.1 (mt List.mem_cons.2 h)
    rw [visibleChars]
    split
    · next after e => simp [afterSequence?_eq_none (Ne.symm hc)] at e
    · rw [ih hrest]

/-! ## Sanity checks -/

example : visible "\x1b[1;31mred\x1b[0m" = "red" := by decide +kernel
example : visible "\x1b[3 (y, n): " = ", n): " := by decide +kernel
example : visible "\x1b\x1b[m[m" = "\x1b[m" := by decide +kernel
example : visible "\x1b]0;title\x07" = "\x1b]0;title\x07" := by decide +kernel

end ApiGraph.Text
