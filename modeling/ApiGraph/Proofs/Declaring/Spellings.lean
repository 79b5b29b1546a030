import Mathlib.Data.List.Forall2
import ApiGraph.Naming

/-!
# Names that are spelt alike

Fields and arguments keep the letters and the digits of their names. All other characters become
underscores, so that different names may be spelt alike. A selection leaves out an at sign in front of a
name, where a definition has an underscore for it.

* `IsMarked` — the names that the two spell differently;
* `fieldName_eq_append`, `fieldName_eq_selectedName` — how they do, and that they spell all others alike;
* `SpeltAlike` — two names with the same letters and digits at the same places;
* `fieldName_eq_iff` — these and no other ones are spelt alike;
* `nodup_map_fieldName_iff` — when the spellings of some names are all different.
-/

namespace ApiGraph

/-! ## Two spellings -/

/-- A name with an at sign in front, and something other than a digit after it. -/
def IsMarked (s : String) : Prop :=
  ∃ c rest, Text.characters s = '@' :: c :: rest ∧ isDecimal c = false

theorem isDecimal_spelling (c : Char) : isDecimal (if isNameChar c then c else '_') = isDecimal c := by
  by_cases h : isNameChar c
  · rw [if_pos h]
  · rw [if_neg h]
    symm
    apply Bool.eq_false_iff.2
    intro hdecimal
    exact h (by simp [isNameChar, hdecimal])

/-- An at sign in front becomes an underscore, which stands in for the one in front of a digit. -/
theorem legalChars_at (c : Char) (rest : List Char) : legalChars ('@' :: c :: rest) =
    if isDecimal c then legalChars (c :: rest) else '_' :: legalChars (c :: rest) := by
  have hat : isNameChar '@' = false := by decide
  have hmark : isDecimal '_' = false := by decide
  have hc := isDecimal_spelling c
  cases hdecimal : isDecimal c <;> rw [hdecimal] at hc <;> simp [legalChars, hat, hmark, hc]

/-- The name of a field is the selected name, with an underscore in front for the at sign. -/
theorem fieldName_eq_append {s : String} (h : IsMarked s) : fieldName s = "_" ++ selectedName s := by
  obtain ⟨c, rest, hs, hc⟩ := h
  simp only [fieldName, legalName, selectedName, hs, legalChars_at, hc]
  apply String.toList_injective
  simp

theorem fieldName_eq_selectedName {s : String} (h : ¬IsMarked s) : fieldName s = selectedName s := by
  rw [fieldName, legalName, selectedName]
  split
  · next rest hs =>
    rw [hs]
    cases rest with
    | nil => rfl
    | cons c rest =>
      have hc : isDecimal c = true := by
        by_contra hnot
        exact h ⟨c, rest, hs, Bool.eq_false_iff.2 hnot⟩
      rw [legalChars_at, if_pos hc]
  · rfl

/-! ## Spellings of different names -/

/-- Whether a character is a letter of the Latin alphabet without accents or a digit. -/
def isSign (c : Char) : Bool := isDecimal c || isSmall c || isCapital c

/-- A text with an underscore in front when the first character would be a digit or missing. -/
def padded : List Char → List Char
  | [] => ['_']
  | c :: rest => if isDecimal c then '_' :: c :: rest else c :: rest

/-- Two names have the same letters and digits at the same places, where there is one more place in front
of a digit or of nothing. -/
def SpeltAlike (s t : String) : Prop :=
  List.Forall₂ (fun a b => a = b ∨ isSign a = false ∧ isSign b = false)
    (padded (Text.characters s)) (padded (Text.characters t))

theorem isNameChar_eq (c : Char) : isNameChar c = (c == '_' || isSign c) := by
  simp [isNameChar, isSign, Bool.or_assoc]

/-- All characters that are no letters and no digits are spelt alike. -/
theorem spelling_eq_iff (a b : Char) :
    (if isNameChar a then a else '_') = (if isNameChar b then b else '_') ↔
      a = b ∨ isSign a = false ∧ isSign b = false := by
  have hmark : isSign '_' = false := by decide
  have hspelt : ∀ c, (if isNameChar c then c else '_') = if isSign c then c else '_' := by
    intro c
    rw [isNameChar_eq]
    by_cases hc : c = '_'
    · simp [hc]
    · simp [hc]
  rw [hspelt, hspelt]
  grind

theorem legalChars_eq_map_padded (s : List Char) :
    legalChars s = (padded s).map fun c => if isNameChar c then c else '_' := by
  have hmark : isNameChar '_' = true := by decide
  cases s with
  | nil => simp [legalChars, padded, hmark]
  | cons c rest =>
    have hdecimal := isDecimal_spelling c
    cases hc : isDecimal c <;> rw [hc] at hdecimal <;> simp [legalChars, padded, hc, hdecimal, hmark]

/-- Two names are spelt the same just if they are alike. -/
theorem fieldName_eq_iff {s t : String} : fieldName s = fieldName t ↔ SpeltAlike s t := by
  rw [fieldName, fieldName, legalName, legalName, String.ofList_inj, legalChars_eq_map_padded,
    legalChars_eq_map_padded, ← List.forall₂_eq_eq_eq, List.forall₂_map_left_iff,
    List.forall₂_map_right_iff, SpeltAlike]
  simp only [spelling_eq_iff]

instance (s t : String) : Decidable (SpeltAlike s t) := decidable_of_iff _ fieldName_eq_iff

/-- The spellings of names are all different just if no two of the names are alike. -/
theorem nodup_map_fieldName_iff {names : List String} :
    (names.map fieldName).Nodup ↔ names.Pairwise fun s t => ¬SpeltAlike s t := by
  rw [List.Nodup, List.pairwise_map]
  simp only [ne_eq, fieldName_eq_iff]

/-- Whether anything that is spelt for names is spelt differently is a matter of the names. -/
theorem nodup_map_iff_of_spelt {α : Type} {spelt : α → String} {xs : List α} {names : List String}
    (h : List.Forall₂ (fun x s => spelt x = fieldName s) xs names) :
    (xs.map spelt).Nodup ↔ names.Pairwise fun s t => ¬SpeltAlike s t := by
  have hmap : xs.map spelt = names.map fieldName := by
    rwa [← List.forall₂_eq_eq_eq, List.forall₂_map_left_iff, List.forall₂_map_right_iff]
  rw [hmap, nodup_map_fieldName_iff]

example : SpeltAlike "a-b" "a_b" ∧ SpeltAlike "é" "" ∧ ¬SpeltAlike "a-b" "ab" := by decide +kernel

end ApiGraph
