import ApiGraph.Definitions.Draft
import ApiGraph.Proofs.Writing.Literals

/-!
# Names in the grammar

Whatever text a name is made of, it is a legal name.

* `legalChars_mem_name`, `typeName_mem_name`, `fieldName_mem_name` — names of types, fields and arguments;
* `fieldName_legalName` — a legal name is spelt as it is;
* `pascalCase_spelt` — the words of a text hold no other characters than a name may have;
* `Drafting.freshName_mem_name` — a name stays one with words and a number added to it.
-/

namespace ApiGraph

open Sdl

theorem isNameChar_of_isDecimal {c : Char} (h : isDecimal c = true) : isNameChar c = true := by
  simp [isNameChar, h]

/-- A name with characters of a name added to it. -/
theorem append_mem_name {s t : List Char} (hs : s ∈ name) (ht : ∀ c ∈ t, isNameChar c = true) :
    s ++ t ∈ name := by
  rw [mem_name_iff] at hs ⊢
  cases s with
  | nil => cases hs
  | cons c rest =>
    rw [List.cons_append, isLegalName, Bool.and_eq_true] at *
    refine ⟨hs.1, ?_⟩
    rw [← List.cons_append, List.all_append, hs.2, Bool.true_and, List.all_eq_true]
    exact ht

/-! ## Any text as a name -/

theorem legalChars_mem_name (s : List Char) : legalChars s ∈ name := by
  have hall : ∀ c ∈ s.map fun c => if isNameChar c then c else '_', isNameChar c = true := by
    intro c hc
    obtain ⟨d, -, rfl⟩ := List.mem_map.1 hc
    split
    · assumption
    · decide
  rw [mem_name_iff, legalChars]
  split
  · decide
  · next c rest he =>
    rw [he] at hall
    split
    · rw [isLegalName, List.all_cons, Bool.and_eq_true, Bool.and_eq_true, List.all_eq_true]
      exact ⟨by decide, by decide, hall⟩
    · next hdecimal =>
      rw [isLegalName, Bool.and_eq_true, List.all_eq_true]
      exact ⟨by simpa using hdecimal, hall⟩

theorem legalName_mem_name (s : String) : (legalName s).toList ∈ name := by
  rw [legalName, String.toList_ofList]
  exact legalChars_mem_name _

theorem typeName_mem_name (ref : String) : (typeName ref).toList ∈ name := legalName_mem_name _

theorem fieldName_mem_name (s : String) : (fieldName s).toList ∈ name := legalName_mem_name _

/-! ## Legal names -/

theorem toNat_of_isNameChar {c : Char} (h : isNameChar c = true) : c.toNat < 128 := by
  have hle : ∀ {b : Char}, c ≤ b → c.toNat ≤ b.toNat := fun hcb => UInt32.le_iff_toNat_le.1 hcb
  simp only [isNameChar, isDecimal, isSmall, isCapital, Bool.or_eq_true, Bool.and_eq_true,
    decide_eq_true_eq, beq_iff_eq] at h
  rcases h with ((rfl | ⟨-, h⟩) | ⟨-, h⟩) | ⟨-, h⟩
  · decide
  all_goals exact (hle h).trans_lt (by decide)

/-- A text with nothing but characters of names carries these. -/
theorem characters_of_isNameChar {s : String} (h : ∀ c ∈ s.toList, isNameChar c = true) :
    Text.characters s = s.toList := by
  refine Text.characters_eq_toList (fun hmark => ?_) fun c hc => ?_
  · exact absurd (toNat_of_isNameChar (h _ hmark)) (by decide)
  · have hlt := toNat_of_isNameChar (h c hc)
    rw [Text.isStandIn, show c.toNat - Text.standInOffset = 0 by simp [Text.standInOffset]; omega]
    rfl

theorem isNameChar_of_isLegalName {s : List Char} (h : isLegalName s = true) :
    ∀ c ∈ s, isNameChar c = true := by
  cases s with
  | nil => simp
  | cons c rest =>
    rw [isLegalName, Bool.and_eq_true, List.all_eq_true] at h
    exact h.2

theorem legalChars_of_isLegalName {s : List Char} (h : isLegalName s = true) : legalChars s = s := by
  have hall := isNameChar_of_isLegalName h
  cases s with
  | nil => cases h
  | cons c rest =>
    rw [isLegalName, Bool.and_eq_true] at h
    have hmap : ((c :: rest).map fun c => if isNameChar c then c else '_') = c :: rest := by
      conv => rhs; rw [← List.map_id (c :: rest)]
      exact List.map_congr_left fun d hd => if_pos (hall d hd)
    rw [legalChars, hmap]
    exact if_neg (by simpa using h.1)

theorem legalName_of_isLegalName {s : String} (h : isLegalName s.toList = true) : legalName s = s := by
  apply String.toList_injective
  rw [legalName, String.toList_ofList, characters_of_isNameChar (isNameChar_of_isLegalName h),
    legalChars_of_isLegalName h]

/-- A legal name is spelt as it is. -/
theorem fieldName_legalName (s : String) : fieldName (legalName s) = legalName s :=
  legalName_of_isLegalName (mem_name_iff.1 (legalName_mem_name s))

theorem exists_operationName (method path : String) (identifier : Option String) :
    ∃ t, operationName method path identifier = legalName t := by
  cases identifier with
  | none => exact ⟨_, rfl⟩
  | some id =>
    by_cases h : id = ""
    · exact ⟨_, if_pos h⟩
    · exact ⟨_, if_neg h⟩

theorem operationName_mem_name (method path : String) (identifier : Option String) :
    (operationName method path identifier).toList ∈ name := by
  obtain ⟨t, ht⟩ := exists_operationName method path identifier
  rw [ht]
  exact legalName_mem_name t

theorem selectedName_mem_name (s : String) : (selectedName s).toList ∈ name := by
  rw [selectedName]
  split <;> simpa using legalChars_mem_name _

/-! ## Words -/

theorem isCapital_capital {c : Char} (h : isSmall c = true) : isCapital (capital c) = true := by
  have hall : ∀ k < 26, isCapital (Char.ofNat (97 + k - 32)) = true := by decide
  have hle : 97 ≤ c.toNat ∧ c.toNat ≤ 122 := by
    simpa [isSmall, Char.le_def, UInt32.le_iff_toNat_le] using h
  rw [capital, if_pos h, show c.toNat = 97 + (c.toNat - 97) by omega]
  exact hall _ (by omega)

theorem joinWords_spelt (inWord : Bool) (s : List Char) :
    ∀ c ∈ joinWords inWord s, isNameChar c = true := by
  induction s generalizing inWord with
  | nil => simp [joinWords]
  | cons c rest ih =>
    rw [joinWords]
    split
    · next hsmall =>
      refine List.forall_mem_cons.2 ⟨?_, ih true⟩
      split
      · simp [isNameChar, hsmall]
      · simp [isNameChar, isCapital_capital hsmall]
    · split
      · next hcapital => exact List.forall_mem_cons.2 ⟨by simp [isNameChar, hcapital], ih true⟩
      · split
        · next hdecimal =>
          exact List.forall_mem_cons.2 ⟨isNameChar_of_isDecimal hdecimal, ih false⟩
        · exact ih false

theorem pascalCase_spelt (s : String) : ∀ c ∈ (pascalCase s).toList, isNameChar c = true := by
  rw [pascalCase, String.toList_ofList]
  exact joinWords_spelt false s.toList

/-! ## Numbered names -/

namespace Drafting

variable {s : String}

theorem candidateName_mem_name (h : s.toList ∈ name) (k : Nat) : (candidateName s k).toList ∈ name := by
  cases k with
  | zero => exact h
  | succ k =>
    have hdigits : (toString (k + 2)).toList = Nat.toDigits 10 (k + 2) := String.toList_ofList
    rw [candidateName, String.toList_append, hdigits]
    exact append_mem_name h fun c hc => isNameChar_of_isDecimal (isDecimal_of_mem_toDigits hc)

/-- The first free one of a name and the same name with numbers. -/
theorem freshName_mem_name (h : s.toList ∈ name) (taken : List String) :
    (freshName taken s).toList ∈ name := by
  rw [freshName]
  cases hfound : ((List.range (taken.length + 1)).map (candidateName s)).find? (· ∉ taken) with
  | none => exact h
  | some free =>
    obtain ⟨k, -, rfl⟩ := List.mem_map.1 (List.mem_of_find?_eq_some hfound)
    exact candidateName_mem_name h k

end Drafting

end ApiGraph
