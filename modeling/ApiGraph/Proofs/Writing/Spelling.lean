import ApiGraph.Proofs.Writing.Names

/-!
# How names are spelt

What a name keeps of the text that it is made of, and which texts are spelt as they are.

* `joinWords_kept` — joined words keep all letters and digits, up to the case of letters;
* `joinWords_joinWords`, `joinWords_legalChars` — words that are joined already, and the words of a legal
  name;
* `typeName_of_isLegalName` — the type name for a legal name, which is a key and has nothing to unescape;
* `naming_laws` — names are legal, keep what they can, and stay when they are made again.
-/

namespace ApiGraph

open Sdl

/-- A letter or a digit, the characters that words are made of. -/
def isWordChar (c : Char) : Bool := isSmall c || isCapital c || isDecimal c

/-! ## Characters -/

theorem isNameChar_of_isWordChar {c : Char} (h : isWordChar c = true) : isNameChar c = true := by
  simp only [isWordChar, isNameChar, Bool.or_eq_true] at *
  tauto

theorem isSmall_of_isCapital {c : Char} (h : isCapital c = true) : isSmall c = false := by
  simp only [isSmall, isCapital, Bool.and_eq_true, Bool.and_eq_false_iff, decide_eq_true_eq,
    decide_eq_false_iff_not, Char.le_def, UInt32.le_iff_toNat_le] at *
  left
  have hZ : 'Z'.val.toNat < 'a'.val.toNat := by decide
  omega

namespace Text

/-- The character of a code point that stands without a mark. -/
theorem ofNat_carried (c : Char) :
    Char.ofNat (if isHalf (carried c) then carried c + standInOffset else carried c) = c := by
  rw [carried]
  by_cases hc : isStandIn c = true
  · have hhalf : isHalf (c.toNat - standInOffset) = true := hc
    have hle : standInOffset ≤ c.toNat := by
      simp only [isHalf, Bool.and_eq_true, decide_eq_true_eq] at hhalf
      omega
    rw [if_pos hc, if_pos hhalf, Nat.sub_add_cancel hle, Char.ofNat_toNat]
  · rw [if_neg hc, if_neg (by simp [isHalf_toNat]), Char.ofNat_toNat]

/-- The characters of a text are those that it is written with, without the marks. -/
theorem filter_characters {p : Char → Bool} (h : p mark = false) (s : String) :
    (characters s).filter p = s.toList.filter p := by
  rw [characters, codePoints]
  induction hs : s.toList using codePointsOf.induct generalizing s with
  | case1 => rfl
  | case2 c => rw [codePointsOf, List.map_singleton, ofNat_carried]
  | case3 c d rest hmark ih =>
    obtain rfl : c = mark := by simpa using hmark
    rw [codePointsOf_mark_cons, List.map_cons, List.filter_cons_of_neg (a := mark) (by simp [h])]
    simp [isHalf_toNat, Char.ofNat_toNat, List.filter_cons, ih (String.ofList rest) String.toList_ofList]
  | case4 c d rest hmark ih =>
    rw [codePointsOf_cons (by simpa using hmark), List.map_cons, ofNat_carried, List.filter_cons,
      List.filter_cons, ih (String.ofList (d :: rest)) String.toList_ofList]

end Text

/-! ## Words -/

/-- Joined words hold the letters and digits of a text in their order, some small letters as capitals. -/
theorem joinWords_kept (inWord : Bool) (s : List Char) :
    List.Forall₂ (fun kept c => kept = c ∨ kept = capital c) (joinWords inWord s)
      (s.filter isWordChar) := by
  induction s generalizing inWord with
  | nil => exact .nil
  | cons c rest ih =>
    rw [joinWords, List.filter_cons]
    split
    · next hsmall =>
      have hword : isWordChar c = true := by simp [isWordChar, hsmall]
      rw [if_pos hword]
      refine .cons ?_ (ih true)
      cases inWord <;> simp
    · next hsmall =>
      split
      · next hcapital =>
        have hword : isWordChar c = true := by simp [isWordChar, hcapital]
        rw [if_pos hword]
        exact .cons (.inl rfl) (ih true)
      · next hcapital =>
        split
        · next hdecimal =>
          have hword : isWordChar c = true := by simp [isWordChar, hdecimal]
          rw [if_pos hword]
          exact .cons (.inl rfl) (ih false)
        · next hdecimal =>
          have hword : ¬isWordChar c = true := by simp [isWordChar, hsmall, hcapital, hdecimal]
          rw [if_neg hword]
          exact ih false

/-- A text has no words if it has no letters and digits. -/
theorem joinWords_eq_nil_iff {inWord : Bool} {s : List Char} :
    joinWords inWord s = [] ↔ s.filter isWordChar = [] := by
  rw [← List.length_eq_zero_iff, (joinWords_kept inWord s).length_eq, List.length_eq_zero_iff]

/-- Joined words are joined as they are, after a letter too if the first of them goes on with a word. -/
theorem joinWords_joinWords {inWord inWord' : Bool} (h : inWord' = true → inWord = true)
    (s : List Char) : joinWords inWord (joinWords inWord' s) = joinWords inWord' s := by
  have hcapital : ∀ {c : Char}, isCapital c = true → ∀ (b : Bool) (rest : List Char),
      joinWords b (c :: rest) = c :: joinWords true rest := by
    intro c hc b rest
    rw [joinWords, isSmall_of_isCapital hc, if_neg Bool.false_ne_true, if_pos hc]
  induction s generalizing inWord inWord' with
  | nil => rfl
  | cons c rest ih =>
    rw [joinWords]
    split
    · next hsmall =>
      cases inWord' with
      | false => exact (hcapital (isCapital_capital hsmall) _ _).trans (congrArg _ (ih id))
      | true => simp [joinWords, hsmall, h rfl, @ih true true id]
    · next hsmall =>
      split
      · next hc => rw [hcapital hc, ih id]
      · next hc =>
        split
        · next hdecimal => rw [joinWords, if_neg hsmall, if_neg hc, if_pos hdecimal, ih id]
        · exact ih (by simp)

/-- A text and its legal spelling have the same words. -/
theorem joinWords_legalChars (s : List Char) : joinWords false (legalChars s) = joinWords false s := by
  have hmark : ∀ (b : Bool) (rest : List Char), joinWords b ('_' :: rest) = joinWords false rest :=
    fun b rest => rfl
  have hspelling : ∀ b, joinWords b (s.map fun c => if isNameChar c then c else '_') = joinWords b s := by
    induction s with
    | nil => exact fun b => rfl
    | cons c rest ih =>
      intro b
      rw [List.map_cons]
      by_cases hc : isNameChar c = true
      · rw [if_pos hc, joinWords, joinWords, ih true, ih false]
      · have hword : isWordChar c = false :=
          Bool.eq_false_iff.2 fun h => hc (isNameChar_of_isWordChar h)
        simp only [isWordChar, Bool.or_eq_false_iff] at hword
        rw [if_neg hc, hmark, ih false, joinWords]
        simp [hword]
  rw [legalChars]
  split
  · next hnil => rw [← hspelling false, hnil]; rfl
  · next c rest hs =>
    rw [← hspelling false, hs]
    split <;> simp [hmark]

theorem pascalCase_pascalCase (s : String) : pascalCase (pascalCase s) = pascalCase s := by
  simp only [pascalCase, String.toList_ofList, joinWords_joinWords id]

/-! ## Names of types -/

/-- A text without a slash is its own last segment. -/
theorem Pointer.lastSegment_of_not_mem {s : String} (h : '/' ∉ s.toList) : lastSegment s = s := by
  have hsplit : ∀ cs : List Char, '/' ∉ cs → splitSlashes cs = [cs] := by
    intro cs hcs
    fun_induction splitSlashes cs with
    | case1 => rfl
    | case2 rest => simp at hcs
    | case3 c rest _ ih => simp [ih fun hrest => hcs (List.mem_cons_of_mem c hrest)]
  rw [lastSegment, hsplit _ h, List.getLastD_cons, List.getLastD_nil, String.ofList_toList]

/-- A text without a tilde has nothing to unescape. -/
theorem Pointer.unescape_of_not_mem {s : String} (h : '~' ∉ s.toList) : unescape s = s := by
  have hslashes : ∀ cs : List Char, '~' ∉ cs → restoreSlashes cs = cs := by
    intro cs hcs
    fun_induction restoreSlashes cs with
    | case1 => rfl
    | case2 rest => simp at hcs
    | case3 c rest _ ih => rw [ih fun hrest => hcs (List.mem_cons_of_mem c hrest)]
  have htildes : ∀ cs : List Char, '~' ∉ cs → restoreTildes cs = cs := by
    intro cs hcs
    fun_induction restoreTildes cs with
    | case1 => rfl
    | case2 rest => simp at hcs
    | case3 c rest _ ih => rw [ih fun hrest => hcs (List.mem_cons_of_mem c hrest)]
  rw [unescape, hslashes _ h, htildes _ h, String.ofList_toList]

/-- A legal name is a key, in which nothing is escaped. -/
theorem typeName_of_isLegalName {s : String} (h : isLegalName s.toList = true) :
    typeName s = typeNameOfKey s := by
  have hall := isNameChar_of_isLegalName h
  have habsent : ∀ c, isNameChar c = false → c ∉ s.toList := fun c hc hmem => by
    rw [hall c hmem] at hc
    cases hc
  rw [typeName, Pointer.lastSegment_of_not_mem (habsent '/' (by decide)),
    Pointer.unescape_of_not_mem (habsent '~' (by decide))]

/-- The name for a key with words has the same words. -/
theorem pascalCase_legalName_pascalCase (key : String) :
    pascalCase (legalName (pascalCase key)) = pascalCase key := by
  rw [pascalCase, legalName, String.toList_ofList, joinWords_legalChars,
    characters_of_isNameChar (pascalCase_spelt key)]
  exact pascalCase_pascalCase key

theorem pascalCase_eq_empty_iff {s : String} : pascalCase s = "" ↔ s.toList.filter isWordChar = [] := by
  rw [pascalCase, ← @joinWords_eq_nil_iff false, ← String.toList_inj, String.toList_ofList]
  rfl

/-- The name for a key without words has no words either. -/
theorem pascalCase_legalName_of_eq_empty {key : String} (h : pascalCase key = "") :
    pascalCase (legalName key) = "" := by
  rw [pascalCase, legalName, String.toList_ofList, joinWords_legalChars,
    joinWords_eq_nil_iff.2 (by rw [Text.filter_characters (by decide), pascalCase_eq_empty_iff.1 h])]

/-- The name for a key is the name for itself. -/
theorem typeNameOfKey_typeNameOfKey (key : String) :
    typeNameOfKey (typeNameOfKey key) = typeNameOfKey key := by
  have hlegal : legalName (typeNameOfKey key) = typeNameOfKey key := fieldName_legalName _
  by_cases h : pascalCase key = ""
  · have hname : typeNameOfKey key = legalName key := by rw [typeNameOfKey, if_pos h]
    rw [hname] at hlegal ⊢
    rw [typeNameOfKey, if_pos (pascalCase_legalName_of_eq_empty h), hlegal]
  · have hname : typeNameOfKey key = legalName (pascalCase key) := by rw [typeNameOfKey, if_neg h]
    rw [hname, typeNameOfKey, pascalCase_legalName_pascalCase, if_neg h]

/-! ## Names -/

/-- Every name is legal, whatever text it is made of. Joined words keep the letters and digits of a text,
in order and up to their case, and are joined as they are. A text is spelt as it is as the name of a field
or an argument if it is a legal name, and only then. The name of a type is the name of the type that it
names. -/
theorem naming_laws (s : String) :
    (typeName s).toList ∈ name ∧ (fieldName s).toList ∈ name ∧ (selectedName s).toList ∈ name ∧
      (∀ path identifier, (operationName s path identifier).toList ∈ name) ∧
      List.Forall₂ (fun kept c => kept = c ∨ kept = capital c) (pascalCase s).toList
        ((Text.characters s).filter isWordChar) ∧
      pascalCase (pascalCase s) = pascalCase s ∧
      (fieldName s = s ↔ s.toList ∈ name) ∧
      typeName (typeName s) = typeName s := by
  refine ⟨typeName_mem_name s, fieldName_mem_name s, selectedName_mem_name s, operationName_mem_name s, ?_,
    pascalCase_pascalCase s, ⟨fun h => h ▸ fieldName_mem_name s, fun h => ?_⟩, ?_⟩
  · rw [pascalCase, String.toList_ofList, Text.filter_characters (by decide)]
    exact joinWords_kept false s.toList
  · exact legalName_of_isLegalName (mem_name_iff.1 h)
  · rw [typeName_of_isLegalName (mem_name_iff.1 (typeName_mem_name s))]
    exact typeNameOfKey_typeNameOfKey _

end ApiGraph
