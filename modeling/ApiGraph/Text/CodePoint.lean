/-!
# Code points

A text is a sequence of code points, and an escape can put a code point into it that is no character:
half of a pair that stands alone. A string carries such a text with a stand-in for each half, a
character that means nothing by itself. Where a stand-in, or the mark, is meant as the character that
it is, the mark is put before it.

* `Text.carry`, `Text.ofCodePoints` — how code points are carried;
* `Text.codePoints` — the code points that a string carries; `codePoints_ofCodePoints` says that they
  are all of those that were put in;
* `Text.characters` — one character for each code point;
* `Text.hasHalf` — whether a text holds a half, so that it is no sequence of characters;
* `Text.ofPlain`, `Text.toPlain` — a sequence of characters to and from the string that carries it;
* `Text.comesBefore` — the order by code points.

A string in which neither the mark nor a stand-in occurs carries its own characters
(`characters_eq_toList`).
-/

namespace ApiGraph.Text

/-- Whether a code point is half of a pair. -/
def isHalf (n : Nat) : Bool := 0xd800 ≤ n && n ≤ 0xdfff

/-- Whether a code point is the first half of a pair. -/
def isFirstHalf (n : Nat) : Bool := 0xd800 ≤ n && n ≤ 0xdbff

/-- Whether a code point is the second half of a pair. -/
def isSecondHalf (n : Nat) : Bool := 0xdc00 ≤ n && n ≤ 0xdfff

/-- The code point that two halves stand for. -/
def joinHalves (first second : Nat) : Nat :=
  0x10000 + (first - 0xd800) * 0x400 + (second - 0xdc00)

/-- How far the stand-ins are from the halves. -/
def standInOffset : Nat := 0xfe000

/-- Whether a character can stand in for a half. -/
def isStandIn (c : Char) : Bool := isHalf (c.toNat - standInOffset)

/-- The mark before a character that is meant as it is. -/
def mark : Char := Char.ofNat 0x10ffff

/-- The characters that carry a code point. -/
def carry (n : Nat) : List Char :=
  if isHalf n then [Char.ofNat (n + standInOffset)]
  else
    let c := Char.ofNat n
    if c == mark || isStandIn c then [mark, c] else [c]

/-- The code point that a character carries without a mark before it. -/
def carried (c : Char) : Nat := if isStandIn c then c.toNat - standInOffset else c.toNat

/-- The code points that characters carry. -/
def codePointsOf : List Char → List Nat
  | [] => []
  | [c] => [carried c]
  | c :: d :: rest =>
    if c == mark then d.toNat :: codePointsOf rest else carried c :: codePointsOf (d :: rest)

/-- The text of code points. -/
def ofCodePoints (points : List Nat) : String := String.ofList (points.flatMap carry)

/-- The code points of a text. -/
def codePoints (s : String) : List Nat := codePointsOf s.toList

/-- A character for each code point of a text; a half has its stand-in. -/
def characters (s : String) : List Char :=
  (codePoints s).map fun n => Char.ofNat (if isHalf n then n + standInOffset else n)

/-- Whether a text holds a half of a pair. -/
def hasHalf (s : String) : Bool := (codePoints s).any isHalf

/-- The string that carries a sequence of characters. -/
def ofPlain (s : String) : String := ofCodePoints (s.toList.map Char.toNat)

/-- The sequence of characters that a text is when it holds no half. -/
def toPlain (s : String) : String := String.ofList ((codePoints s).map Char.ofNat)

/-- Whether a text stands before another one, or is the same, in the order of the code points. -/
def comesBefore (a b : String) : Bool :=
  !(codePoints b).lex (codePoints a) fun m n => decide (m < n)

/-! ## Laws of carrying -/

theorem toNat_ofNat_of_isHalf_eq_false {n : Nat} (hn : n < 0x110000) (h : isHalf n = false) :
    (Char.ofNat n).toNat = n := by
  have hv : n.isValidChar := by
    simp only [isHalf, Bool.and_eq_false_imp, decide_eq_true_eq, decide_eq_false_iff_not] at h
    rw [Nat.isValidChar]
    omega
  rw [Char.ofNat, dif_pos hv]
  rfl

theorem toNat_standIn {n : Nat} (h : isHalf n = true) :
    (Char.ofNat (n + standInOffset)).toNat = n + standInOffset := by
  simp only [isHalf, Bool.and_eq_true, decide_eq_true_eq] at h
  apply toNat_ofNat_of_isHalf_eq_false
  · rw [standInOffset]; omega
  · have hge : ¬ n + standInOffset ≤ 0xdfff := by rw [standInOffset]; omega
    simp [isHalf, hge]

theorem codePointsOf_mark_cons (c : Char) (rest : List Char) :
    codePointsOf (mark :: c :: rest) = c.toNat :: codePointsOf rest := by
  simp [codePointsOf]

theorem codePointsOf_cons {c : Char} (h : c ≠ mark) (rest : List Char) :
    codePointsOf (c :: rest) = carried c :: codePointsOf rest := by
  cases rest <;> simp [codePointsOf, h]

theorem codePointsOf_carry_append {n : Nat} (hn : n < 0x110000) (rest : List Char) :
    codePointsOf (carry n ++ rest) = n :: codePointsOf rest := by
  unfold carry
  split
  · next h =>
    have ht := toNat_standIn h
    have hm : Char.ofNat (n + standInOffset) ≠ mark := by
      intro e
      have hm : mark.toNat = 0x10ffff := by decide
      rw [e, hm, standInOffset] at ht
      simp only [isHalf, Bool.and_eq_true, decide_eq_true_eq] at h
      omega
    rw [List.singleton_append, codePointsOf_cons hm, carried, isStandIn, ht]
    simp [h]
  · next h =>
    have ht := toNat_ofNat_of_isHalf_eq_false hn (Bool.eq_false_iff.2 h)
    simp only
    split
    · rw [List.cons_append, List.singleton_append, codePointsOf_mark_cons, ht]
    · next hc =>
      simp only [Bool.or_eq_true, beq_iff_eq, not_or, Bool.not_eq_true] at hc
      rw [List.singleton_append, codePointsOf_cons hc.1, carried, hc.2, ht]
      rfl

/-- The code points of a text are those that were put into it. -/
theorem codePoints_ofCodePoints {points : List Nat} (h : ∀ n ∈ points, n < 0x110000) :
    codePoints (ofCodePoints points) = points := by
  rw [codePoints, ofCodePoints, String.toList_ofList]
  induction points with
  | nil => rfl
  | cons n rest ih =>
    rw [List.flatMap_cons, codePointsOf_carry_append (h n (by simp)),
      ih fun m hm => h m (by simp [hm])]

theorem toNat_lt (c : Char) : c.toNat < 0x110000 := by
  have h : c.toNat.isValidChar := c.valid
  rw [Nat.isValidChar] at h
  omega

theorem carried_lt (c : Char) : carried c < 0x110000 := by
  have h := toNat_lt c
  rw [carried]
  split <;> omega

theorem codePointsOf_lt (cs : List Char) : ∀ n ∈ codePointsOf cs, n < 0x110000 := by
  fun_induction codePointsOf cs with
  | case1 => simp
  | case2 c => simpa using carried_lt c
  | case3 c d rest _ ih => simpa using ⟨toNat_lt d, ih⟩
  | case4 c d rest _ ih => simpa using ⟨carried_lt c, ih⟩

theorem codePoints_lt (s : String) : ∀ n ∈ codePoints s, n < 0x110000 := codePointsOf_lt s.toList

/-- A sequence of characters is got back from the string that carries it. -/
theorem toPlain_ofPlain (s : String) : toPlain (ofPlain s) = s := by
  have hlt : ∀ n ∈ s.toList.map Char.toNat, n < 0x110000 := by
    intro n hn
    obtain ⟨c, -, rfl⟩ := List.mem_map.1 hn
    exact toNat_lt c
  rw [toPlain, ofPlain, codePoints_ofCodePoints hlt, List.map_map]
  have hid : (Char.ofNat ∘ Char.toNat) = id := by
    funext c
    exact Char.ofNat_toNat c
  rw [hid, List.map_id, String.ofList_toList]

theorem isHalf_toNat (c : Char) : isHalf c.toNat = false := by
  have h : c.toNat.isValidChar := c.valid
  rw [Nat.isValidChar] at h
  simp only [isHalf, Bool.and_eq_false_imp, decide_eq_true_eq, decide_eq_false_iff_not]
  omega

theorem codePointsOf_eq_map {s : List Char} (hMark : mark ∉ s)
    (hStandIn : ∀ c ∈ s, isStandIn c = false) : codePointsOf s = s.map Char.toNat := by
  induction s with
  | nil => rfl
  | cons c rest ih =>
    rw [codePointsOf_cons (by rintro rfl; simp at hMark), carried, hStandIn c (by simp),
      ih (fun h => hMark (by simp [h])) fun d hd => hStandIn d (by simp [hd])]
    rfl

/-- A string without the mark and stand-ins carries its own characters. -/
theorem characters_eq_toList {s : String} (hMark : mark ∉ s.toList)
    (hStandIn : ∀ c ∈ s.toList, isStandIn c = false) : characters s = s.toList := by
  rw [characters, codePoints, codePointsOf_eq_map hMark hStandIn, List.map_map]
  conv => rhs; rw [← List.map_id s.toList]
  apply List.map_congr_left
  intro c _
  simp [isHalf_toNat, Char.ofNat_toNat]

/-! ## Sanity checks -/

example : codePoints (ofCodePoints [0x61, 0xd800, 0x10b800, 0x10ffff]) =
    [0x61, 0xd800, 0x10b800, 0x10ffff] := by decide +kernel
example : comesBefore (ofCodePoints [0xdfff]) "\ue000" = true := by decide +kernel
example : comesBefore "\ue000" (ofCodePoints [0xdfff]) = false := by decide +kernel
example : (characters (ofCodePoints [0xd800, 0x10ffff])).length = 2 := by decide +kernel

end ApiGraph.Text
