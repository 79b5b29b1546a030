import ApiGraph.Text.CodePoint

/-!
# Texts as bytes

A text is written as bytes in UTF-8, and bytes are read back as far as they are characters. A byte that
is part of no character is read as a half of a pair, and such a half is written as its byte again. So
any bytes are a text, but several texts can have the same bytes.

* `Utf8.bytesOf`, `Utf8.encode` — the bytes of a code point and of several;
* `Utf8.leading`, `Utf8.decode` — the code point at the start of bytes, and all of their code points;
* `Utf8.normal` — the text that is read from the bytes of a text.

`encode_decode` says that no bytes are lost in reading, `decode_encode` that characters are read as they
are written, and `normal_eq_normal_iff` that two texts have the same normal form when they have the same
bytes.
-/

namespace ApiGraph.Utf8

/-- The byte that a half of a pair stands for. -/
def byteOfHalf? (n : Nat) : Option Nat :=
  if 0xdc80 ≤ n && n ≤ 0xdcff then some (n - 0xdc00) else none

/-- The bytes of a code point. -/
def bytesOf (n : Nat) : List Nat :=
  match byteOfHalf? n with
  | some b => [b]
  | none =>
    if n < 0x80 then [n]
    else if n < 0x800 then [0xc0 + n / 0x40, 0x80 + n % 0x40]
    else if n < 0x10000 then [0xe0 + n / 0x1000, 0x80 + n / 0x40 % 0x40, 0x80 + n % 0x40]
    else
      [0xf0 + n / 0x40000, 0x80 + n / 0x1000 % 0x40, 0x80 + n / 0x40 % 0x40, 0x80 + n % 0x40]

/-- The bytes of code points. -/
def encode (points : List Nat) : List Nat := points.flatMap bytesOf

/-- Whether a byte goes on with a character. -/
def isTail (b : Nat) : Bool := 0x80 ≤ b && b ≤ 0xbf

/-- The character of two bytes, of which the first is given. -/
def two? (a : Nat) : List Nat → Option Nat
  | b :: _ =>
    if 0xc2 ≤ a && a ≤ 0xdf && isTail b then some ((a - 0xc0) * 0x40 + (b - 0x80)) else none
  | [] => none

/-- The character of three bytes, of which the first is given. It has to be one that two bytes do not
hold, and no half of a pair. -/
def three? (a : Nat) : List Nat → Option Nat
  | b :: c :: _ =>
    let n := (a - 0xe0) * 0x1000 + (b - 0x80) * 0x40 + (c - 0x80)
    if 0xe0 ≤ a && a ≤ 0xef && isTail b && isTail c && 0x800 ≤ n && !Text.isHalf n then some n
    else none
  | _ => none

/-- The character of four bytes, of which the first is given. It has to be one that three bytes do not
hold. -/
def four? (a : Nat) : List Nat → Option Nat
  | b :: c :: d :: _ =>
    let n := (a - 0xf0) * 0x40000 + (b - 0x80) * 0x1000 + (c - 0x80) * 0x40 + (d - 0x80)
    if 0xf0 ≤ a && isTail b && isTail c && isTail d && 0x10000 ≤ n && n < 0x110000 then some n
    else none
  | _ => none

/-- The code point that a byte starts with those that follow it, and how many of those it takes. -/
def leading (a : Nat) (rest : List Nat) : Nat × Nat :=
  if a < 0x80 then (a, 0)
  else
    match two? a rest, three? a rest, four? a rest with
    | some n, _, _ => (n, 1)
    | none, some n, _ => (n, 2)
    | none, none, some n => (n, 3)
    | none, none, none => (0xdc00 + a, 0)

/-- The code points of bytes, of which some at the start are read already. -/
def decodeFrom : Nat → List Nat → List Nat
  | _, [] => []
  | read + 1, _ :: rest => decodeFrom read rest
  | 0, a :: rest => (leading a rest).1 :: decodeFrom (leading a rest).2 rest

/-- The code points of bytes. -/
def decode (bytes : List Nat) : List Nat := decodeFrom 0 bytes

/-- The text that is read from the bytes of a text. -/
def normal (s : String) : String := Text.ofCodePoints (decode (encode (Text.codePoints s)))

/-! ## Laws of reading -/

theorem byteOfHalf?_eq_none {n : Nat} (h : n < 0xdc80 ∨ 0xdcff < n) : byteOfHalf? n = none := by
  simp only [byteOfHalf?, Bool.and_eq_true, decide_eq_true_eq, ite_eq_right_iff, reduceCtorEq,
    imp_false]
  omega

theorem bytesOf_half {b : Nat} (hLower : 0x80 ≤ b) (hUpper : b < 0x100) :
    bytesOf (0xdc00 + b) = [b] := by
  have hHalf : byteOfHalf? (0xdc00 + b) = some b := by
    simp only [byteOfHalf?, Bool.and_eq_true, decide_eq_true_eq, Option.ite_none_right_eq_some,
      Option.some.injEq]
    omega
  rw [bytesOf, hHalf]

theorem bytesOf_of_lt_80 {n : Nat} (h : n < 0x80) : bytesOf n = [n] := by
  rw [bytesOf, byteOfHalf?_eq_none (Or.inl (by omega))]
  simp only [h, if_true]

theorem bytesOf_of_lt_800 {n : Nat} (hLower : 0x80 ≤ n) (hUpper : n < 0x800) :
    bytesOf n = [0xc0 + n / 0x40, 0x80 + n % 0x40] := by
  rw [bytesOf, byteOfHalf?_eq_none (Or.inl (by omega))]
  simp only [Nat.not_lt.2 hLower, hUpper, if_true, if_false]

theorem bytesOf_of_lt_10000 {n : Nat} (hLower : 0x800 ≤ n) (hUpper : n < 0x10000)
    (hHalf : n < 0xdc80 ∨ 0xdcff < n) :
    bytesOf n = [0xe0 + n / 0x1000, 0x80 + n / 0x40 % 0x40, 0x80 + n % 0x40] := by
  have hOne : ¬ n < 0x80 := by omega
  rw [bytesOf, byteOfHalf?_eq_none hHalf]
  simp only [hOne, Nat.not_lt.2 hLower, hUpper, if_true, if_false]

theorem bytesOf_of_ge_10000 {n : Nat} (hLower : 0x10000 ≤ n) :
    bytesOf n = [0xf0 + n / 0x40000, 0x80 + n / 0x1000 % 0x40, 0x80 + n / 0x40 % 0x40,
      0x80 + n % 0x40] := by
  have hOne : ¬ n < 0x80 := by omega
  have hTwo : ¬ n < 0x800 := by omega
  rw [bytesOf, byteOfHalf?_eq_none (Or.inr (by omega))]
  simp only [hOne, hTwo, Nat.not_lt.2 hLower, if_false]

theorem bytesOf_two {a n : Nat} {rest : List Nat} (h : two? a rest = some n) :
    bytesOf n = a :: rest.take 1 := by
  unfold two? at h
  split at h
  · rename_i b tail
    simp only [isTail, Option.ite_none_right_eq_some, Bool.and_eq_true, decide_eq_true_eq,
      Option.some.injEq] at h
    rw [bytesOf_of_lt_800 (by omega) (by omega)]
    simp only [List.take_succ_cons, List.take_zero, List.cons.injEq, and_true]
    omega
  · simp at h

theorem bytesOf_three {a n : Nat} {rest : List Nat} (h : three? a rest = some n) :
    bytesOf n = a :: rest.take 2 := by
  unfold three? at h
  split at h
  · rename_i b c tail
    simp only [isTail, Text.isHalf, Option.ite_none_right_eq_some, Bool.and_eq_true,
      Bool.not_eq_true', Bool.and_eq_false_imp, decide_eq_true_eq, decide_eq_false_iff_not,
      Option.some.injEq] at h
    rw [bytesOf_of_lt_10000 (by omega) (by omega) (by omega)]
    simp only [List.take_succ_cons, List.take_zero, List.cons.injEq, and_true]
    omega
  · simp at h

theorem bytesOf_four {a n : Nat} {rest : List Nat} (h : four? a rest = some n) :
    bytesOf n = a :: rest.take 3 := by
  unfold four? at h
  split at h
  · rename_i b c d tail
    simp only [isTail, Option.ite_none_right_eq_some, Bool.and_eq_true, decide_eq_true_eq,
      Option.some.injEq] at h
    rw [bytesOf_of_ge_10000 (by omega)]
    simp only [List.take_succ_cons, List.take_zero, List.cons.injEq, and_true]
    omega
  · simp at h

/-- The code point at the start of bytes has the bytes that it takes. -/
theorem bytesOf_leading {a : Nat} (h : a < 0x100) (rest : List Nat) :
    bytesOf (leading a rest).1 = a :: rest.take (leading a rest).2 := by
  unfold leading
  split
  · next hOne => exact bytesOf_of_lt_80 hOne
  · next hOne =>
    split
    · next hTwo => exact bytesOf_two hTwo
    · next hThree => exact bytesOf_three hThree
    · next hFour => exact bytesOf_four hFour
    · exact bytesOf_half (by omega) h

theorem encode_decodeFrom {bytes : List Nat} (h : ∀ b ∈ bytes, b < 0x100) (read : Nat) :
    encode (decodeFrom read bytes) = bytes.drop read := by
  induction bytes generalizing read with
  | nil => cases read <;> rfl
  | cons a rest ih =>
    have hRest := ih fun b hb => h b (by simp [hb])
    cases read with
    | zero =>
      rw [decodeFrom, encode, List.flatMap_cons, bytesOf_leading (h a (by simp)), ← encode, hRest]
      simp
    | succ read => rw [decodeFrom, hRest, List.drop_succ_cons]

/-- No bytes are lost in reading. -/
theorem encode_decode {bytes : List Nat} (h : ∀ b ∈ bytes, b < 0x100) :
    encode (decode bytes) = bytes := by
  rw [decode, encode_decodeFrom h, List.drop_zero]

theorem bytesOf_lt {n b : Nat} (h : n < 0x110000) (hb : b ∈ bytesOf n) : b < 0x100 := by
  by_cases hHalf : 0xdc80 ≤ n ∧ n ≤ 0xdcff
  · obtain ⟨m, rfl⟩ := Nat.exists_eq_add_of_le (show 0xdc00 ≤ n by omega)
    rw [bytesOf_half (by omega) (by omega)] at hb
    simp only [List.mem_singleton] at hb
    omega
  · by_cases hOne : n < 0x80
    · rw [bytesOf_of_lt_80 hOne] at hb
      simp only [List.mem_singleton] at hb
      omega
    · by_cases hTwo : n < 0x800
      · rw [bytesOf_of_lt_800 (by omega) hTwo] at hb
        simp only [List.mem_cons, List.not_mem_nil, or_false] at hb
        omega
      · by_cases hThree : n < 0x10000
        · rw [bytesOf_of_lt_10000 (by omega) hThree (by omega)] at hb
          simp only [List.mem_cons, List.not_mem_nil, or_false] at hb
          omega
        · rw [bytesOf_of_ge_10000 (by omega)] at hb
          simp only [List.mem_cons, List.not_mem_nil, or_false] at hb
          omega

theorem encode_lt {points : List Nat} (h : ∀ n ∈ points, n < 0x110000) :
    ∀ b ∈ encode points, b < 0x100 := by
  intro b hb
  obtain ⟨n, hn, hb⟩ := List.mem_flatMap.1 hb
  exact bytesOf_lt (h n hn) hb

theorem two?_lt {a n : Nat} {rest : List Nat} (h : two? a rest = some n) : n < 0x110000 := by
  unfold two? at h
  split at h
  · simp only [isTail, Option.ite_none_right_eq_some, Bool.and_eq_true, decide_eq_true_eq,
      Option.some.injEq] at h
    omega
  · simp at h

theorem three?_lt {a n : Nat} {rest : List Nat} (h : three? a rest = some n) : n < 0x110000 := by
  unfold three? at h
  split at h
  · simp only [isTail, Option.ite_none_right_eq_some, Bool.and_eq_true, decide_eq_true_eq,
      Option.some.injEq] at h
    omega
  · simp at h

theorem four?_lt {a n : Nat} {rest : List Nat} (h : four? a rest = some n) : n < 0x110000 := by
  unfold four? at h
  split at h
  · simp only [Option.ite_none_right_eq_some, Bool.and_eq_true, decide_eq_true_eq,
      Option.some.injEq] at h
    omega
  · simp at h

theorem leading_lt {a : Nat} (h : a < 0x100) (rest : List Nat) :
    (leading a rest).1 < 0x110000 := by
  unfold leading
  split
  · simp only
    omega
  · split
    · next hTwo => exact two?_lt hTwo
    · next hThree => exact three?_lt hThree
    · next hFour => exact four?_lt hFour
    · simp only
      omega

theorem decodeFrom_lt {bytes : List Nat} (h : ∀ b ∈ bytes, b < 0x100) (read : Nat) :
    ∀ n ∈ decodeFrom read bytes, n < 0x110000 := by
  induction bytes generalizing read with
  | nil => cases read <;> simp [decodeFrom]
  | cons a rest ih =>
    have hRest := ih fun b hb => h b (by simp [hb])
    cases read with
    | zero =>
      intro n hn
      rcases List.mem_cons.1 hn with rfl | hn
      · exact leading_lt (h a (by simp)) rest
      · exact hRest _ n hn
    | succ read => exact hRest read

theorem decode_lt {bytes : List Nat} (h : ∀ b ∈ bytes, b < 0x100) :
    ∀ n ∈ decode bytes, n < 0x110000 := decodeFrom_lt h 0

/-- A normal form has the bytes of the text. -/
theorem encode_normal (s : String) :
    encode (Text.codePoints (normal s)) = encode (Text.codePoints s) := by
  have hBytes := encode_lt (Text.codePoints_lt s)
  rw [normal, Text.codePoints_ofCodePoints (decode_lt hBytes), encode_decode hBytes]

/-- Texts have the same normal form when they have the same bytes. -/
theorem normal_eq_normal_iff {s t : String} :
    normal s = normal t ↔ encode (Text.codePoints s) = encode (Text.codePoints t) := by
  constructor
  · intro h
    rw [← encode_normal s, h, encode_normal]
  · intro h
    rw [normal, h, ← normal]

theorem normal_normal (s : String) : normal (normal s) = normal s :=
  normal_eq_normal_iff.2 (encode_normal s)

/-! ## Characters are read as they are written -/

theorem leading_of_lt_80 {a : Nat} (h : a < 0x80) (rest : List Nat) : leading a rest = (a, 0) := by
  rw [leading, if_pos h]

theorem two?_eq_none {a : Nat} (h : 0xe0 ≤ a) (rest : List Nat) : two? a rest = none := by
  unfold two?
  split
  · simp only [ite_eq_right_iff, Bool.and_eq_true, decide_eq_true_eq, reduceCtorEq, imp_false]
    omega
  · rfl

theorem three?_eq_none {a : Nat} (h : 0xf0 ≤ a) (rest : List Nat) : three? a rest = none := by
  unfold three?
  split
  · simp only [ite_eq_right_iff, Bool.and_eq_true, decide_eq_true_eq, reduceCtorEq, imp_false]
    omega
  · rfl

/-- A character is read from the bytes that it is written as, whatever follows. -/
theorem decode_bytesOf_append {n : Nat} (hUpper : n < 0x110000) (hHalf : Text.isHalf n = false)
    (rest : List Nat) : decode (bytesOf n ++ rest) = n :: decode rest := by
  have hOut : n < 0xd800 ∨ 0xdfff < n := by
    simp only [Text.isHalf, Bool.and_eq_false_imp, decide_eq_true_eq, decide_eq_false_iff_not]
      at hHalf
    omega
  by_cases hOne : n < 0x80
  · rw [bytesOf_of_lt_80 hOne, List.singleton_append, decode, decodeFrom, leading_of_lt_80 hOne,
      decode]
  · by_cases hTwo : n < 0x800
    · rw [bytesOf_of_lt_800 (by omega) hTwo]
      have hRead : two? (0xc0 + n / 0x40) ((0x80 + n % 0x40) :: rest) = some n := by
        simp only [two?, isTail, Option.ite_none_right_eq_some, Bool.and_eq_true,
          decide_eq_true_eq, Option.some.injEq]
        omega
      have hLarge : ¬ 0xc0 + n / 0x40 < 0x80 := by omega
      simp only [decode, List.cons_append, List.nil_append, decodeFrom, leading, hLarge, if_false,
        hRead]
    · by_cases hThree : n < 0x10000
      · rw [bytesOf_of_lt_10000 (by omega) hThree (by omega)]
        have hRead : three? (0xe0 + n / 0x1000)
            ((0x80 + n / 0x40 % 0x40) :: (0x80 + n % 0x40) :: rest) = some n := by
          have hSum : (0xe0 + n / 0x1000 - 0xe0) * 0x1000 +
              (0x80 + n / 0x40 % 0x40 - 0x80) * 0x40 + (0x80 + n % 0x40 - 0x80) = n := by omega
          simp only [three?, hSum, hHalf, isTail, Option.ite_none_right_eq_some, Bool.and_eq_true,
            decide_eq_true_eq, Bool.not_false, and_true]
          omega
        have hLarge : ¬ 0xe0 + n / 0x1000 < 0x80 := by omega
        simp only [decode, List.cons_append, List.nil_append, decodeFrom, leading, hLarge, if_false,
          two?_eq_none (show 0xe0 ≤ 0xe0 + n / 0x1000 by omega), hRead]
      · rw [bytesOf_of_ge_10000 (by omega)]
        have hRead : four? (0xf0 + n / 0x40000)
            ((0x80 + n / 0x1000 % 0x40) :: (0x80 + n / 0x40 % 0x40) :: (0x80 + n % 0x40) :: rest) =
              some n := by
          have hSum : (0xf0 + n / 0x40000 - 0xf0) * 0x40000 +
              (0x80 + n / 0x1000 % 0x40 - 0x80) * 0x1000 + (0x80 + n / 0x40 % 0x40 - 0x80) * 0x40 +
                (0x80 + n % 0x40 - 0x80) = n := by omega
          simp only [four?, hSum, isTail, Option.ite_none_right_eq_some, Bool.and_eq_true,
            decide_eq_true_eq, and_true]
          omega
        have hLarge : ¬ 0xf0 + n / 0x40000 < 0x80 := by omega
        simp only [decode, List.cons_append, List.nil_append, decodeFrom, leading, hLarge, if_false,
          two?_eq_none (show 0xe0 ≤ 0xf0 + n / 0x40000 by omega),
          three?_eq_none (show 0xf0 ≤ 0xf0 + n / 0x40000 by omega), hRead]

/-- Characters are read as they are written. -/
theorem decode_encode {points : List Nat}
    (h : ∀ n ∈ points, n < 0x110000 ∧ Text.isHalf n = false) : decode (encode points) = points := by
  induction points with
  | nil => rfl
  | cons n rest ih =>
    have hn := h n (by simp)
    rw [encode, List.flatMap_cons, decode_bytesOf_append hn.1 hn.2, ← encode,
      ih fun m hm => h m (by simp [hm])]

/-! ## Sanity checks -/

example : normal (Text.ofCodePoints [0x61, 0xdcc3, 0xdca9]) = "aé" := by decide +kernel
example : normal (Text.ofCodePoints [0xdcf0, 0xdc9f, 0xdc98, 0xdc80]) = "😀" := by decide +kernel
example : decode [0xed, 0xa0, 0x80] = [0xdced, 0xdca0, 0xdc80] := by decide +kernel
example : decode [0xc0, 0xaf, 0xe2, 0x82] = [0xdcc0, 0xdcaf, 0xdce2, 0xdc82] := by decide +kernel

end ApiGraph.Utf8
