import ApiGraph.Definitions.Basic
import ApiGraph.Proofs.Writing.Grammar
import Mathlib.Data.List.DropRight
import Mathlib.Data.Nat.Digits.Defs

/-!
# Default values in the grammar

The text of a number, and of a text between quotes.

* `Sdl.toString_mem_number` — whole numbers;
* `Decimal.text_mem`, `Binary64.text_mem_number` — decimals, and finite binary numbers;
* `Text.jsonString_mem` — texts between quotes;
* `defaultText_mem_literal` — so each default value that is written is a literal, unless it is a number
  without digits.
-/

namespace ApiGraph

open Computability

namespace Sdl

/-! ## Digits -/

theorem isDecimal_eq_isDigit (c : Char) : isDecimal c = c.isDigit := by
  simp [isDecimal, Char.isDigit, Char.le_def]

theorem isDecimal_of_mem_toDigits {n : Nat} {c : Char} (h : c ∈ Nat.toDigits 10 n) :
    isDecimal c = true := by
  rw [isDecimal_eq_isDigit]
  exact Nat.isDigit_of_mem_toDigits (by decide) (by decide) h

/-- Digits of which the first is not zero. -/
def Leading (s : List Char) : Prop :=
  ∃ c rest, s = c :: rest ∧ c ≠ '0' ∧ ∀ d ∈ s, isDecimal d = true

theorem leading_toDigits {n : Nat} (h : 0 < n) : Leading (Nat.toDigits 10 n) := by
  induction n using Nat.strongRecOn with
  | ind n ih =>
    suffices hfirst : ∃ c rest, Nat.toDigits 10 n = c :: rest ∧ c ≠ '0' by
      obtain ⟨c, rest, he, hc⟩ := hfirst
      exact ⟨c, rest, he, hc, fun d => isDecimal_of_mem_toDigits⟩
    by_cases hlt : n < 10
    · rw [Nat.toDigits_of_lt_base hlt]
      have hzero : ∀ k < 10, 0 < k → k.digitChar ≠ '0' := by decide
      exact ⟨_, _, rfl, hzero n hlt h⟩
    · have hle : 10 ≤ n := Nat.le_of_not_lt hlt
      rw [Nat.toDigits_of_base_le (by decide) hle]
      obtain ⟨c, rest, he, hc, -⟩ := ih (n / 10) (by omega) (by omega)
      exact ⟨c, rest ++ [(n % 10).digitChar], by rw [he]; rfl, hc⟩

theorem Leading.ne_nil {s : List Char} (h : Leading s) : s ≠ [] := by
  obtain ⟨c, rest, rfl, -⟩ := h
  exact List.cons_ne_nil _ _

theorem Leading.isDecimal {s : List Char} (h : Leading s) : ∀ d ∈ s, isDecimal d = true := by
  obtain ⟨-, -, -, -, hall⟩ := h
  exact hall

theorem Leading.append {s t : List Char} (h : Leading s) (ht : ∀ d ∈ t, ApiGraph.isDecimal d = true) :
    Leading (s ++ t) := by
  obtain ⟨c, rest, rfl, hc, hall⟩ := h
  exact ⟨c, rest ++ t, rfl, hc, fun d hd => (List.mem_append.1 hd).elim (hall d) (ht d)⟩

theorem Leading.take {s : List Char} (h : Leading s) (k : Nat) : Leading (s.take (k + 1)) := by
  obtain ⟨c, rest, rfl, hc, hall⟩ := h
  exact ⟨c, rest.take k, rfl, hc, fun d hd => hall d (List.mem_of_mem_take hd)⟩

theorem Leading.mem_wholeNumber {s : List Char} (h : Leading s) : s ∈ wholeNumber := by
  obtain ⟨c, rest, rfl, hc, hall⟩ := h
  obtain ⟨hfirst, hrest⟩ := List.forall_mem_cons.1 hall
  refine .inr (Language.append_mem_mul (a := [c]) (mem_one_iff.2 ?_) (mem_kstar_one hrest))
  simp [hfirst, hc]

/-! ## Numbers -/

theorem mem_number {s : List Char} (h : s ∈ unsigned) : s ∈ number :=
  Language.append_mem_mul nil_mem_optional h

theorem minus_mem_number {s : List Char} (h : s ∈ unsigned) : '-' :: s ∈ number :=
  Language.append_mem_mul (mem_optional (mem_word "-")) h

/-- A whole number with digits after the point. -/
theorem point_mem_unsigned {s t : List Char} (hs : s ∈ wholeNumber) (hne : t ≠ [])
    (ht : ∀ c ∈ t, isDecimal c = true) : s ++ '.' :: t ∈ unsigned := by
  have hfraction : '.' :: t ∈ fraction :=
    Language.append_mem_mul (mem_word ".") (mem_repeated_one hne ht)
  have hparts : s ++ '.' :: t ++ [] ∈ unsigned :=
    Language.append_mem_mul (Language.append_mem_mul hs (mem_optional hfraction)) nil_mem_optional
  rwa [List.append_nil] at hparts

theorem toDigits_mem_unsigned (n : Nat) : Nat.toDigits 10 n ∈ unsigned := by
  have hwhole : Nat.toDigits 10 n ∈ wholeNumber := by
    rcases Nat.eq_zero_or_pos n with rfl | h
    · exact .inl (mem_word "0")
    · exact (leading_toDigits h).mem_wholeNumber
  have hparts : Nat.toDigits 10 n ++ [] ++ [] ∈ unsigned :=
    Language.append_mem_mul (Language.append_mem_mul hwhole nil_mem_optional) nil_mem_optional
  rwa [List.append_nil, List.append_nil] at hparts

theorem toString_mem_number (n : Int) : (toString n).toList ∈ number := by
  cases n with
  | ofNat m =>
    have htext : (toString (Int.ofNat m)).toList = Nat.toDigits 10 m := String.toList_ofList
    rw [htext]
    exact mem_number (toDigits_mem_unsigned m)
  | negSucc m =>
    have htext : (toString (Int.negSucc m)).toList = '-' :: Nat.toDigits 10 (m + 1) := by
      show ("-" ++ String.ofList (Nat.toDigits 10 (m + 1))).toList = _
      rw [String.toList_append, String.toList_ofList, String.toList_ofList]
      rfl
    rw [htext]
    exact minus_mem_number (toDigits_mem_unsigned (m + 1))

end Sdl

open Sdl

namespace Decimal

theorem exponentText_mem (e : Int) : exponentText e ∈ Sdl.exponent := by
  have hdigits : ∀ c ∈ Nat.toDigits 10 e.natAbs, isDecimal c = true :=
    fun c => isDecimal_of_mem_toDigits
  have hsign : [if e < 0 then '-' else '+'] ∈ word "+" + word "-" := by
    split
    · exact .inr (mem_word "-")
    · exact .inl (mem_word "+")
  refine Language.append_mem_mul
    (b := if (Nat.toDigits 10 e.natAbs).length < 2 then '0' :: Nat.toDigits 10 e.natAbs
      else Nat.toDigits 10 e.natAbs) (Language.append_mem_mul (mem_word "e") hsign) ?_
  split
  · exact mem_repeated_one (List.cons_ne_nil _ _) (List.forall_mem_cons.2 ⟨by decide, hdigits⟩)
  · exact mem_repeated_one (List.ne_nil_of_length_pos Nat.length_toDigits_pos) hdigits

/-- The digits of a positive decimal start with one that is not zero. -/
theorem leading_significant {d : Decimal} (h : 0 < d.digits) : Leading d.significant := by
  obtain ⟨c, rest, he, hc, hall⟩ := leading_toDigits h
  have hfront : d.significant <+: Nat.toDigits 10 d.digits := List.rdropWhile_prefix _ _
  have hne : d.significant ≠ [] := by
    intro hnil
    have hzero := List.rdropWhile_eq_nil_iff.1 hnil c (by rw [he]; exact List.mem_cons_self)
    exact hc (by simpa using hzero)
  obtain ⟨c', rest', he'⟩ := List.exists_cons_of_ne_nil hne
  refine ⟨c', rest', he', ?_, fun x hx => hall x (hfront.subset hx)⟩
  rw [he', he] at hfront
  rwa [(List.cons_prefix_cons.1 hfront).1]

/-- Digits with an exponent. -/
theorem scientific_mem_unsigned {s : List Char} (hs : s ∈ wholeNumber * optional fraction) (e : Int) :
    s ++ exponentText e ∈ unsigned :=
  Language.append_mem_mul hs (mem_optional (exponentText_mem e))

theorem text_mem_unsigned {d : Decimal} (h : 0 < d.digits) : d.text ∈ unsigned := by
  have hds := leading_significant h
  have hzeros : ∀ k, ∀ c ∈ List.replicate k '0', isDecimal c = true := by
    intro k c hc
    rw [List.eq_of_mem_replicate hc]
    decide
  rw [text]
  dsimp only
  generalize d.significant = ds at hds
  generalize d.order = e
  split
  · refine point_mem_unsigned (s := ['0']) (.inl (mem_word "0")) ?_ fun c hc => ?_
    · exact List.append_ne_nil_of_right_ne_nil _ hds.ne_nil
    · exact (List.mem_append.1 hc).elim (hzeros _ c) (hds.isDecimal c)
  · split
    · split
      · exact point_mem_unsigned (hds.append (hzeros _)).mem_wholeNumber (by decide)
          (List.forall_mem_singleton.2 (by decide))
      · next hlong =>
        refine point_mem_unsigned (hds.take _).mem_wholeNumber ?_ fun c hc =>
          hds.isDecimal c (List.mem_of_mem_drop hc)
        rw [Ne, List.drop_eq_nil_iff]
        exact hlong
    · obtain ⟨c, rest, rfl, hc, hall⟩ := hds
      have hfirst : [c] ∈ wholeNumber :=
        Leading.mem_wholeNumber ⟨c, [], rfl, hc, fun d hd => hall d (by simp [List.mem_singleton.1 hd])⟩
      cases rest with
      | nil =>
        exact scientific_mem_unsigned (Language.append_mem_mul hfirst nil_mem_optional) e
      | cons c' rest =>
        have hfraction : '.' :: c' :: rest ∈ fraction :=
          Language.append_mem_mul (mem_word ".") (mem_repeated_one (List.cons_ne_nil _ _)
            (List.forall_mem_cons.1 hall).2)
        exact scientific_mem_unsigned (Language.append_mem_mul hfirst (mem_optional hfraction)) e

end Decimal

namespace Interval

/-- A number on a grid that lies above zero has digits. -/
theorem digits_pos_of_nearestOnGrid {i : Interval} (h : 0 < i.low) {e : Int} {d : Decimal}
    (hd : i.nearestOnGrid e = some d) : 0 < d.digits := by
  have hdown : 0 < (if 0 ≤ e then 1 else Nat.pow 10 (-e).toNat) := by
    split
    · exact Nat.one_pos
    · exact Nat.pow_pos (by decide)
  have hzero : ∀ down, 0 < down → i.contains 0 down = false := by
    intro down hpos
    rw [contains]
    split <;> simp [Nat.ne_of_gt h, Nat.ne_of_gt hpos]
  simp only [nearestOnGrid] at hd
  generalize (if 0 ≤ e then 1 else Nat.pow 10 (-e).toNat) = down at hdown hd
  generalize (if 0 ≤ e then Nat.pow 10 e.toNat else 1) = up at hd
  split at hd
  · next hlower =>
    cases hd
    refine Nat.pos_of_ne_zero fun hfloor => ?_
    dsimp only at hfloor
    rw [hfloor, Nat.zero_mul, hzero _ hdown] at hlower
    cases hlower
  · split at hd
    · cases hd
      exact Nat.succ_pos _
    · cases hd

/-- The shortest decimal of an interval above zero has digits, or is none of the interval. -/
theorem digits_pos_of_shortest {i : Interval} (h : 0 < i.low) :
    0 < i.shortest.digits ∨ i.shortest = ⟨0, 0⟩ := by
  rw [shortest]
  cases hfound : (List.range 17).findSome? fun (n : Nat) => i.nearestOnGrid (i.firstDigit - (n : Int)) with
  | none => exact .inr rfl
  | some d =>
    obtain ⟨n, -, hn⟩ := List.exists_of_findSome?_eq_some hfound
    exact .inl (digits_pos_of_nearestOnGrid h hn)

theorem low_pos_ofFinite {m : Nat} (h : 0 < m) (q : Int) : 0 < (ofFinite m q).low := by
  refine Nat.mul_pos ?_ ?_
  · split <;> omega
  · split
    · exact Nat.pow_pos (by decide)
    · exact Nat.one_pos

end Interval

/-- The text of a finite number is a number. -/
theorem Binary64.text_mem_number (negative : Bool) (m : Nat) (q : Int) :
    (Binary64.finite negative m q).text.toList ∈ number := by
  have hzero : ['0', '.', '0'] ∈ unsigned :=
    point_mem_unsigned (s := ['0']) (t := ['0']) (.inl (mem_word "0")) (by decide)
      (List.forall_mem_singleton.2 (by decide))
  have hbody : (if m = 0 then ['0', '.', '0'] else (Interval.ofFinite m q).shortest.text) ∈
      unsigned := by
    split
    · exact hzero
    · next hm =>
      rcases Interval.digits_pos_of_shortest (Interval.low_pos_ofFinite (Nat.pos_of_ne_zero hm) q) with
        hpos | hnone
      · exact Decimal.text_mem_unsigned hpos
      · rw [hnone]
        exact hzero
  rw [Binary64.text, String.toList_ofList]
  split
  · exact minus_mem_number hbody
  · exact mem_number hbody

/-! ## Texts between quotes -/

namespace Text

theorem isHexadecimal_hexDigit (n : Nat) : isHexadecimal (hexDigit n) = true := by
  have hall : ∀ k < 16, isHexadecimal ("0123456789abcdef".toList.getD k '0') = true := by decide
  exact hall (n % 16) (Nat.mod_lt _ (by decide))

theorem hex_mem (width n : Nat) : hex width n ∈ one isHexadecimal ^ width := by
  rw [Language.mem_pow]
  refine ⟨(List.range width).reverse.map fun i => [hexDigit (n / Nat.pow 16 i)], ?_, by simp, ?_⟩
  · rw [hex, ← List.flatMap_def, ← List.map_eq_flatMap]
  · intro s hs
    obtain ⟨i, -, rfl⟩ := List.mem_map.1 hs
    exact mem_one_iff.2 (isHexadecimal_hexDigit _)

theorem jsonChar_mem (c : Char) : jsonChar c ∈ one isPlain + escape := by
  have hletter : ∀ d, "\"\\/bfnrt".toList.contains d = true → ['\\', d] ∈ one isPlain + escape :=
    fun d hd => .inr (Language.append_mem_mul (mem_word "\\") (.inl (mem_one_iff.2 hd)))
  rw [jsonChar]
  split
  · next hquote =>
    refine hletter c ?_
    simp only [Bool.or_eq_true, beq_iff_eq] at hquote
    rcases hquote with rfl | rfl <;> decide
  · next hquote =>
    split
    · exact hletter _ (by decide)
    split
    · exact hletter _ (by decide)
    split
    · exact hletter _ (by decide)
    split
    · exact hletter _ (by decide)
    split
    · exact hletter _ (by decide)
    split
    · exact .inr (Language.append_mem_mul (mem_word "\\")
        (.inr (Language.append_mem_mul (mem_word "u") (hex_mem 4 c.toNat))))
    · next hvisible =>
      refine .inl (mem_one_iff.2 ?_)
      simp only [Bool.or_eq_true, beq_iff_eq, not_or] at hquote
      simp [isPlain, isVisible, hquote, Nat.le_of_not_lt hvisible]

theorem jsonString_mem (s : String) : (jsonString s).toList ∈ Sdl.jsonString := by
  have hchars : s.toList.flatMap jsonChar ∈ (one isPlain + escape)∗ := by
    rw [List.flatMap_def]
    refine Language.join_mem_kstar fun t ht => ?_
    obtain ⟨c, -, rfl⟩ := List.mem_map.1 ht
    exact jsonChar_mem c
  rw [jsonString, String.toList_ofList]
  exact Language.append_mem_mul (Language.append_mem_mul (mem_word "\"") hchars) (mem_word "\"")

end Text

/-! ## Default values -/

/-- Whether a value is no number without digits. -/
def Json.isFinite : Json → Bool
  | .float (.finite _ _ _) => true
  | .float _ => false
  | _ => true

/-- A default value that is written is a literal. -/
theorem defaultText_mem_literal {v : Json} {text : String} (h : v.isFinite = true)
    (htext : defaultText? v = some text) : text.toList ∈ literal := by
  cases v with
  | int n =>
    cases htext
    exact .inl (toString_mem_number n)
  | float x =>
    cases x with
    | finite negative m q =>
      cases htext
      exact .inl (Binary64.text_mem_number negative m q)
    | _ => cases h
  | str s =>
    cases htext
    exact .inr (Text.jsonString_mem s)
  | _ => cases htext

end ApiGraph
