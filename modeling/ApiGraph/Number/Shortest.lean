import ApiGraph.Number.Binary64

/-!
# Shortest decimal text

The text of a binary floating point number is the decimal number with the fewest digits that reads
back as the same number; of several with that many digits it is the one nearest to the value.

* `Decimal` — a decimal number `digits · 10 ^ exponent`;
* `Interval` — the numbers that read back as a given mantissa and exponent;
* `shortest` — the shortest decimal of an interval;
* `Decimal.text` — digits in positional or exponent form.
-/

namespace ApiGraph

/-- The decimal number `digits · 10 ^ exponent`. -/
structure Decimal where
  digits : Nat
  exponent : Int
deriving DecidableEq, Inhabited, Repr

/-- The numbers that round to one binary number, as three quotients over one denominator. -/
structure Interval where
  /-- Numerator of the lower end. -/
  low : Nat
  /-- Numerator of the value itself. -/
  value : Nat
  /-- Numerator of the upper end. -/
  high : Nat
  /-- The common denominator. -/
  den : Nat
  /-- Whether the two ends round to the value too. -/
  closed : Bool

namespace Interval

/-- The numbers that round to `m · 2 ^ q`: half way to both neighbours, where the neighbour below a
power of two is only half as far away. Half way points round to the even mantissa. -/
def ofFinite (m : Nat) (q : Int) : Interval :=
  let below := if m = Nat.pow 2 52 ∧ Binary64.minExponent < q then 1 else 2
  let factor := if 2 ≤ q then Nat.pow 2 (q - 2).toNat else 1
  let den := if 2 ≤ q then 1 else Nat.pow 2 (2 - q).toNat
  { low := (4 * m - below) * factor
    value := 4 * m * factor
    high := (4 * m + 2) * factor
    den := den
    closed := m % 2 == 0 }

/-- Whether the quotient `num / den` lies in the interval. -/
def contains (i : Interval) (num den : Nat) : Bool :=
  if i.closed then
    decide (i.low * den ≤ num * i.den) && decide (num * i.den ≤ i.high * den)
  else
    decide (i.low * den < num * i.den) && decide (num * i.den < i.high * den)

/-- The power of ten of the first digit of the value. -/
def firstDigit (i : Interval) : Int :=
  if i.den ≤ i.value then ((Nat.toDigits 10 (i.value / i.den)).length : Int) - 1
  else
    match (List.range 400).find? fun k => i.den ≤ i.value * Nat.pow 10 k with
    | some k => -(k : Int)
    | none => 0

/-- The number of the interval nearest to the value on the grid of the multiples of
`10 ^ exponent`, if the grid has a point there. Of two equally near ones the even one is taken. -/
def nearestOnGrid (i : Interval) (exponent : Int) : Option Decimal :=
  let up := if 0 ≤ exponent then Nat.pow 10 exponent.toNat else 1
  let down := if 0 ≤ exponent then 1 else Nat.pow 10 (-exponent).toNat
  let num := i.value * down
  let den := i.den * up
  let floor := num / den
  let rest := num % den
  let lower := i.contains (floor * up) down
  let upper := i.contains ((floor + 1) * up) down
  let preferUpper := den < 2 * rest || (den == 2 * rest && floor % 2 == 1)
  if lower && !(upper && preferUpper) then some ⟨floor, exponent⟩
  else if upper then some ⟨floor + 1, exponent⟩
  else none

end Interval

/-- The decimal with the fewest digits in the interval. Seventeen digits always suffice. -/
def Interval.shortest (i : Interval) : Decimal :=
  let first := i.firstDigit
  ((List.range 17).findSome? fun (n : Nat) => i.nearestOnGrid (first - (n : Int))).getD ⟨0, 0⟩

namespace Decimal

/-- Digits without the zeros at the end. -/
def significant (d : Decimal) : List Char :=
  ((Nat.toDigits 10 d.digits).reverse.dropWhile (· == '0')).reverse

/-- The power of ten of the first digit. -/
def order (d : Decimal) : Int :=
  (Nat.toDigits 10 d.digits).length + d.exponent - 1

/-- An exponent with its sign and at least two digits. -/
def exponentText (e : Int) : List Char :=
  let sign := if e < 0 then '-' else '+'
  let digits := Nat.toDigits 10 e.natAbs
  'e' :: sign :: if digits.length < 2 then '0' :: digits else digits

/-- Positional form from `10 ^ -4` to below `10 ^ 16`, always with a fraction, and exponent form
elsewhere. -/
def text (d : Decimal) : List Char :=
  let ds := d.significant
  let e := d.order
  if -4 ≤ e ∧ e < 0 then
    '0' :: '.' :: (List.replicate (-e - 1).toNat '0' ++ ds)
  else if 0 ≤ e ∧ e < 16 then
    let whole := e.toNat + 1
    if ds.length ≤ whole then ds ++ List.replicate (whole - ds.length) '0' ++ ['.', '0']
    else ds.take whole ++ '.' :: ds.drop whole
  else
    match ds with
    | [] => ['0', '.', '0']
    | [c] => c :: exponentText e
    | c :: rest => c :: '.' :: (rest ++ exponentText e)

end Decimal

/-- The text of a binary number: its shortest decimal, `inf` and `nan` for the others, and a minus
sign in front of the negative ones, zero included. -/
def Binary64.text : Binary64 → String
  | .nan => "nan"
  | .infinite negative => if negative then "-inf" else "inf"
  | .finite negative m q =>
    let body := if m = 0 then ['0', '.', '0'] else (Interval.ofFinite m q).shortest.text
    String.ofList (if negative then '-' :: body else body)

/-! ## Sanity checks -/

example : (Binary64.ofDecimal true 3 (-1)).text = "-0.3" := by decide +kernel
example : (Binary64.ofDecimal false 1 (-4)).text = "0.0001" := by decide +kernel
example : (Binary64.ofDecimal false 1 (-5)).text = "1e-05" := by decide +kernel
example : (Binary64.ofDecimal false 1 15).text = "1000000000000000.0" := by decide +kernel
example : (Binary64.ofDecimal false 1 16).text = "1e+16" := by decide +kernel
example : (Binary64.ofDecimal false 1 23).text = "1e+23" := by decide +kernel
example : (Binary64.ofDecimal false 5 (-324)).text = "5e-324" := by decide +kernel
example : (Binary64.zero true).text = "-0.0" := by decide +kernel

end ApiGraph
