/-!
# Binary floating point numbers of 64 bits

A number is kept as sign, whole mantissa and power of two, so that everything about it is exact
arithmetic on `Nat` and `Int`.

* `Binary64` — the numbers: not-a-number, the two infinities, and `± mantissa · 2 ^ exponent`;
* `Binary64.ofDecimal` — the number nearest to `± digits · 10 ^ exponent`, ties to the even
  mantissa, with the overflow to infinity and the gradual underflow of the format.
-/

namespace ApiGraph

/-- A binary floating point number. A finite one is written with a mantissa below `2 ^ 53` and an
exponent of at least `-1074`, and with a mantissa of at least `2 ^ 52` unless the exponent is
`-1074`. -/
inductive Binary64 where
  | nan
  | infinite (negative : Bool)
  | finite (negative : Bool) (mantissa : Nat) (exponent : Int)
deriving DecidableEq, Inhabited, Repr

namespace Binary64

/-- The least exponent of a finite number. -/
def minExponent : Int := -1074

/-- The greatest exponent of a finite number. -/
def maxExponent : Int := 971

/-- Zero, of either sign. -/
def zero (negative : Bool) : Binary64 := .finite negative 0 minExponent

/-- Whether the number is zero, of either sign. -/
def isZero : Binary64 → Bool
  | .finite _ m _ => m == 0
  | _ => false

/-- The quotient of two natural numbers rounded to the nearest whole number, a tie to the even
one. -/
def roundQuotient (num den : Nat) : Nat :=
  let q := num / den
  let r := num % den
  if 2 * r < den then q
  else if den < 2 * r then q + 1
  else q + q % 2

/-- The quotient `num / den / 2 ^ e`, again as a pair of natural numbers. -/
def scaled (num den : Nat) (e : Int) : Nat × Nat :=
  if 0 ≤ e then (num, den * Nat.pow 2 e.toNat) else (num * Nat.pow 2 (-e).toNat, den)

/-- The exponent at which the positive quotient `num / den` has a mantissa of 53 bits, or the
least exponent when the quotient is too small for that. -/
def exponentOf (num den : Nat) : Int :=
  let low : Int := (num.log2 : Int) - (den.log2 : Int) - 53
  let (n, d) := scaled num den low
  let e := if Nat.pow 2 53 ≤ n / d then low + 1 else low
  max e minExponent

/-- The number nearest to `num / den`, for a positive `den`. -/
def ofQuotient (negative : Bool) (num den : Nat) : Binary64 :=
  if num = 0 then zero negative
  else
    let e := exponentOf num den
    let (n, d) := scaled num den e
    let m := roundQuotient n d
    let (m, e) := if m = Nat.pow 2 53 then (Nat.pow 2 52, e + 1) else (m, e)
    if maxExponent < e then .infinite negative else .finite negative m e

/-- Decimal exponents, counted at the first digit, beyond which every number is infinite or, on the
other side, zero. -/
def decimalReach : Int := 400

/-- The number nearest to `± digits · 10 ^ exponent`. -/
def ofDecimal (negative : Bool) (digits : Nat) (exponent : Int) : Binary64 :=
  let top : Int := (Nat.toDigits 10 digits).length + exponent
  if digits = 0 then zero negative
  else if decimalReach < top then .infinite negative
  else if top < -decimalReach then zero negative
  else if 0 ≤ exponent then ofQuotient negative (digits * Nat.pow 10 exponent.toNat) 1
  else ofQuotient negative digits (Nat.pow 10 (-exponent).toNat)

end Binary64

end ApiGraph
