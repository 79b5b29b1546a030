import ApiGraph.Text.Blank

/-!
# Whole numbers in decimal digits

How a whole number is written by hand: a sign or none, and decimal digits of any script, between which
single underscores may stand.

* `Whole.zeros`, `Whole.digit?` — the digits zero, and the value of a digit;
* `Whole.digits?` — the values of the digits of a number without its sign;
* `Whole.read?` — the number that a text names; blanks around it do not count.
-/

namespace ApiGraph.Whole

/-- The most digits that a whole number may have. -/
def maxDigits : Nat := 4300

/-- The code points of the digits zero; in each script the digits one to nine follow. -/
def zeros : List Nat :=
  [0x30, 0x660, 0x6f0, 0x7c0, 0x966, 0x9e6, 0xa66, 0xae6, 0xb66, 0xbe6, 0xc66, 0xce6, 0xd66, 0xde6,
    0xe50, 0xed0, 0xf20, 0x1040, 0x1090, 0x17e0, 0x1810, 0x1946, 0x19d0, 0x1a80, 0x1a90, 0x1b50,
    0x1bb0, 0x1c40, 0x1c50, 0xa620, 0xa8d0, 0xa900, 0xa9d0, 0xa9f0, 0xaa50, 0xabf0, 0xff10, 0x104a0,
    0x10d30, 0x11066, 0x110f0, 0x11136, 0x111d0, 0x112f0, 0x11450, 0x114d0, 0x11650, 0x116c0,
    0x11730, 0x118e0, 0x11950, 0x11c50, 0x11d50, 0x11da0, 0x16a60, 0x16ac0, 0x16b50, 0x1d7ce,
    0x1d7d8, 0x1d7e2, 0x1d7ec, 0x1d7f6, 0x1e140, 0x1e2f0, 0x1e950, 0x1fbf0]

/-- The value of a decimal digit. -/
def digit? (c : Char) : Option Nat :=
  (zeros.find? fun least => least ≤ c.toNat && c.toNat < least + 10).map (c.toNat - ·)

/-- The values of digits, of which there has to be one; a single underscore may stand between two. -/
def digits? : List Char → Option (List Nat)
  | [] => none
  | [c] => (digit? c).map ([·])
  | c :: '_' :: rest => do return (← digit? c) :: (← digits? rest)
  | c :: rest => do return (← digit? c) :: (← digits? rest)

/-- The number that digits name. -/
def ofDigits (digits : List Nat) : Nat := digits.foldl (fun n d => n * 10 + d) 0

/-- A number without its sign. -/
def unsigned? (s : List Char) : Option Nat := do
  let digits ← digits? s
  if digits.length ≤ maxDigits then some (ofDigits digits) else none

/-- Whether a character around a number does not count: the information separators do. -/
def isAround (c : Char) : Bool := Text.isBlank c && !(0x1c ≤ c.toNat && c.toNat ≤ 0x1f)

/-- The number that a text names, if it names one. -/
def read? (s : String) : Option Int :=
  match ((s.toList.dropWhile isAround).reverse.dropWhile isAround).reverse with
  | '-' :: rest => (unsigned? rest).map fun n => -(n : Int)
  | '+' :: rest => (unsigned? rest).map Int.ofNat
  | rest => (unsigned? rest).map Int.ofNat

/-! ## Sanity checks -/

example : zeros.length = 66 ∧ zeros.Pairwise (fun a b => a + 10 ≤ b) := by decide +kernel
example : read? " -1_0\u00a0" = some (-10) := by decide +kernel
example : read? "+\u0664\u0662" = some 42 := by decide +kernel
example : ["", "+", "_1", "1_", "1__0", "- 1", "\x1c1", "\u00b2"].map read? =
    List.replicate 8 none := by decide +kernel

end ApiGraph.Whole
