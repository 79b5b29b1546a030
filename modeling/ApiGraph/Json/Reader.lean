import ApiGraph.Json.Basic
import ApiGraph.Number.Whole
import ApiGraph.Text.CodePoint

/-!
# Reading JSON text

A reader of the JSON grammar that keeps the order of members and the kind of numbers. Beyond the
grammar it reads the words `NaN`, `Infinity` and `-Infinity` as numbers. Of members with the same
key the last value counts, at the place of the first. A text may not start with a byte order mark.
Two escapes in a row that are the two halves of a pair are one code point; a half that stands alone
stays a half.

* `Json.read?` — the value of a whole text, or nothing.

The steps work on the characters that are left and give back the rest. A step that reads a value
is given a bound on the nesting, for which the number of characters is always enough.
-/

namespace ApiGraph.Json.Reader

/-- The characters after the white space. -/
def skip : List Char → List Char
  | [] => []
  | c :: rest => if c == ' ' || c == '\t' || c == '\n' || c == '\r' then skip rest else c :: rest

/-- The value of a hexadecimal digit. -/
def hexValue? (c : Char) : Option Nat :=
  let n := c.toNat
  if 0x30 ≤ n && n ≤ 0x39 then some (n - 0x30)
  else if 0x61 ≤ n && n ≤ 0x66 then some (n - 0x61 + 10)
  else if 0x41 ≤ n && n ≤ 0x46 then some (n - 0x41 + 10)
  else none

/-- A unit of four hexadecimal digits. -/
def hexUnit? (a b c d : Char) : Option Nat := do
  let w ← hexValue? a
  let x ← hexValue? b
  let y ← hexValue? c
  let z ← hexValue? d
  pure (((w * 16 + x) * 16 + y) * 16 + z)

/-- The character of a single-letter escape. -/
def escaped? : Char → Option Char
  | '\"' => some '\"'
  | '\\' => some '\\'
  | '/' => some '/'
  | 'b' => some '\x08'
  | 'f' => some '\x0c'
  | 'n' => some '\n'
  | 'r' => some '\r'
  | 't' => some '\t'
  | _ => none

/-- Adds a code point to the characters read so far, in reverse. -/
def push (point : Nat) (done : List Char) : List Char := (Text.carry point).reverse ++ done

/-- The rest of a text after its opening quote. The characters read are in `done`, in reverse, and
`first` is the first half of a pair if the last escape right before was one. -/
def text? (done : List Char) (first : Option Nat) : List Char → Option (String × List Char)
  | [] => none
  | '\"' :: rest => some (String.ofList (close done first).reverse, rest)
  | '\\' :: 'u' :: a :: b :: c :: d :: rest =>
    match hexUnit? a b c d, first with
    | none, _ => none
    | some unit, some high =>
      if Text.isSecondHalf unit then text? (push (Text.joinHalves high unit) done) none rest
      else if Text.isFirstHalf unit then text? (push high done) (some unit) rest
      else text? (push unit (push high done)) none rest
    | some unit, none =>
      if Text.isFirstHalf unit then text? done (some unit) rest else text? (push unit done) none rest
  | '\\' :: c :: rest =>
    match escaped? c with
    | some e => text? (e :: close done first) none rest
    | none => none
  | c :: rest => if c.toNat < 0x20 then none else text? (c :: close done first) none rest
where
  /-- The characters read, with the half that stands alone if there is one. -/
  close (done : List Char) (first : Option Nat) : List Char :=
    match first with
    | some high => push high done
    | none => done

/-- The number written by decimal digits. -/
def natOf (digits : List Char) : Nat :=
  digits.foldl (fun n c => n * 10 + (c.toNat - 0x30)) 0

/-- The digits at the start and what follows them. -/
def digits (s : List Char) : List Char × List Char :=
  (s.takeWhile Char.isDigit, s.dropWhile Char.isDigit)

/-- The digits after a point, if there are any; otherwise nothing is taken. -/
def fraction (s : List Char) : Option (List Char) × List Char :=
  match s with
  | '.' :: rest =>
    match digits rest with
    | ([], _) => (none, s)
    | (ds, rest') => (some ds, rest')
  | _ => (none, s)

/-- The exponent after `e` or `E`, if there is a whole one; otherwise nothing is taken. -/
def exponent (s : List Char) : Option Int × List Char :=
  match s with
  | c :: rest =>
    if c == 'e' || c == 'E' then
      let (negative, unsigned) :=
        match rest with
        | '-' :: r => (true, r)
        | '+' :: r => (false, r)
        | r => (false, r)
      match digits unsigned with
      | ([], _) => (none, s)
      | (ds, rest') =>
        let n : Int := natOf ds
        (some (if negative then -n else n), rest')
    else (none, s)
  | [] => (none, s)

/-- A number without its sign. -/
def number? (negative : Bool) (s : List Char) : Option (Json × List Char) :=
  let (whole, rest) :=
    match s with
    | '0' :: r => (['0'], r)
    | _ => digits s
  if whole.isEmpty then none
  else
    let (frac, rest) := fraction rest
    let (exp, rest) := exponent rest
    match frac, exp with
    | none, none =>
      if Whole.maxDigits < whole.length then none
      else
        let n : Int := natOf whole
        some (.int (if negative then -n else n), rest)
    | _, _ =>
      let decimals := frac.getD []
      let e := exp.getD 0 - (decimals.length : Int)
      some (.float (Binary64.ofDecimal negative (natOf (whole ++ decimals)) e), rest)

/-- A value that starts with neither a bracket nor a quote. -/
def word? : List Char → Option (Json × List Char)
  | 'n' :: 'u' :: 'l' :: 'l' :: rest => some (.null, rest)
  | 't' :: 'r' :: 'u' :: 'e' :: rest => some (.bool true, rest)
  | 'f' :: 'a' :: 'l' :: 's' :: 'e' :: rest => some (.bool false, rest)
  | 'N' :: 'a' :: 'N' :: rest => some (.float .nan, rest)
  | 'I' :: 'n' :: 'f' :: 'i' :: 'n' :: 'i' :: 't' :: 'y' :: rest =>
    some (.float (.infinite false), rest)
  | '-' :: 'I' :: 'n' :: 'f' :: 'i' :: 'n' :: 'i' :: 't' :: 'y' :: rest =>
    some (.float (.infinite true), rest)
  | '-' :: rest => number? true rest
  | s => number? false s

mutual

/-- A value and the characters after it. -/
def value? : Nat → List Char → Option (Json × List Char)
  | 0, _ => none
  | _ + 1, '\"' :: rest => (text? [] none rest).map fun (s, r) => (.str s, r)
  | n + 1, '[' :: rest =>
    match skip rest with
    | ']' :: r => some (.arr [], r)
    | r => items? n [] r
  | n + 1, '\x7b' :: rest =>
    match skip rest with
    | '\x7d' :: r => some (.obj [], r)
    | r => members? n [] r
  | _ + 1, s => word? s

/-- The items of an array up to its closing bracket; `done` holds the items read, in reverse. -/
def items? : Nat → List Json → List Char → Option (Json × List Char)
  | 0, _, _ => none
  | n + 1, done, s =>
    match value? n s with
    | none => none
    | some (v, rest) =>
      match skip rest with
      | ',' :: r => items? n (v :: done) (skip r)
      | ']' :: r => some (.arr (v :: done).reverse, r)
      | _ => none

/-- The members of an object up to its closing bracket. -/
def members? : Nat → List (String × Json) → List Char → Option (Json × List Char)
  | 0, _, _ => none
  | n + 1, done, '\"' :: rest =>
    match text? [] none rest with
    | none => none
    | some (key, r) =>
      match skip r with
      | ':' :: r =>
        match value? n (skip r) with
        | none => none
        | some (v, r) =>
          match skip r with
          | ',' :: r => members? n (OrderedMap.insert key v done) (skip r)
          | '\x7d' :: r => some (.obj (OrderedMap.insert key v done), r)
          | _ => none
      | _ => none
  | _ + 1, _, _ => none

end

end Reader

/-- The value that a whole text stands for; nothing if it is no JSON text. -/
def read? (s : String) : Option Json :=
  let cs := s.toList
  match Reader.value? (2 * cs.length + 2) (Reader.skip cs) with
  | some (v, rest) => if (Reader.skip rest).isEmpty then some v else none
  | none => none

end ApiGraph.Json
