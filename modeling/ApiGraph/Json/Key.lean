import ApiGraph.Json.Basic

/-!
# Values as keys

Two values are the same key when they are equal as values: numbers are compared by what they stand
for, so that `1`, `1.0` and `true` are one key. Arrays and objects are no keys.

* `Key` — a value that can be a key, as it is spelt;
* `Key.Value`, `Key.value` — what is left of a key when only equality matters; keys with the same
  value are equal under `==`;
* `Json.key?`, `Key.toJson` — the key that a value is, and back (`toJson_of_key?_eq_some`).
-/

namespace ApiGraph

/-- A value that can be a key. -/
inductive Key where
  | null
  | bool (b : Bool)
  | int (n : Int)
  | float (x : Binary64)
  | text (s : String)
deriving Inhabited, Repr

namespace Key

/-- A key up to equality. -/
inductive Value where
  | null
  /-- The number `mantissa · 2 ^ exponent`, with an odd mantissa or zero. -/
  | number (mantissa : Int) (exponent : Int)
  | infinite (negative : Bool)
  | notANumber
  | text (s : String)
deriving DecidableEq, Inhabited, Repr

namespace Value

/-- Moves the factors of two of a mantissa into the exponent, at most `steps` of them. -/
def reduce : Nat → Int → Int → Value
  | 0, m, e => .number m e
  | steps + 1, m, e => if m % 2 = 0 then reduce steps (m / 2) (e + 1) else .number m e

/-- The number `mantissa · 2 ^ exponent`. -/
def ofNumber (mantissa exponent : Int) : Value :=
  if mantissa = 0 then .number 0 0 else reduce mantissa.natAbs.log2 mantissa exponent

end Value

/-- What a key stands for. -/
def value : Key → Value
  | null => .null
  | bool b => .ofNumber (if b then 1 else 0) 0
  | int n => .ofNumber n 0
  | float .nan => .notANumber
  | float (.infinite negative) => .infinite negative
  | float (.finite negative m e) => .ofNumber (if negative then -m else m) e
  | text s => .text s

/-- Keys are equal when they stand for the same. -/
instance : BEq Key where
  beq a b := a.value == b.value

theorem beq_iff {a b : Key} : (a == b) = true ↔ a.value = b.value := beq_iff_eq (α := Value)

instance : EquivBEq Key where
  rfl := beq_iff.2 rfl
  symm h := beq_iff.2 (beq_iff.1 h).symm
  trans h h' := beq_iff.2 ((beq_iff.1 h).trans (beq_iff.1 h'))

/-- Texts are the same key only if they are the same text. -/
@[simp] theorem text_beq_text (s t : String) : (text s == text t) = (s == t) := by
  rw [Bool.eq_iff_iff, beq_iff]
  simp [value]

theorem Value.reduce_ne_text (steps : Nat) (m e : Int) (s : String) :
    Value.reduce steps m e ≠ .text s := by
  induction steps generalizing m e with
  | zero => exact nofun
  | succ steps ih =>
    rw [Value.reduce]
    split
    · exact ih _ _
    · exact nofun

theorem Value.ofNumber_ne_text (m e : Int) (s : String) : Value.ofNumber m e ≠ .text s := by
  unfold Value.ofNumber
  split
  · exact nofun
  · exact reduce_ne_text _ _ _ _

/-- Only a text is the same key as a text. -/
theorem eq_text_of_beq {a : Key} {s : String} (h : (a == text s) = true) : a = text s := by
  have hvalue : a.value = .text s := beq_iff.1 h
  cases a with
  | null => cases hvalue
  | bool b => exact absurd hvalue (Value.ofNumber_ne_text _ _ _)
  | int n => exact absurd hvalue (Value.ofNumber_ne_text _ _ _)
  | float x =>
    cases x with
    | nan => cases hvalue
    | infinite negative => cases hvalue
    | finite negative m e => exact absurd hvalue (Value.ofNumber_ne_text _ _ _)
  | text t => exact congrArg text (Value.text.inj hvalue)

/-- The value that a key is. -/
def toJson : Key → Json
  | null => .null
  | bool b => .bool b
  | int n => .int n
  | float x => .float x
  | text s => .str s

end Key

/-- The key that a value is; arrays and objects are none. -/
def Json.key? : Json → Option Key
  | .null => some .null
  | .bool b => some (.bool b)
  | .int n => some (.int n)
  | .float x => some (.float x)
  | .str s => some (.text s)
  | .arr _ => none
  | .obj _ => none

/-- A value that is a key can be read off the key again. -/
theorem Key.toJson_of_key?_eq_some {v : Json} {key : Key} (h : v.key? = some key) :
    key.toJson = v := by
  cases v <;> simp_all [Json.key?] <;> subst h <;> rfl

theorem Key.eq_text_of_toJson {key : Key} {s : String} (h : key.toJson = .str s) :
    key = .text s := by
  cases key <;> simp [toJson] at h
  rw [h]

/-! ## Sanity checks -/

example : (Key.bool true == .int 1) = true := by decide
example : (Key.int 6 == .int 3) = false := by decide

end ApiGraph
