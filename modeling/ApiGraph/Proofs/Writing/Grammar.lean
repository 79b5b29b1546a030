import ApiGraph.Naming
import Mathlib.Computability.Language

/-!
# The grammar of type definitions

Which texts are type definitions, as formal languages of characters, and of lines.

* `Sdl.name`, `Sdl.type`, `Sdl.literal` — names, type expressions and default values;
* `Sdl.argument`, `Sdl.field` — arguments and fields;
* `Sdl.block`, `Sdl.document` — the lines of a type, and of a whole text;
* `Sdl.mem_name_iff` — a name is what counts as a legal name;
* `Sdl.visible_field`, `Sdl.visible_document` — no field and no line holds a control character, so that
  each stays one line.

The grammar says nothing of how texts are written; it is read from left to right, with `*` for one part
after another, `+` for a choice and `∗` for any number of repetitions.
-/

namespace ApiGraph.Sdl

open Computability

/-! ## Parts of a text -/

/-- One character of a kind. -/
def one (kind : Char → Bool) : Language Char := {s | ∃ c, kind c = true ∧ s = [c]}

/-- A fixed text. -/
def word (text : String) : Language Char := {s | s = text.toList}

section

variable {α : Type} (l : Language α)

/-- A part that may be left out. -/
def optional : Language α := 1 + l

/-- A part once or more often. -/
def repeated : Language α := l * l∗

end

/-! ## Names and types -/

/-- The characters that a name starts with. -/
def isInitial (c : Char) : Bool := isNameChar c && !isDecimal c

/-- A letter or underscore, and then letters, digits and underscores. -/
def name : Language Char := one isInitial * (one isNameChar)∗

/-- A name in any number of pairs of brackets. -/
inductive IsType : List Char → Prop where
  | named {s : List Char} (spelt : s ∈ name) : IsType s
  | list {s : List Char} (inner : IsType s) : IsType ('[' :: s ++ [']'])

/-- A type expression. -/
def type : Language Char := {s | IsType s}

/-! ## Default values -/

/-- Zero, or digits of which the first is not zero. -/
def wholeNumber : Language Char :=
  word "0" + one (fun c => isDecimal c && c != '0') * (one isDecimal)∗

/-- The part of a number after the point. -/
def fraction : Language Char := word "." * repeated (one isDecimal)

/-- The power of ten of a number. -/
def exponent : Language Char := word "e" * (word "+" + word "-") * repeated (one isDecimal)

/-- A number without a sign. -/
def unsigned : Language Char := wholeNumber * optional fraction * optional exponent

/-- A number. -/
def number : Language Char := optional (word "-") * unsigned

/-- A character that is no control character. -/
def isVisible (c : Char) : Bool := 0x20 ≤ c.toNat

/-- A character that stands for itself between quotes. -/
def isPlain (c : Char) : Bool := isVisible c && c != '\"' && c != '\\'

/-- A digit of the hexadecimal system. -/
def isHexadecimal (c : Char) : Bool := isDecimal c || ('a' ≤ c && c ≤ 'f') || ('A' ≤ c && c ≤ 'F')

/-- An escape for one character. -/
def escape : Language Char :=
  word "\\" * (one (fun c => "\"\\/bfnrt".toList.contains c) + word "u" * one isHexadecimal ^ 4)

/-- A text between quotes, on one line. -/
def jsonString : Language Char := word "\"" * (one isPlain + escape)∗ * word "\""

/-- A default value. -/
def literal : Language Char := number + jsonString

/-! ## Fields -/

/-- What follows the name of an argument or the arguments of a field: a type, whether a value is
required, and a default value. -/
def typed : Language Char :=
  word ": " * type * optional (word "!") * optional (word " = " * literal)

/-- An argument. -/
def argument : Language Char := name * typed

/-- Arguments in brackets. -/
def arguments : Language Char := word "(" * argument * (word ", " * argument)∗ * word ")"

/-- A field. -/
def field : Language Char := name * optional arguments * typed

/-! ## Lines -/

/-- A line with a text. -/
def line (l : Language Char) : Language (List Char) := {ls | ∃ s ∈ l, ls = [s]}

/-- An empty line. -/
def blank : Language (List Char) := line 1

/-- A type with one field or more. -/
def block (indent : String) : Language (List Char) :=
  line (word "type " * name * word " \x7b") * repeated (line (word indent * field)) *
    line (word "\x7d") * blank

/-- A whole text, which ends where a line ends. -/
def document (indent : String) : Language (List Char) :=
  optional (line (word "# Generated by oas_to_graphql 0.1.0") * blank) *
    optional (line (word "scalar " * name) * blank) * (block indent)∗ * blank

/-! ## Membership -/

@[simp] theorem mem_one_iff {kind : Char → Bool} {c : Char} : [c] ∈ one kind ↔ kind c = true := by
  constructor
  · rintro ⟨c', h, he⟩
    rwa [List.singleton_inj.1 he]
  · exact fun h => ⟨c, h, rfl⟩

theorem mem_word (text : String) : text.toList ∈ word text := rfl

theorem mem_line {l : Language Char} {s : List Char} (h : s ∈ l) : [s] ∈ line l := ⟨s, h, rfl⟩

theorem mem_blank : [[]] ∈ blank := mem_line Language.nil_mem_one

section

variable {α : Type} {l : Language α} {s : List α}

theorem nil_mem_optional : [] ∈ optional l := .inl Language.nil_mem_one

theorem mem_optional (h : s ∈ l) : s ∈ optional l := .inr h

theorem mem_kstar_of_forall (h : ∀ a ∈ s, [a] ∈ l) : s ∈ l∗ := by
  have hparts : s = (s.map fun a => [a]).flatten := by rw [← List.flatMap_def, List.flatMap_singleton']
  rw [hparts]
  refine Language.join_mem_kstar fun t ht => ?_
  obtain ⟨a, ha, rfl⟩ := List.mem_map.1 ht
  exact h a ha

theorem mem_repeated_of_forall (hne : s ≠ []) (h : ∀ a ∈ s, [a] ∈ l) : s ∈ repeated l := by
  obtain ⟨first, rest, rfl⟩ := List.exists_cons_of_ne_nil hne
  obtain ⟨hfirst, hrest⟩ := List.forall_mem_cons.1 h
  exact Language.append_mem_mul (a := [first]) hfirst (mem_kstar_of_forall hrest)

end

theorem mem_kstar_one {kind : Char → Bool} {s : List Char} (h : ∀ c ∈ s, kind c = true) :
    s ∈ (one kind)∗ :=
  mem_kstar_of_forall fun c hc => mem_one_iff.2 (h c hc)

theorem mem_repeated_one {kind : Char → Bool} {s : List Char} (hne : s ≠ [])
    (h : ∀ c ∈ s, kind c = true) : s ∈ repeated (one kind) :=
  mem_repeated_of_forall hne fun c hc => mem_one_iff.2 (h c hc)

/-- A name is what counts as a legal name. -/
theorem mem_name_iff {s : List Char} : s ∈ name ↔ isLegalName s = true := by
  constructor
  · rintro ⟨first, ⟨c, hc, rfl⟩, rest, ⟨parts, rfl, hparts⟩, rfl⟩
    obtain ⟨hname, hdecimal⟩ := Bool.and_eq_true_iff.1 hc
    have hrest : ∀ d ∈ parts.flatten, isNameChar d = true := by
      intro d hd
      obtain ⟨part, hpart, hd⟩ := List.mem_flatten.1 hd
      obtain ⟨d', hd', rfl⟩ := hparts part hpart
      rwa [List.mem_singleton.1 hd]
    show isLegalName (c :: parts.flatten) = true
    rw [isLegalName, hdecimal, Bool.true_and, List.all_eq_true]
    exact List.forall_mem_cons.2 ⟨hname, hrest⟩
  · intro h
    cases s with
    | nil => cases h
    | cons c rest =>
      rw [isLegalName, Bool.and_eq_true, List.all_eq_true, List.forall_mem_cons] at h
      obtain ⟨hdecimal, hname, hrest⟩ := h
      have hc : isInitial c = true := Bool.and_eq_true_iff.2 ⟨hname, hdecimal⟩
      exact Language.append_mem_mul (mem_one_iff.2 hc) (mem_kstar_one hrest)

/-! ## Visible texts -/

section

variable {α : Type} {p : α → Prop} {l m : Language α}

/-- All that the texts of a language are made of is of a kind. -/
def MadeOf (p : α → Prop) (l : Language α) : Prop := ∀ s ∈ l, ∀ a ∈ s, p a

theorem madeOf_epsilon : MadeOf p (1 : Language α) := by
  rintro s rfl a ha
  cases ha

theorem MadeOf.mul (hl : MadeOf p l) (hm : MadeOf p m) : MadeOf p (l * m) := by
  rintro s ⟨x, hx, y, hy, rfl⟩ a ha
  exact (List.mem_append.1 ha).elim (hl x hx a) (hm y hy a)

theorem MadeOf.add (hl : MadeOf p l) (hm : MadeOf p m) : MadeOf p (l + m) :=
  fun s hs => hs.elim (hl s) (hm s)

theorem MadeOf.optional (hl : MadeOf p l) : MadeOf p (Sdl.optional l) := madeOf_epsilon.add hl

theorem MadeOf.kstar (hl : MadeOf p l) : MadeOf p (l∗) := by
  rintro s ⟨parts, rfl, hparts⟩ a ha
  obtain ⟨part, hpart, ha⟩ := List.mem_flatten.1 ha
  exact hl part (hparts part hpart) a ha

theorem MadeOf.repeated (hl : MadeOf p l) : MadeOf p (Sdl.repeated l) := hl.mul hl.kstar

theorem MadeOf.pow (hl : MadeOf p l) (n : Nat) : MadeOf p (l ^ n) := by
  induction n with
  | zero => exact madeOf_epsilon
  | succ n ih => exact pow_succ l n ▸ ih.mul hl

end

/-- No text of a language holds a control character. -/
abbrev Visible (l : Language Char) : Prop := MadeOf (fun c => isVisible c = true) l

theorem visible_one {kind : Char → Bool} (h : ∀ c, kind c = true → isVisible c = true) :
    Visible (one kind) := by
  rintro s ⟨c, hc, rfl⟩ c' hc'
  rw [List.mem_singleton.1 hc']
  exact h c hc

theorem visible_word {text : String} (h : text.toList.all isVisible = true) : Visible (word text) := by
  rintro s rfl
  exact List.all_eq_true.1 h

theorem isVisible_of_le {c d : Char} (hc : isVisible c = true) (h : c ≤ d) : isVisible d = true := by
  rw [isVisible, decide_eq_true_eq] at hc ⊢
  exact hc.trans h

theorem isVisible_of_isDecimal {c : Char} (h : isDecimal c = true) : isVisible c = true := by
  simp only [isDecimal, Bool.and_eq_true, decide_eq_true_eq] at h
  exact isVisible_of_le (by decide) h.1

theorem isVisible_of_isNameChar {c : Char} (h : isNameChar c = true) : isVisible c = true := by
  simp only [isNameChar, isSmall, isCapital, Bool.or_eq_true, Bool.and_eq_true, beq_iff_eq,
    decide_eq_true_eq] at h
  obtain ((rfl | hdecimal) | hsmall) | hcapital := h
  · decide
  · exact isVisible_of_isDecimal hdecimal
  · exact isVisible_of_le (by decide) hsmall.1
  · exact isVisible_of_le (by decide) hcapital.1

theorem isVisible_of_isHexadecimal {c : Char} (h : isHexadecimal c = true) : isVisible c = true := by
  simp only [isHexadecimal, Bool.or_eq_true, Bool.and_eq_true, decide_eq_true_eq] at h
  obtain (hdecimal | hsmall) | hcapital := h
  · exact isVisible_of_isDecimal hdecimal
  · exact isVisible_of_le (by decide) hsmall.1
  · exact isVisible_of_le (by decide) hcapital.1

theorem visible_name : Visible name :=
  (visible_one fun _ h => isVisible_of_isNameChar (Bool.and_eq_true_iff.1 h).1).mul
    (visible_one fun _ => isVisible_of_isNameChar).kstar

theorem visible_type : Visible type := by
  intro s hs
  induction hs with
  | named spelt => exact visible_name _ spelt
  | list _ ih =>
    have hopen : isVisible '[' = true := by decide
    have hclose : isVisible ']' = true := by decide
    simpa [or_imp, forall_and, hopen, hclose] using ih

theorem visible_number : Visible number := by
  have hdigit : Visible (one isDecimal) := visible_one fun _ => isVisible_of_isDecimal
  have hleading : Visible (one fun c => isDecimal c && c != '0') :=
    visible_one fun _ h => isVisible_of_isDecimal (Bool.and_eq_true_iff.1 h).1
  have hwhole : Visible wholeNumber := (visible_word (by decide)).add (hleading.mul hdigit.kstar)
  have hfraction : Visible fraction := (visible_word (by decide)).mul hdigit.repeated
  have hexponent : Visible exponent :=
    ((visible_word (by decide)).mul ((visible_word (by decide)).add (visible_word (by decide)))).mul
      hdigit.repeated
  exact (visible_word (by decide)).optional.mul
    ((hwhole.mul hfraction.optional).mul hexponent.optional)

theorem visible_jsonString : Visible jsonString := by
  have hplain : Visible (one isPlain) := visible_one fun c h => by
    rw [isPlain, Bool.and_eq_true, Bool.and_eq_true] at h
    exact h.1.1
  have hletter : Visible (one fun c => "\"\\/bfnrt".toList.contains c) := visible_one fun c h => by
    have hall : "\"\\/bfnrt".toList.all isVisible = true := by decide
    exact List.all_eq_true.1 hall c (by simpa using h)
  have hcode : Visible (word "u" * one isHexadecimal ^ 4) :=
    (visible_word (by decide)).mul ((visible_one fun _ => isVisible_of_isHexadecimal).pow 4)
  have hescape : Visible escape := (visible_word (by decide)).mul (hletter.add hcode)
  exact ((visible_word (by decide)).mul (hplain.add hescape).kstar).mul (visible_word (by decide))

theorem visible_typed : Visible typed :=
  (((visible_word (by decide)).mul visible_type).mul (visible_word (by decide)).optional).mul
    ((visible_word (by decide)).mul (visible_number.add visible_jsonString)).optional

/-- No field holds a control character, so that it stays on its line. -/
theorem visible_field : Visible field := by
  have hargument : Visible argument := visible_name.mul visible_typed
  have harguments : Visible arguments :=
    (((visible_word (by decide)).mul hargument).mul
      ((visible_word (by decide)).mul hargument).kstar).mul (visible_word (by decide))
  exact (visible_name.mul harguments.optional).mul visible_typed

theorem madeOf_line {l : Language Char} (h : Visible l) :
    MadeOf (fun s => ∀ c ∈ s, isVisible c = true) (line l) := by
  rintro ls ⟨s, hs, rfl⟩ s' hs'
  rw [List.mem_singleton.1 hs']
  exact h s hs

/-- No line of a text holds a control character. -/
theorem visible_document {indent : String} (h : indent.toList.all isVisible = true) :
    MadeOf (fun s => ∀ c ∈ s, isVisible c = true) (document indent) := by
  have hblank : MadeOf (fun s => ∀ c ∈ s, isVisible c = true) blank := madeOf_line madeOf_epsilon
  have hcomment : Visible (word "# Generated by oas_to_graphql 0.1.0") := visible_word (by decide)
  have hscalar : Visible (word "scalar " * name) := (visible_word (by decide)).mul visible_name
  have hhead : Visible (word "type " * name * word " \x7b") :=
    ((visible_word (by decide)).mul visible_name).mul (visible_word (by decide))
  have hfields : Visible (word indent * field) := (visible_word h).mul visible_field
  have hend : Visible (word "\x7d") := visible_word (by decide)
  have hblock : MadeOf (fun s => ∀ c ∈ s, isVisible c = true) (block indent) :=
    (((madeOf_line hhead).mul (madeOf_line hfields).repeated).mul (madeOf_line hend)).mul hblank
  exact (((madeOf_line hcomment).mul hblank).optional.mul
    ((madeOf_line hscalar).mul hblank).optional).mul hblock.kstar |>.mul hblank

end ApiGraph.Sdl
