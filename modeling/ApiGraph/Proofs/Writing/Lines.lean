import ApiGraph.Proofs.Writing.Literals

/-!
# Lines of definitions

Definitions whose names are names of the grammar are written as lines of the grammar.

* `Json.IsName` — a value that is written as a name;
* `Definitions.Legible`, `Definitions.hasFiniteDefaults` — definitions whose names are names and whose
  types all have fields, and definitions without infinities and the like as default values;
* `TypeExpr.text_mem_type`, `Field.text_mem_field`, `TypeBlock.Legible.lines_mem_block` — the parts of a
  text;
* `Definitions.splitOn_render` — so the lines of a whole text are those of its parts, and are in the
  grammar.
-/

namespace ApiGraph

open Computability Sdl

/-- A value that is written as a name. -/
def Json.IsName (v : Json) : Prop := v.display.toList ∈ name

/-! ## Legible definitions -/

/-- The name of an argument, and the one in its type, are names. -/
structure Argument.Legible (a : Argument) : Prop where
  name : a.name.toList ∈ Sdl.name
  type : a.type.innermost.IsName

/-- The names in a field are names. -/
structure Field.Legible (f : Field) : Prop where
  name : f.name.toList ∈ Sdl.name
  type : f.type.innermost.IsName
  arguments : ∀ a ∈ f.arguments, a.Legible

/-- The names in a type are names, and it has a field. -/
structure TypeBlock.Legible (b : TypeBlock) : Prop where
  name : b.name.IsName
  nonempty : b.fields ≠ []
  fields : ∀ f ∈ b.fields, f.Legible

/-- Whether no default value of a field, or of one of its arguments, is a number without digits. -/
def Field.hasFiniteDefaults (f : Field) : Bool :=
  f.default.isFinite && f.arguments.all fun a => a.default.isFinite

namespace Definitions

/-- The names in a text are names, and its types have fields. -/
structure Legible (d : Definitions) : Prop where
  scalar : ∀ name, d.scalar = some name → name.IsName
  types : ∀ b ∈ d.types, b.Legible

/-- Whether no default value of a field or argument is a number without digits. -/
def hasFiniteDefaults (d : Definitions) : Bool := d.types.all fun b => b.fields.all Field.hasFiniteDefaults

end Definitions

/-! ## Fields -/

theorem TypeExpr.text_mem_type {t : TypeExpr} (h : t.innermost.IsName) : t.text.toList ∈ type := by
  induction t with
  | named name => exact .named h
  | list inner ih =>
    rw [text, String.toList_append, String.toList_append]
    exact .list (ih h)

theorem typed_mem {t : TypeExpr} {default : Json} (h : t.innermost.IsName) (hfinite : default.isFinite = true)
    (required : Bool) :
    ": ".toList ++ t.text.toList ++ (modifiers required default).toList ∈ typed := by
  have htype : ": ".toList ++ t.text.toList ∈ word ": " * type :=
    Language.append_mem_mul (mem_word ": ") (TypeExpr.text_mem_type h)
  have hrequired : (if required then "!" else "").toList ∈ optional (word "!") := by
    cases required
    · exact nil_mem_optional
    · exact mem_optional (mem_word "!")
  have hdefault : ((defaultText? default).elim "" (" = " ++ ·)).toList ∈
      optional (word " = " * literal) := by
    cases htext : defaultText? default with
    | none => exact nil_mem_optional
    | some text =>
      rw [Option.elim_some, String.toList_append]
      exact mem_optional
        (Language.append_mem_mul (mem_word " = ") (defaultText_mem_literal hfinite htext))
  have hmodifiers : modifiers required default =
      (if required then "!" else "") ++ (defaultText? default).elim "" (" = " ++ ·) := by
    rw [modifiers]
    cases defaultText? default <;> rfl
  rw [hmodifiers, String.toList_append, ← List.append_assoc]
  exact Language.append_mem_mul (Language.append_mem_mul htype hrequired) hdefault

theorem Argument.text_mem_argument {a : Argument} (h : a.Legible) (hfinite : a.default.isFinite = true) :
    a.text.toList ∈ argument := by
  have htext : a.text.toList = a.name.toList ++
      (": ".toList ++ a.type.text.toList ++ (modifiers a.required a.default).toList) := by
    simp [text]
  rw [htext]
  exact Language.append_mem_mul h.name (typed_mem h.type hfinite a.required)

theorem intercalate_cons_eq {α : Type} (sep first : List α) (rest : List (List α)) :
    sep.intercalate (first :: rest) = first ++ (rest.map (sep ++ ·)).flatten := by
  induction rest generalizing first with
  | nil => simp
  | cons second rest ih => rw [List.intercalate_cons_cons, ih]; simp

theorem Field.argumentText_mem {arguments : List Argument} (h : ∀ a ∈ arguments, a.Legible)
    (hfinite : ∀ a ∈ arguments, a.default.isFinite = true) :
    (argumentText arguments).toList ∈ optional Sdl.arguments := by
  rw [argumentText]
  cases arguments with
  | nil => exact nil_mem_optional
  | cons first rest =>
    obtain ⟨hfirst, hrest⟩ := List.forall_mem_cons.1 h
    obtain ⟨hfirst', hrest'⟩ := List.forall_mem_cons.1 hfinite
    have hmore : ((rest.map fun a => a.text.toList).map (", ".toList ++ ·)).flatten ∈
        (word ", " * argument)∗ := by
      refine Language.join_mem_kstar fun s hs => ?_
      obtain ⟨t, ht, rfl⟩ := List.mem_map.1 hs
      obtain ⟨a, ha, rfl⟩ := List.mem_map.1 ht
      exact Language.append_mem_mul (mem_word ", ") (Argument.text_mem_argument (hrest a ha) (hrest' a ha))
    have htext : ("(" ++ Json.commaSeparated ((first :: rest).map Argument.text) ++ ")").toList =
        "(".toList ++ first.text.toList ++
          ((rest.map fun a => a.text.toList).map (", ".toList ++ ·)).flatten ++ ")".toList := by
      rw [String.toList_append, String.toList_append, Json.commaSeparated, String.toList_intercalate,
        List.map_map, List.map_cons, intercalate_cons_eq, List.append_assoc, List.append_assoc,
        List.append_assoc]
      rfl
    rw [if_neg (by simp), htext]
    exact mem_optional (Language.append_mem_mul (Language.append_mem_mul (Language.append_mem_mul
      (mem_word "(") (Argument.text_mem_argument hfirst hfirst')) hmore) (mem_word ")"))

theorem Field.text_mem_field {f : Field} (h : f.Legible) (hfinite : f.hasFiniteDefaults = true) :
    f.text.toList ∈ field := by
  rw [hasFiniteDefaults, Bool.and_eq_true, List.all_eq_true] at hfinite
  have htext : f.text.toList = f.name.toList ++ (argumentText f.arguments).toList ++
      (": ".toList ++ f.type.text.toList ++ (modifiers f.required f.default).toList) := by
    simp [text]
  rw [htext]
  exact Language.append_mem_mul (Language.append_mem_mul h.name (argumentText_mem h.arguments hfinite.2))
    (typed_mem h.type hfinite.1 f.required)

/-! ## Lines -/

/-- The lines of a type, and the empty line after it. -/
def TypeBlock.lines (indent : String) (b : TypeBlock) : List (List Char) :=
  ("type ".toList ++ b.name.display.toList ++ " \x7b".toList) ::
    (b.fields.map (fun f => indent.toList ++ f.text.toList) ++ ["\x7d".toList, []])

/-- The lines of a text, without the one that starts where it ends. -/
def Definitions.lines (indent : String) (d : Definitions) : List (List Char) :=
  (if d.comment then ["# Generated by oas_to_graphql 0.1.0".toList, []] else []) ++
    (match d.scalar with
      | some name => ["scalar ".toList ++ name.display.toList, []]
      | none => []) ++
    d.types.flatMap (TypeBlock.lines indent)

/-- Each line with its end. -/
def ended (lines : List (List Char)) : List Char := lines.flatMap (· ++ ['\n'])

theorem ended_append (ls ms : List (List Char)) : ended (ls ++ ms) = ended ls ++ ended ms :=
  List.flatMap_append

theorem splitOn_ended {lines : List (List Char)} (h : ∀ l ∈ lines, '\n' ∉ l) :
    (ended lines).splitOn '\n' = lines ++ [[]] := by
  have hjoin : ended lines = ['\n'].intercalate (lines ++ [[]]) := by
    induction lines with
    | nil => rfl
    | cons l rest ih =>
      obtain ⟨next, more, he⟩ := List.exists_cons_of_ne_nil (List.append_ne_nil_of_right_ne_nil rest
        (List.cons_ne_nil ([] : List Char) []))
      rw [List.cons_append, he, List.intercalate_cons_cons, ← he,
        ← ih fun m hm => h m (List.mem_cons_of_mem _ hm)]
      simp [ended]
  rw [hjoin, List.splitOn_intercalate '\n' _ (by simp)]
  intro l hl
  rcases List.mem_append.1 hl with hl | hl
  · exact h l hl
  · rw [List.mem_singleton.1 hl]
    exact List.not_mem_nil

theorem TypeBlock.toList_render (indent : String) (b : TypeBlock) :
    (b.render indent).toList = ended (b.lines indent) := by
  have hfields : (String.join (b.fields.map fun f => indent ++ f.text ++ "\n")).toList =
      ended (b.fields.map fun f => indent.toList ++ f.text.toList) := by
    rw [String.toList_join, ended, List.flatMap_map, List.flatMap_map]
    simp
  rw [lines, ← List.singleton_append, ended_append, ended_append, ← hfields, render]
  simp [ended]

theorem Definitions.toList_render {config : Config} {indent : String}
    (hindent : config.fieldIndent = .str indent) (d : Definitions) :
    (d.render config).toList = ended (d.lines indent) := by
  have htypes : (renderTypes config d.types).toList = ended (d.types.flatMap (TypeBlock.lines indent)) := by
    rw [renderTypes, String.toList_join, List.flatMap_map, hindent, ended, List.flatMap_assoc]
    exact List.flatMap_congr fun b _ => b.toList_render indent
  rw [lines, ended_append, ended_append, ← htypes, render, String.toList_append, String.toList_append]
  congr 2
  · cases d.comment <;> rfl
  · cases d.scalar with
    | none => rfl
    | some name => simp [ended]

theorem TypeBlock.Legible.lines_mem_block {b : TypeBlock} (h : b.Legible)
    (hfinite : ∀ f ∈ b.fields, f.hasFiniteDefaults = true) (indent : String) : b.lines indent ∈ block indent := by
  have hname : b.name.display.toList ∈ Sdl.name := h.name
  have hhead : ["type ".toList ++ b.name.display.toList ++ " \x7b".toList] ∈
      line (word "type " * Sdl.name * word " \x7b") :=
    mem_line (Language.append_mem_mul (Language.append_mem_mul (mem_word "type ") hname)
      (mem_word " \x7b"))
  have hfields : (b.fields.map fun f => indent.toList ++ f.text.toList) ∈
      repeated (line (word indent * field)) := by
    refine mem_repeated_of_forall (by simpa using h.nonempty) fun l hl => ?_
    obtain ⟨f, hf, rfl⟩ := List.mem_map.1 hl
    exact mem_line (Language.append_mem_mul (mem_word indent)
      (Field.text_mem_field (h.fields f hf) (hfinite f hf)))
  have hparts := Language.append_mem_mul (Language.append_mem_mul (Language.append_mem_mul hhead hfields)
    (mem_line (mem_word "\x7d"))) mem_blank
  rwa [List.append_assoc, List.append_assoc] at hparts

namespace Definitions

variable {d : Definitions} {config : Config} {indent : String}

theorem lines_mem_document (h : d.Legible) (hfinite : d.hasFiniteDefaults = true) (indent : String) :
    d.lines indent ++ [[]] ∈ document indent := by
  simp only [hasFiniteDefaults, List.all_eq_true] at hfinite
  have hcomment : (if d.comment then ["# Generated by oas_to_graphql 0.1.0".toList, []] else []) ∈
      optional (line (word "# Generated by oas_to_graphql 0.1.0") * blank) := by
    split
    · exact mem_optional (Language.append_mem_mul (mem_line (mem_word _)) mem_blank)
    · exact nil_mem_optional
  have hscalar : (match d.scalar with
      | some name => ["scalar ".toList ++ name.display.toList, []]
      | none => []) ∈ optional (line (word "scalar " * name) * blank) := by
    cases hname : d.scalar with
    | none => exact nil_mem_optional
    | some name =>
      exact mem_optional (Language.append_mem_mul (mem_line
        (Language.append_mem_mul (mem_word "scalar ") (h.scalar name hname))) mem_blank)
  have htypes : d.types.flatMap (TypeBlock.lines indent) ∈ (block indent)∗ := by
    rw [List.flatMap_def]
    refine Language.join_mem_kstar fun ls hls => ?_
    obtain ⟨b, hb, rfl⟩ := List.mem_map.1 hls
    exact (h.types b hb).lines_mem_block (hfinite b hb) indent
  exact Language.append_mem_mul (Language.append_mem_mul (Language.append_mem_mul hcomment hscalar)
    htypes) mem_blank

/-- The lines of the text of legible definitions are those of its parts, and are in the grammar. -/
theorem splitOn_render (h : d.Legible) (hfinite : d.hasFiniteDefaults = true)
    (hindent : config.fieldIndent = .str indent) (hvisible : indent.toList.all isVisible = true) :
    (d.render config).toList.splitOn '\n' = d.lines indent ++ [[]] ∧
      d.lines indent ++ [[]] ∈ document indent := by
  have hmem := lines_mem_document h hfinite indent
  refine ⟨?_, hmem⟩
  rw [toList_render hindent]
  refine splitOn_ended fun l hl hnewline => ?_
  have := visible_document hvisible _ hmem l (List.mem_append_left _ hl) '\n' hnewline
  exact absurd this (by decide)

end Definitions

end ApiGraph
