import Mathlib.Logic.Relation
import ApiGraph.Json.Key
import ApiGraph.Schema

/-!
# What declarations lead to

Declarations by themselves, without a graph: what they lead to, through their parts and through
references, and which properties they bring into a composition.

* `Json.Declares`, `Document.Declares` — the declaration that a value or a reference stands for;
* `Document.Leads`, `Document.Reaches` — from a declaration to its parts and to what it refers to;
* `Document.Layered` — no composition by `allOf` is reached from a reference among its own members;
* `Document.Brings` — the properties that a declaration brings into a composition;
* `Document.Brings.unique`, `Document.Brings.distinct` — there is one answer at most, with each name once.
-/

namespace ApiGraph

open OrderedMap

/-! ## Reading -/

namespace Schema

theorem toOption_effectiveType (owner owner' : String) (members : Json.Members) :
    (effectiveType owner members).toOption = (effectiveType owner' members).toOption := by
  unfold effectiveType
  dsimp only
  split
  · split <;> rfl
  · rfl

theorem toOption_scalarOf (owner owner' : String) (type : Json) :
    (scalarOf owner type).toOption = (scalarOf owner' type).toOption := by
  unfold scalarOf
  split
  · rfl
  · rfl
  · rfl
  · split
    · split <;> rfl
    · rfl

theorem toOption_bind {α β : Type} (a : Attempt α) (f : α → Attempt β) :
    (a >>= f).toOption = a.toOption.bind fun x => (f x).toOption := by
  cases a <;> rfl

theorem toOption_ofMembers (owner owner' : String) (members : Json.Members) :
    (Form.ofMembers owner members).toOption = (Form.ofMembers owner' members).toOption := by
  unfold Form.ofMembers
  split
  · rfl
  · split
    · rfl
    · rfl
    · split
      · rfl
      · simp only [toOption_bind, toOption_effectiveType owner owner']
        congr 1
        funext type
        split
        · rfl
        · split
          · rfl
          · simp only [toOption_bind, toOption_scalarOf owner owner']

mutual

/-- Where a declaration lies matters for the words of a fault only. -/
theorem toOption_read (owner owner' : String) :
    ∀ v : Json, (read owner v).toOption = (read owner' v).toOption
  | .obj members => by
    have hform := toOption_ofMembers owner owner' members
    have hitems := toOption_readItems owner owner' members
    rw [read, read]
    rcases hf : Form.ofMembers owner members with fault | form <;>
      rcases hf' : Form.ofMembers owner' members with fault' | form' <;>
      rw [hf, hf'] at hform <;> cases hform
    · rfl
    · cases form with
      | leaf s => rfl
      | object required => rfl
      | array =>
        rcases hi : readItems owner members with fault | s <;>
          rcases hi' : readItems owner' members with fault' | s' <;>
          rw [hi, hi'] at hitems <;> cases hitems <;> rfl
  | .null | .bool _ | .int _ | .float _ | .str _ | .arr _ => rfl

theorem toOption_readItems (owner owner' : String) :
    ∀ members : List (String × Json),
      (readItems owner members).toOption = (readItems owner' members).toOption
  | [] => rfl
  | (key, value) :: rest => by
    rw [readItems, readItems]
    split
    · split
      · exact toOption_read owner owner' value
      · rfl
    · exact toOption_readItems owner owner' rest

end

end Schema

/-- The declaration that a value stands for. -/
def Json.Declares (v : Json) (s : Schema) : Prop := ∃ owner, Schema.read owner v = .ok s

theorem Json.Declares.read_eq {v : Json} {s : Schema} (h : v.Declares s) (owner : String) :
    Schema.read owner v = .ok s := by
  obtain ⟨owner', h⟩ := h
  have hsame := Schema.toOption_read owner owner' v
  rw [h] at hsame
  cases hread : Schema.read owner v with
  | error fault =>
    rw [hread] at hsame
    cases hsame
  | ok s' =>
    rw [hread] at hsame
    cases hsame
    rfl

theorem Json.Declares.unique {v : Json} {s s' : Schema} (h : v.Declares s) (h' : v.Declares s') :
    s = s' := by
  have hread := h.read_eq ""
  rw [h'.read_eq ""] at hread
  cases hread
  rfl

namespace Document

/-- The declaration that a reference stands for. -/
def Declares (d : Document) (ref : Json) (s : Schema) : Prop :=
  ∃ members, d.lookupValue ref = .ok members ∧ (Json.obj members).Declares s

variable {d d' : Document}

theorem Declares.unique {ref : Json} {s s' : Schema} (h : d.Declares ref s)
    (h' : d.Declares ref s') : s = s' := by
  obtain ⟨members, hlookup, hread⟩ := h
  obtain ⟨members', hlookup', hread'⟩ := h'
  rw [hlookup] at hlookup'
  cases hlookup'
  exact hread.unique hread'

/-! ## What declarations lead to -/

/-- From a declaration to one of its parts, or to what it refers to. -/
inductive Leads (d : Document) : Schema → Schema → Prop
  | items (s : Schema) : d.Leads (.array s) s
  | property {properties : List (PropertyOf Schema)} {p : PropertyOf Schema}
      (mem : p ∈ properties) : d.Leads (.object properties) p.type
  | member {kind : Composition} {parts v : Json} {elements : List Json} {s : Schema}
      (elements_eq : parts.elements = .ok elements) (mem : v ∈ elements) (declares : v.Declares s) :
      d.Leads (.composed kind parts) s
  | target {ref : Json} {s : Schema} (declares : d.Declares ref s) : d.Leads (.ref ref) s

/-- From a declaration to another one, through parts and references. -/
def Reaches (d : Document) : Schema → Schema → Prop := Relation.ReflTransGen d.Leads

/-- No composition by `allOf` is reached from a reference among its own members. -/
def Layered (d : Document) : Prop :=
  ∀ (parts : Json) (elements : List Json) (v ref : Json), parts.elements = .ok elements →
    v ∈ elements → v.Declares (.ref ref) → ¬d.Reaches (.ref ref) (.composed .allOf parts)

/-! ## What declarations bring into compositions -/

/-- The properties that an object declares, by name. -/
def declared (properties : List (PropertyOf Schema)) : OrderedMap Key (PropertyOf Schema) :=
  insertAll [] (properties.map fun p => (.text p.name, p))

theorem mem_of_mem_declared {properties : List (PropertyOf Schema)} {p : PropertyOf Schema}
    (h : p ∈ values (declared properties)) : p ∈ properties := by
  have hvalues : values (properties.map fun p => (Key.text p.name, p)) = properties := by
    simp [values, Function.comp_def]
  exact hvalues ▸ (mem_values_insertAll h).resolve_left List.not_mem_nil

mutual

/-- The properties that a declaration brings into a composition. -/
inductive Brings (d : Document) : Schema → OrderedMap Key (PropertyOf Schema) → Prop
  | object (properties : List (PropertyOf Schema)) :
      Brings d (.object properties) (declared properties)
  | scalar (type : Option Primitive) : Brings d (.scalar type) []
  | array (items : Schema) : Brings d (.array items) []
  | oneOf (parts : Json) : Brings d (.composed .oneOf parts) []
  | allOf {parts : Json} {elements : List Json} {m : OrderedMap Key (PropertyOf Schema)}
      (elements_eq : parts.elements = .ok elements) (gathers : Gathers d [] elements m) :
      Brings d (.composed .allOf parts) m
  | ref {ref : Json} {s : Schema} {m : OrderedMap Key (PropertyOf Schema)}
      (declares : d.Declares ref s) (brings : Brings d s m) : Brings d (.ref ref) m

/-- The properties of members, gathered one member after the other. -/
inductive Gathers (d : Document) :
    OrderedMap Key (PropertyOf Schema) → List Json → OrderedMap Key (PropertyOf Schema) → Prop
  | nil (m : OrderedMap Key (PropertyOf Schema)) : Gathers d m [] m
  | cons {m more m' : OrderedMap Key (PropertyOf Schema)} {v : Json} {rest : List Json} {s : Schema}
      (declares : v.Declares s) (brings : Brings d s more)
      (gathers : Gathers d (insertAll m more) rest m') : Gathers d m (v :: rest) m'

end

mutual

/-- A declaration brings the same properties into every composition. -/
theorem Brings.unique {s : Schema} {m m' : OrderedMap Key (PropertyOf Schema)} :
    d.Brings s m → d.Brings s m' → m = m'
  | .object _, h' => by cases h'; rfl
  | .scalar _, h' => by cases h'; rfl
  | .array _, h' => by cases h'; rfl
  | .oneOf _, h' => by cases h'; rfl
  | .allOf helements hgathers, h' => by
    cases h' with
    | allOf helements' hgathers' =>
      rw [helements] at helements'
      cases helements'
      exact hgathers.unique hgathers'
  | .ref hdeclares hbrings, h' => by
    cases h' with
    | ref hdeclares' hbrings' =>
      cases hdeclares.unique hdeclares'
      exact hbrings.unique hbrings'

theorem Gathers.unique {m₀ m m' : OrderedMap Key (PropertyOf Schema)} {vs : List Json} :
    d.Gathers m₀ vs m → d.Gathers m₀ vs m' → m = m'
  | .nil _, h' => by cases h'; rfl
  | .cons hdeclares hbrings hgathers, h' => by
    cases h' with
    | cons hdeclares' hbrings' hgathers' =>
      cases hdeclares.unique hdeclares'
      cases hbrings.unique hbrings'
      exact hgathers.unique hgathers'

end

mutual

/-- What a declaration brings into a composition has each name once. -/
theorem Brings.distinct {s : Schema} {m : OrderedMap Key (PropertyOf Schema)} :
    d.Brings s m → Distinct (keys m)
  | .object _ => distinct_keys_insertAll (m := []) List.Pairwise.nil _
  | .scalar _ | .array _ | .oneOf _ => List.Pairwise.nil
  | .allOf _ hgathers => hgathers.distinct List.Pairwise.nil
  | .ref _ hbrings => hbrings.distinct

theorem Gathers.distinct {m₀ m : OrderedMap Key (PropertyOf Schema)} {vs : List Json} :
    d.Gathers m₀ vs m → Distinct (keys m₀) → Distinct (keys m)
  | .nil _, h => h
  | .cons _ _ hgathers, h => hgathers.distinct (distinct_keys_insertAll h _)

end

end Document

end ApiGraph
