import ApiGraph.Proofs.Depicting.Shuffling

/-!
# The grammar of declarations

Which values are declarations, and what happens to those that are none.

* `Json.Typed` — the type that the members of an object give, if they give one;
* `Json.Grammatical` — the values that are declarations;
* `Json.Usual`, `Json.Regular` — members whose type, required names and properties have the form that
  they should have, wherever a declaration is read;
* `Schema.settled_of_regular` — a regular value is read if it is a declaration, and otherwise its shape
  is at fault.
-/

namespace ApiGraph

open OrderedMap

namespace Json

variable {members : Members} {v w : Json} {t t' : Option String}

/-! ## Declarations -/

/-- The type that members give: a word, the only word besides null of a list, texts where values are
listed without a type, and none otherwise. -/
inductive Typed (members : Members) : Option String → Prop
  | word {word : String} (type_eq : Document.field "type" members = .str word) :
      Typed members (some word)
  | listed {words : List String} {word : String}
      (type_eq : Document.field "type" members = .arr (words.map .str))
      (only : (words.filter fun w => w ≠ "null") = [word]) : Typed members (some word)
  | values (type_eq : Document.field "type" members = .null) (enum : contains "enum" members = true) :
      Typed members (some "string")
  | free (type_eq : Document.field "type" members = .null) (enum : contains "enum" members = false) :
      Typed members none

/-- Members that are a reference or a composition; nothing below them is read. -/
def Closed (members : Members) : Prop :=
  contains "$ref" members = true ∨ contains "allOf" members = true ∨ contains "oneOf" members = true

/-- Members with one of the compositions that mean nothing here. -/
def Foreign (members : Members) : Prop :=
  contains "anyOf" members = true ∨ contains "not" members = true

/-- Members that declare an object: by their type, or by properties whatever type but an array they
give. -/
def Objectlike (members : Members) (t : Option String) : Prop :=
  t ≠ some "array" ∧ (t = some "object" ∨ contains "properties" members = true)

/-- The declared properties, none when there are none. -/
def properties (members : Members) : Members := ((Document.field "properties" members).members?).getD []

/-- The values that are declarations. What members without a reference or a composition declare is
told by their type: an array, an object, or else a value of any form or of a primitive type. -/
inductive Grammatical : Json → Prop
  | closed {members : Members} (closed : Closed members) : Grammatical (.obj members)
  | array {members : Members} {items : Json} (own : ¬Foreign members)
      (typed : Typed members (some "array")) (items_eq : OrderedMap.get? "items" members = some items)
      (items_grammatical : Grammatical items) : Grammatical (.obj members)
  | object {members : Members} {t : Option String} (own : ¬Foreign members) (typed : Typed members t)
      (objectlike : Objectlike members t)
      (properties_grammatical : ∀ e ∈ properties members, Grammatical e.2) :
      Grammatical (.obj members)
  | free {members : Members} (own : ¬Foreign members) (typed : Typed members none)
      (bare : contains "properties" members = false) : Grammatical (.obj members)
  | primitive {members : Members} (type : Primitive) (own : ¬Foreign members)
      (typed : Typed members (some type.word)) (bare : contains "properties" members = false) :
      Grammatical (.obj members)

/-! ## Regular values -/

/-- Members of which the type, the required names and the properties have the form that they should
have, if they are there. -/
structure Usual (members : Members) : Prop where
  type : Document.field "type" members = .null ∨ (∃ word, Document.field "type" members = .str word) ∨
    ∃ words : List String, Document.field "type" members = .arr (words.map .str)
  required : Document.field "required" members = .null ∨
    ∃ names : List String, Document.field "required" members = .arr (names.map .str)
  properties : Document.field "properties" members = .null ∨
    ∃ declared, Document.field "properties" members = .obj declared

/-- From a value to one that is read for it: the items of an array, and the properties of an object up
to the first that is no declaration. -/
inductive Descends : Json → Json → Prop
  | items {members : Members} {v : Json} (opened : ¬Closed members) (own : ¬Foreign members)
      (typed : Typed members (some "array")) (items_eq : OrderedMap.get? "items" members = some v)
      (object : v.isObject = true) : Descends (.obj members) v
  | property {members before rest : Members} {t : Option String} {e : String × Json}
      (opened : ¬Closed members) (own : ¬Foreign members) (typed : Typed members t)
      (objectlike : Objectlike members t) (properties_eq : properties members = before ++ e :: rest)
      (before_grammatical : ∀ e ∈ before, Grammatical e.2) : Descends (.obj members) e.2

/-- Wherever something is read for a value, members have their usual form. -/
def Regular (v : Json) : Prop :=
  ∀ members, Relation.ReflTransGen Descends v (.obj members) → Usual members

theorem Regular.usual (h : (obj members).Regular) : Usual members := h members .refl

theorem Regular.of_descends (h : v.Regular) (hvw : Descends v w) : w.Regular :=
  fun members hmembers => h members (.head hvw hmembers)

/-- An object is regular if it is usual itself and all that may be read for it is regular. -/
theorem regular_obj (h : Usual members)
    (hitems : ∀ v, OrderedMap.get? "items" members = some v → v.Regular)
    (hproperties : ∀ e ∈ properties members, Regular e.2) : (obj members).Regular := by
  intro found hfound
  rcases Relation.ReflTransGen.cases_head hfound with he | ⟨w, hw, hrest⟩
  · cases he
    exact h
  · cases hw with
    | items _ _ _ items_eq _ => exact hitems _ items_eq found hrest
    | property _ _ _ _ properties_eq _ =>
      exact hproperties _ (properties_eq ▸ List.mem_append_right _ List.mem_cons_self) found hrest

end Json

/-! ## The type of members -/

namespace Schema

open Json

variable {members : Json.Members} {v : Json} {t t' : Option String} {owner : String}

theorem str_injective : Function.Injective Json.str := fun _ _ h => Json.str.inj h

theorem filter_map_str (words : List String) :
    ((words.map Json.str).filter fun t => !t.isText "null") =
      (words.filter fun w => w ≠ "null").map .str := by
  rw [List.filter_map]
  congr 1
  refine List.filter_congr fun w _ => ?_
  by_cases hw : w = "null" <;> simp [Json.isText, hw]

/-- The value that stands for a type. -/
def typeValue (t : Option String) : Json := t.elim .null .str

theorem typeValue_injective : Function.Injective typeValue := by
  rintro (_ | t) (_ | t') h
  · rfl
  · cases h
  · cases h
  · exact congrArg some (Json.str.inj h)

theorem effectiveType_of_typed (h : Typed members t) (owner : String) :
    effectiveType owner members = .ok (typeValue t) := by
  rw [effectiveType]
  cases h with
  | word type_eq =>
    rw [type_eq]
    rfl
  | listed type_eq only =>
    rw [type_eq]
    simp only [filter_map_str, only]
    rfl
  | values type_eq enum =>
    rw [type_eq]
    simp only [bind, Except.bind, enum]
    rfl
  | free type_eq enum =>
    rw [type_eq]
    simp only [bind, Except.bind, enum]
    rfl

/-- Members give one type at most. -/
theorem typed_unique (h : Typed members t) (h' : Typed members t') : t = t' :=
  typeValue_injective
    (Except.ok.inj ((effectiveType_of_typed h "").symm.trans (effectiveType_of_typed h' "")))

/-- Usual members give a type, or none, unless they list too many or too few. -/
theorem typed_or_ambiguous (h : Usual members) (owner : String) :
    (∃ t, Typed members t) ∨ (∀ t, ¬Typed members t) ∧
      ∃ types, effectiveType owner members = .error (.ambiguousType types owner) := by
  rcases h.type with htype | ⟨word, htype⟩ | ⟨words, htype⟩
  · left
    cases henum : contains "enum" members with
    | true => exact ⟨_, .values htype henum⟩
    | false => exact ⟨_, .free htype henum⟩
  · exact .inl ⟨_, .word htype⟩
  · by_cases honly : ∃ word, (words.filter fun w => w ≠ "null") = [word]
    · obtain ⟨word, honly⟩ := honly
      exact .inl ⟨_, .listed htype honly⟩
    · have hfault : effectiveType owner members = .error (.ambiguousType (words.map .str) owner) := by
        rw [effectiveType, htype]
        simp only [filter_map_str]
        rcases hwords : words.filter fun w => w ≠ "null" with _ | ⟨w, _ | ⟨w', rest⟩⟩
        · rfl
        · exact absurd ⟨w, hwords⟩ honly
        · rfl
      refine .inr ⟨fun t ht => ?_, _, hfault⟩
      rw [effectiveType_of_typed ht] at hfault
      cases hfault

/-! ## The form of members -/

theorem contains_eq_false_iff {key : String} :
    ¬contains key members = true ↔ OrderedMap.get? key members = none := by
  rw [contains, Bool.not_eq_true, Option.isSome_eq_false_iff, Option.isNone_iff_eq_none]

/-- What has no reference and no composition. -/
theorem get?_of_not_closed (h : ¬Closed members) : OrderedMap.get? "$ref" members = none ∧
    OrderedMap.get? "allOf" members = none ∧ OrderedMap.get? "oneOf" members = none := by
  obtain ⟨href, h⟩ := not_or.1 h
  obtain ⟨hallOf, honeOf⟩ := not_or.1 h
  exact ⟨contains_eq_false_iff.1 href, contains_eq_false_iff.1 hallOf, contains_eq_false_iff.1 honeOf⟩

theorem ofMembers_of_closed (h : Closed members) (owner : String) :
    ∃ s, Form.ofMembers owner members = .ok (.leaf s) := by
  rw [Form.ofMembers]
  cases href : OrderedMap.get? "$ref" members with
  | some target => exact ⟨_, rfl⟩
  | none =>
    cases hallOf : OrderedMap.get? "allOf" members with
    | some parts => exact ⟨_, rfl⟩
    | none =>
      cases honeOf : OrderedMap.get? "oneOf" members with
      | some parts => exact ⟨_, rfl⟩
      | none =>
        rcases h with h | h | h <;> rw [contains, ‹OrderedMap.get? _ members = none›] at h <;> cases h

theorem ofMembers_of_foreign (hopened : ¬Closed members) (h : Foreign members) (owner : String) :
    Form.ofMembers owner members = .error (.unsupportedComposition (sortedKeys members) owner) := by
  obtain ⟨href, hallOf, honeOf⟩ := get?_of_not_closed hopened
  rw [Form.ofMembers, href, hallOf, honeOf]
  exact if_pos (by rwa [Bool.or_eq_true])

/-- Without a reference and a composition, the type decides. -/
theorem ofMembers_of_own (hopened : ¬Closed members) (h : ¬Foreign members) (owner : String) :
    Form.ofMembers owner members = (do
      let type ← effectiveType owner members
      if type.isText "array" then pure .array
      else if type.isText "object" || contains "properties" members then
        pure (.object (← requiredNames (Document.field "required" members)))
      else pure (.leaf (← scalarOf owner type))) := by
  obtain ⟨href, hallOf, honeOf⟩ := get?_of_not_closed hopened
  rw [Form.ofMembers, href, hallOf, honeOf]
  exact if_neg (by rwa [Bool.or_eq_true])

theorem isText_typeValue {word : String} : (typeValue t).isText word = true ↔ t = some word := by
  cases t with
  | none => simp [typeValue, Json.isText]
  | some w => simp [typeValue, Json.isText]

theorem ofMembers_of_array (hopened : ¬Closed members) (hown : ¬Foreign members)
    (htyped : Typed members (some "array")) (owner : String) :
    Form.ofMembers owner members = .ok .array := by
  rw [ofMembers_of_own hopened hown, effectiveType_of_typed htyped]
  rfl

/-- The names that members require. -/
def requires (members : Json.Members) : List String :=
  match Document.field "required" members with
  | .arr items => items.filterMap fun
    | .str s => some s
    | _ => none
  | _ => []

theorem filterMap_str (names : List String) :
    ((names.map Json.str).filterMap fun
      | .str s => some s
      | _ => none) = names := by
  induction names with
  | nil => rfl
  | cons name names ih => exact congrArg (name :: ·) ih

theorem requiredNames_of_usual (h : Usual members) :
    requiredNames (Document.field "required" members) = .ok (requires members) := by
  rw [requiredNames, requires]
  rcases h.required with hrequired | ⟨names, hrequired⟩
  · rw [hrequired]
    rfl
  · rw [hrequired]
    have helements : ((Json.arr (names.map .str)).orElse (.arr [])).elements = .ok (names.map .str) := by
      cases names <;> rfl
    have hhashable : (names.map Json.str).all (fun e => e.isHashable) = true := by
      rw [List.all_map]
      exact List.all_eq_true.2 fun _ _ => rfl
    rw [helements]
    simp only [bind, Except.bind, hhashable, if_true]
    rfl

theorem ofMembers_of_objectlike (h : Usual members) (hopened : ¬Closed members) (hown : ¬Foreign members)
    (htyped : Typed members t) (hobject : Objectlike members t) (owner : String) :
    Form.ofMembers owner members = .ok (.object (requires members)) := by
  obtain ⟨harray, hobject⟩ := hobject
  rw [ofMembers_of_own hopened hown, effectiveType_of_typed htyped]
  show (if (typeValue t).isText "array" = true then _ else _) = _
  rw [if_neg (mt isText_typeValue.1 harray), if_pos, requiredNames_of_usual h]
  · rfl
  · rw [Bool.or_eq_true]
    exact hobject.imp_left isText_typeValue.2

theorem ofWord?_word (type : Primitive) : Primitive.ofWord? type.word = some type := by
  cases type <;> rfl

theorem eq_word_of_ofWord? {word : String} {type : Primitive} (h : Primitive.ofWord? word = some type) :
    word = type.word := by
  rw [Primitive.ofWord?] at h
  split_ifs at h <;> cases h <;> assumption

/-- What declares neither an array nor an object declares a single value, or its type is none. -/
theorem ofMembers_of_single (hopened : ¬Closed members) (hown : ¬Foreign members)
    (htyped : Typed members t) (harray : t ≠ some "array") (hobject : ¬Objectlike members t)
    (owner : String) :
    (t = none ∧ Form.ofMembers owner members = .ok (.leaf (.scalar none))) ∨
    (∃ type : Primitive, t = some type.word ∧
      Form.ofMembers owner members = .ok (.leaf (.scalar (some type)))) ∨
    ((t ≠ none ∧ ∀ type : Primitive, t ≠ some type.word) ∧
      Form.ofMembers owner members = .error (.unknownType (typeValue t) owner)) := by
  have hform : Form.ofMembers owner members = (scalarOf owner (typeValue t)).map .leaf := by
    rw [ofMembers_of_own hopened hown, effectiveType_of_typed htyped]
    show (if (typeValue t).isText "array" = true then _ else _) = _
    rw [if_neg (mt isText_typeValue.1 harray), if_neg]
    · cases scalarOf owner (typeValue t) <;> rfl
    · rw [Bool.or_eq_true]
      exact fun h => hobject ⟨harray, h.imp_left isText_typeValue.1⟩
  rw [hform]
  cases t with
  | none => exact .inl ⟨rfl, rfl⟩
  | some word =>
    right
    cases hword : Primitive.ofWord? word with
    | some type =>
      refine .inl ⟨type, congrArg some (eq_word_of_ofWord? hword), ?_⟩
      simp only [typeValue, Option.elim, scalarOf, hword]
      rfl
    | none =>
      refine .inr ⟨⟨nofun, ?_⟩, ?_⟩
      · rintro type ⟨⟩
        rw [ofWord?_word] at hword
        cases hword
      · simp only [typeValue, Option.elim, scalarOf, hword]
        rfl

/-! ## Reading -/

/-- A value is read exactly if it is a declaration, and otherwise its shape is at fault. -/
def Settled (v : Json) : Prop :=
  ∀ owner, (v.Grammatical ∧ ∃ s, read owner v = .ok s) ∨
    (¬v.Grammatical ∧ ∃ fault, read owner v = .error fault ∧ fault.category = .schemaShape)

/-- The items of an array are those under their key, if these are an object. -/
theorem readItems_of_get? (owner : String) (members : Json.Members) :
    readItems owner members =
      match OrderedMap.get? "items" members with
      | some v => if v.isObject then read owner v else .error (.arrayWithoutItems owner)
      | none => .error (.arrayWithoutItems owner) := by
  rw [readItems_eq]
  cases OrderedMap.get? "items" members with
  | none => rfl
  | some v => simp only [Option.toList_some, List.map_cons, readItems, if_true]

/-- The properties of usual members are those of the object under their key. -/
theorem readProperties_of_usual (h : Usual members) (required : List String) :
    readProperties required members = readEach required (Json.properties members) := by
  rw [readProperties_eq, Json.properties]
  rcases h.properties with hproperties | ⟨declared, hproperties⟩
  · rw [hproperties]
    rw [Document.field] at hproperties
    cases hget : OrderedMap.get? "properties" members with
    | none => rfl
    | some v =>
      rw [hget] at hproperties
      cases hproperties
      rfl
  · rw [hproperties]
    rw [Document.field] at hproperties
    cases hget : OrderedMap.get? "properties" members with
    | none =>
      rw [hget] at hproperties
      cases hproperties
    | some v =>
      rw [hget] at hproperties
      cases hproperties
      simp only [Option.toList_some, List.map_cons, List.map_nil, readProperties, if_true]
      rfl

/-- Properties are read one by one up to the first that is no declaration. -/
theorem readEach_cases (required : List String) {entries : Json.Members}
    (h : ∀ before e rest, entries = before ++ e :: rest → (∀ b ∈ before, Json.Grammatical b.2) →
      Settled e.2) :
    ((∀ e ∈ entries, Json.Grammatical e.2) ∧ ∃ ps, readEach required entries = .ok ps) ∨
      ((∃ e ∈ entries, ¬Json.Grammatical e.2) ∧
        ∃ fault, readEach required entries = .error fault ∧ fault.category = .schemaShape) := by
  induction entries with
  | nil => exact .inl ⟨nofun, [], rfl⟩
  | cons e entries ih =>
    rcases h [] e entries rfl nofun e.1 with
      ⟨hgrammatical, s, hread⟩ | ⟨hungrammatical, fault, hread, hfault⟩
    · have hrest := ih fun before e' rest he hbefore =>
        h (e :: before) e' rest (congrArg (e :: ·) he) (List.forall_mem_cons.2 ⟨hgrammatical, hbefore⟩)
      rw [readEach, hread]
      rcases hrest with ⟨hall, ps, hps⟩ | ⟨⟨bad, hbad, hungrammatical⟩, fault, hps, hfault⟩
      · simp only [hps]
        exact .inl ⟨List.forall_mem_cons.2 ⟨hgrammatical, hall⟩, _, rfl⟩
      · refine .inr ⟨⟨bad, List.mem_cons_of_mem _ hbad, hungrammatical⟩, fault, ?_, hfault⟩
        simp only [hps]
        rfl
    · refine .inr ⟨⟨e, List.mem_cons_self, hungrammatical⟩, fault, ?_, hfault⟩
      rw [readEach, hread]

theorem sizeOf_lt_of_get? {key : String} (h : OrderedMap.get? key members = some v) :
    sizeOf v < sizeOf (Json.obj members) := by
  obtain ⟨k, hmem, -⟩ := OrderedMap.exists_mem_of_get? h
  have hentry := List.sizeOf_lt_of_mem hmem
  simp only [Prod.mk.sizeOf_spec] at hentry
  simp only [Json.obj.sizeOf_spec]
  omega

theorem sizeOf_lt_of_mem_properties {e : String × Json} (h : e ∈ Json.properties members) :
    sizeOf e.2 < sizeOf (Json.obj members) := by
  rw [Json.properties, Document.field] at h
  cases hget : OrderedMap.get? "properties" members with
  | none =>
    rw [hget] at h
    cases h
  | some v =>
    rw [hget] at h
    cases v with
    | obj declared =>
      have hdeclared := sizeOf_lt_of_get? hget
      have hentry := List.sizeOf_lt_of_mem (show e ∈ declared from h)
      obtain ⟨name, w⟩ := e
      simp only [Prod.mk.sizeOf_spec] at hentry
      simp only [Json.obj.sizeOf_spec] at hdeclared ⊢
      omega
    | _ => cases h

theorem isObject_of_grammatical (h : v.Grammatical) : v.isObject = true := by
  cases h <;> rfl

/-- A value that is no object is no declaration. -/
theorem settled_of_not_object (h : v.isObject = false) : Settled v := by
  intro owner
  refine .inr ⟨fun hgrammatical => ?_, .notASchema v owner, ?_, rfl⟩
  · rw [isObject_of_grammatical hgrammatical] at h
    cases h
  · cases v <;> first | rfl | cases h

/-- What a reference or a composition is, is not asked further. -/
theorem settled_closed (h : Closed members) : Settled (.obj members) := by
  intro owner
  obtain ⟨s, hform⟩ := ofMembers_of_closed h owner
  exact .inl ⟨.closed h, s, by rw [read, hform]⟩

theorem settled_foreign (hopened : ¬Closed members) (h : Foreign members) : Settled (.obj members) := by
  intro owner
  refine .inr ⟨fun hgrammatical => ?_, .unsupportedComposition (sortedKeys members) owner, ?_, rfl⟩
  · cases hgrammatical <;> contradiction
  · rw [read, ofMembers_of_foreign hopened h]

/-- Members without a reference and a composition need one type at most. -/
theorem settled_untyped (husual : Usual members) (hopened : ¬Closed members) (hown : ¬Foreign members)
    (huntyped : ∀ t, ¬Typed members t) : Settled (.obj members) := by
  intro owner
  obtain ⟨t, htyped⟩ | ⟨-, types, hfault⟩ := typed_or_ambiguous husual owner
  · exact absurd htyped (huntyped t)
  refine .inr ⟨fun hgrammatical => ?_, .ambiguousType types owner, ?_, rfl⟩
  · cases hgrammatical with
    | closed closed => exact hopened closed
    | array _ typed | object _ typed | free _ typed | primitive _ _ typed => exact huntyped _ typed
  · rw [read, ofMembers_of_own hopened hown, hfault]
    rfl

theorem word_ne (type : Primitive) : type.word ≠ "array" ∧ type.word ≠ "object" := by
  cases type <;> decide

theorem grammatical_iff_of_array (hopened : ¬Closed members) (hown : ¬Foreign members)
    (htyped : Typed members (some "array")) : (Json.obj members).Grammatical ↔
      ∃ v, OrderedMap.get? "items" members = some v ∧ v.Grammatical := by
  constructor
  · intro h
    cases h with
    | closed closed => exact absurd closed hopened
    | array _ _ items_eq items_grammatical => exact ⟨_, items_eq, items_grammatical⟩
    | object _ typed objectlike => exact absurd (typed_unique typed htyped) objectlike.1
    | free _ typed => cases typed_unique typed htyped
    | primitive type _ typed =>
      exact absurd (Option.some.inj (typed_unique typed htyped)) (word_ne type).1
  · rintro ⟨v, hitems, hv⟩
    exact .array hown htyped hitems hv

theorem grammatical_iff_of_objectlike (hopened : ¬Closed members) (hown : ¬Foreign members)
    (htyped : Typed members t) (hobject : Objectlike members t) : (Json.obj members).Grammatical ↔
      ∀ e ∈ Json.properties members, Json.Grammatical e.2 := by
  constructor
  · intro h
    cases h with
    | closed closed => exact absurd closed hopened
    | array _ typed => exact absurd (typed_unique htyped typed) hobject.1
    | object _ _ _ properties_grammatical => exact properties_grammatical
    | free _ typed bare =>
      cases typed_unique htyped typed
      rcases hobject.2 with h | h
      · cases h
      · rw [bare] at h
        cases h
    | primitive type _ typed bare =>
      cases typed_unique htyped typed
      rcases hobject.2 with h | h
      · exact absurd (Option.some.inj h) (word_ne type).2
      · rw [bare] at h
        cases h
  · exact fun hall => .object hown htyped hobject hall

theorem grammatical_iff_of_single (hopened : ¬Closed members) (hown : ¬Foreign members)
    (htyped : Typed members t) (harray : t ≠ some "array") (hobject : ¬Objectlike members t) :
    (Json.obj members).Grammatical ↔ t = none ∨ ∃ type : Primitive, t = some type.word := by
  constructor
  · intro h
    cases h with
    | closed closed => exact absurd closed hopened
    | array _ typed => exact absurd (typed_unique htyped typed) harray
    | object _ typed objectlike => exact absurd (typed_unique typed htyped ▸ objectlike) hobject
    | free _ typed => exact .inl (typed_unique htyped typed)
    | primitive type _ typed => exact .inr ⟨type, typed_unique htyped typed⟩
  · have hbare : contains "properties" members = false := by
      rw [← Bool.not_eq_true]
      exact fun h => hobject ⟨harray, .inr h⟩
    rintro (rfl | ⟨type, rfl⟩)
    · exact .free hown htyped hbare
    · exact .primitive type hown htyped hbare

/-- An array is read with its items. -/
theorem settled_array (hopened : ¬Closed members) (hown : ¬Foreign members)
    (htyped : Typed members (some "array"))
    (hitems : ∀ v, OrderedMap.get? "items" members = some v → v.isObject = true → Settled v) :
    Settled (.obj members) := by
  intro owner
  have hread : read owner (.obj members) = (readItems owner members).map .array := by
    rw [read, ofMembers_of_array hopened hown htyped]
  rw [hread, grammatical_iff_of_array hopened hown htyped, readItems_of_get?]
  cases hget : OrderedMap.get? "items" members with
  | none => exact .inr ⟨fun ⟨v, hv, _⟩ => (by cases hv), .arrayWithoutItems owner, rfl, rfl⟩
  | some v =>
    cases hobject : v.isObject with
    | false =>
      refine .inr ⟨fun ⟨w, hw, hgrammatical⟩ => ?_, .arrayWithoutItems owner,
        by simp only [hobject]; rfl, rfl⟩
      cases hw
      rw [isObject_of_grammatical hgrammatical] at hobject
      cases hobject
    | true =>
      simp only [hobject, if_true]
      rcases hitems v hget hobject owner with ⟨hgrammatical, s, hs⟩ | ⟨hungrammatical, fault, hs, hfault⟩
      · exact .inl ⟨⟨v, rfl, hgrammatical⟩, .array s, by rw [hs]; rfl⟩
      · refine .inr ⟨fun ⟨w, hw, hgrammatical⟩ => ?_, fault, by rw [hs]; rfl, hfault⟩
        cases hw
        exact hungrammatical hgrammatical

theorem read_of_objectlike (husual : Usual members) (hopened : ¬Closed members) (hown : ¬Foreign members)
    (htyped : Typed members t) (hobject : Objectlike members t) (owner : String) :
    read owner (.obj members) =
      (readEach (requires members) (Json.properties members)).map .object := by
  rw [read, ofMembers_of_objectlike husual hopened hown htyped hobject]
  simp only [readProperties_of_usual husual]

/-- An object is read with its properties. -/
theorem settled_object (husual : Usual members) (hopened : ¬Closed members) (hown : ¬Foreign members)
    (htyped : Typed members t) (hobject : Objectlike members t)
    (hproperties : ∀ before e rest, Json.properties members = before ++ e :: rest →
      (∀ b ∈ before, Json.Grammatical b.2) → Settled e.2) : Settled (.obj members) := by
  intro owner
  rw [read_of_objectlike husual hopened hown htyped hobject,
    grammatical_iff_of_objectlike hopened hown htyped hobject]
  rcases readEach_cases (requires members) hproperties with
    ⟨hgrammatical, ps, hps⟩ | ⟨⟨bad, hbad, hungrammatical⟩, fault, hps, hfault⟩
  · exact .inl ⟨hgrammatical, _, by rw [hps]; rfl⟩
  · exact .inr ⟨fun h => hungrammatical (h bad hbad), fault, by rw [hps]; rfl, hfault⟩

theorem settled_single (hopened : ¬Closed members) (hown : ¬Foreign members) (htyped : Typed members t)
    (harray : t ≠ some "array") (hobject : ¬Objectlike members t) : Settled (.obj members) := by
  intro owner
  rw [grammatical_iff_of_single hopened hown htyped harray hobject]
  rcases ofMembers_of_single hopened hown htyped harray hobject owner with
    ⟨rfl, hform⟩ | ⟨type, rfl, hform⟩ | ⟨⟨hne, hword⟩, hform⟩
  · exact .inl ⟨.inl rfl, _, by rw [read, hform]⟩
  · exact .inl ⟨.inr ⟨type, rfl⟩, _, by rw [read, hform]⟩
  · exact .inr ⟨fun h => h.elim hne fun ⟨type, h⟩ => hword type h, _, by rw [read, hform], rfl⟩

/-- Regular values are read if they are declarations, and otherwise their shape is at fault. -/
theorem settled_of_regular (v : Json) (h : v.Regular) : Settled v := by
  cases v with
  | obj members =>
    have husual := h.usual
    by_cases hclosed : Closed members
    · exact settled_closed hclosed
    by_cases hforeign : Foreign members
    · exact settled_foreign hclosed hforeign
    by_cases hsome : ∃ t, Typed members t
    case neg => exact settled_untyped husual hclosed hforeign (not_exists.1 hsome)
    obtain ⟨t, htyped⟩ := hsome
    by_cases harray : t = some "array"
    · subst harray
      refine settled_array hclosed hforeign htyped fun v hget hobject => ?_
      have := sizeOf_lt_of_get? hget
      exact settled_of_regular v (h.of_descends (.items hclosed hforeign htyped hget hobject))
    by_cases hobject : Objectlike members t
    · refine settled_object husual hclosed hforeign htyped hobject fun before e rest he hbefore => ?_
      have := sizeOf_lt_of_mem_properties (he ▸ List.mem_append_right before List.mem_cons_self)
      exact settled_of_regular e.2
        (h.of_descends (.property hclosed hforeign htyped hobject he hbefore))
    · exact settled_single hclosed hforeign htyped harray hobject
  | _ => exact settled_of_not_object rfl
termination_by sizeOf v

end Schema

end ApiGraph
