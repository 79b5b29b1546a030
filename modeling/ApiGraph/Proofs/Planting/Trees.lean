import ApiGraph.Proofs.Depicting.Nodes
import ApiGraph.Proofs.Planting.Grammar
import ApiGraph.Proofs.Referring.Values

/-!
# The trees of declarations

A new node and what is built below it say what the declaration says, and nothing else.

* `Graph.Embodies` — a tree of new nodes embodies a declaration;
* `Graph.embodies_plant` — the tree that is planted for a declaration embodies it;
* `Build.fromSchema_exactly` — a regular value is built exactly if it is a declaration, and then as the
  tree that embodies it; otherwise its shape is at fault.
-/

namespace ApiGraph

open OrderedMap Json

/-! ## Trees -/

/-- What a property says that is declared under a name among the members of an object. -/
structure Slot.Says (slot : Slot) (members : Json.Members) (name : String) (declaration : Json) : Prop where
  required : ∃ b, slot.required = .bool b ∧
    (b = true ↔ ∃ names, Document.field "required" members = .arr names ∧ .str name ∈ names)
  declared : slot.declaration = declaration
  default : slot.default = (declaration.get? "default").getD .null

namespace Graph

mutual

/-- A tree of new nodes embodies a declaration: an array has one child for its items, an object has its
properties for children, and below all other nodes there is nothing. -/
inductive Embodies (g : Graph) : Option NodeId → NodeId → Json → Prop
  | ref {parent : Option NodeId} {i : NodeId} {members : Json.Members} {target : Json}
      (ref_eq : OrderedMap.get? "$ref" members = some target)
      (node_eq : g.node i = { body := .ref ⟨target, none⟩, parent := parent }) :
      Embodies g parent i (.obj members)
  | allOf {parent : Option NodeId} {i : NodeId} {members : Json.Members} {parts : Json}
      (ref_eq : OrderedMap.get? "$ref" members = none)
      (allOf_eq : OrderedMap.get? "allOf" members = some parts)
      (node_eq : g.node i = { body := .composed .allOf (some parts), parent := parent }) :
      Embodies g parent i (.obj members)
  | oneOf {parent : Option NodeId} {i : NodeId} {members : Json.Members} {parts : Json}
      (ref_eq : OrderedMap.get? "$ref" members = none)
      (allOf_eq : OrderedMap.get? "allOf" members = none)
      (oneOf_eq : OrderedMap.get? "oneOf" members = some parts)
      (node_eq : g.node i = { body := .composed .oneOf (some parts), parent := parent }) :
      Embodies g parent i (.obj members)
  | array {parent : Option NodeId} {i item : NodeId} {members : Json.Members} {items : Json}
      (opened : ¬Closed members) (own : ¬Foreign members) (typed : Typed members (some "array"))
      (items_eq : OrderedMap.get? "items" members = some items)
      (node_eq : g.node i =
        { body := .array (some item), parent := parent, children := [some item] })
      (item_embody : Embodies g (some i) item items) : Embodies g parent i (.obj members)
  | object {parent : Option NodeId} {i : NodeId} {members : Json.Members} {t : Option String}
      {fields : OrderedMap Key NodeId} (opened : ¬Closed members) (own : ¬Foreign members)
      (typed : Typed members t) (objectlike : Objectlike members t)
      (node_eq : g.node i =
        { body := .object, parent := parent, props := fields, children := (values fields).map some })
      (fields_embody : EmbodiesEach g i members fields (properties members)) :
      Embodies g parent i (.obj members)
  | free {parent : Option NodeId} {i : NodeId} {members : Json.Members} (opened : ¬Closed members)
      (own : ¬Foreign members) (typed : Typed members none)
      (bare : contains "properties" members = false)
      (node_eq : g.node i = { body := .scalar none, parent := parent }) :
      Embodies g parent i (.obj members)
  | primitive {parent : Option NodeId} {i : NodeId} {members : Json.Members} (type : Primitive)
      (opened : ¬Closed members) (own : ¬Foreign members) (typed : Typed members (some type.word))
      (bare : contains "properties" members = false)
      (node_eq : g.node i = { body := .scalar (some type), parent := parent }) :
      Embodies g parent i (.obj members)

/-- The properties of an object embody some entries of what it declares, one after the other. -/
inductive EmbodiesEach (g : Graph) :
    NodeId → Json.Members → OrderedMap Key NodeId → Json.Members → Prop
  | nil {i : NodeId} {members : Json.Members} : EmbodiesEach g i members [] []
  | ref {i k : NodeId} {members rest : Json.Members} {fields : OrderedMap Key NodeId} {name : String}
      {declaration target : Json} {slot : Slot} (ref_eq : declaration.get? "$ref" = some target)
      (slot_fits : slot.Says members name declaration) (type_eq : slot.type = none)
      (node_eq : g.node k =
        { body := .property slot [] (some ⟨target, none⟩), name := .str name, parent := some i })
      (rest_embody : EmbodiesEach g i members fields rest) :
      EmbodiesEach g i members ((.text name, k) :: fields) ((name, declaration) :: rest)
  | typed {i k t : NodeId} {members rest : Json.Members} {fields : OrderedMap Key NodeId}
      {name : String} {declaration : Json} {slot : Slot} (ref_eq : declaration.get? "$ref" = none)
      (slot_fits : slot.Says members name declaration) (type_eq : slot.type = some t)
      (node_eq : g.node k =
        { body := .property slot [] none, name := .str name, parent := some i, children := [some t] })
      (type_embody : Embodies g (some k) t declaration)
      (rest_embody : EmbodiesEach g i members fields rest) :
      EmbodiesEach g i members ((.text name, k) :: fields) ((name, declaration) :: rest)

end

end Graph

/-! ## How declarations are read -/

namespace Schema

variable {members : Json.Members} {owner : String} {s : Schema}

/-- What usual members are read as. -/
inductive Spelled (owner : String) (members : Json.Members) : Schema → Prop
  | ref {target : Json} (ref_eq : OrderedMap.get? "$ref" members = some target) :
      Spelled owner members (.ref target)
  | allOf {parts : Json} (ref_eq : OrderedMap.get? "$ref" members = none)
      (allOf_eq : OrderedMap.get? "allOf" members = some parts) :
      Spelled owner members (.composed .allOf parts)
  | oneOf {parts : Json} (ref_eq : OrderedMap.get? "$ref" members = none)
      (allOf_eq : OrderedMap.get? "allOf" members = none)
      (oneOf_eq : OrderedMap.get? "oneOf" members = some parts) :
      Spelled owner members (.composed .oneOf parts)
  | array {v : Json} {items : Schema} (opened : ¬Closed members) (own : ¬Foreign members)
      (typed : Typed members (some "array")) (items_eq : OrderedMap.get? "items" members = some v)
      (object : v.isObject = true) (read_eq : read owner v = .ok items) :
      Spelled owner members (.array items)
  | object {t : Option String} {ps : List (PropertyOf Schema)} (opened : ¬Closed members)
      (own : ¬Foreign members) (typed : Typed members t) (objectlike : Objectlike members t)
      (read_eq : readEach (requires members) (properties members) = .ok ps) :
      Spelled owner members (.object ps)
  | free (opened : ¬Closed members) (own : ¬Foreign members) (typed : Typed members none)
      (bare : contains "properties" members = false) : Spelled owner members (.scalar none)
  | primitive (type : Primitive) (opened : ¬Closed members) (own : ¬Foreign members)
      (typed : Typed members (some type.word)) (bare : contains "properties" members = false) :
      Spelled owner members (.scalar (some type))

theorem spelled_of_closed (h : Closed members) (hread : read owner (.obj members) = .ok s) :
    Spelled owner members s := by
  rw [read, Form.ofMembers] at hread
  cases href : OrderedMap.get? "$ref" members with
  | some target =>
    rw [href] at hread
    cases hread
    exact .ref href
  | none =>
    cases hallOf : OrderedMap.get? "allOf" members with
    | some parts =>
      rw [href, hallOf] at hread
      cases hread
      exact .allOf href hallOf
    | none =>
      cases honeOf : OrderedMap.get? "oneOf" members with
      | some parts =>
        rw [href, hallOf, honeOf] at hread
        cases hread
        exact .oneOf href hallOf honeOf
      | none =>
        rcases h with h | h | h <;> rw [contains, ‹OrderedMap.get? _ members = none›] at h <;> cases h

theorem exists_of_map_eq_ok {α β : Type} {a : Attempt α} {f : α → β} {b : β} (h : a.map f = .ok b) :
    ∃ x, a = .ok x ∧ f x = b := by
  cases a with
  | ok x => exact ⟨x, rfl, Except.ok.inj h⟩
  | error fault => cases h

theorem not_objectlike {t : Option String} (hbare : contains "properties" members = false)
    (ht : t ≠ some "object") : ¬Objectlike members t := by
  rintro ⟨-, h | h⟩
  · exact ht h
  · rw [hbare] at h
    cases h

theorem spelled_of_read (h : (Json.obj members).Regular) (hread : read owner (.obj members) = .ok s) :
    Spelled owner members s := by
  have husual := h.usual
  by_cases hclosed : Closed members
  · exact spelled_of_closed hclosed hread
  obtain ⟨hgrammatical, -⟩ | ⟨-, fault, hfault, -⟩ := settled_of_regular _ h owner
  swap
  · rw [hread] at hfault
    cases hfault
  cases hgrammatical with
  | closed closed => exact absurd closed hclosed
  | array own typed items_eq items_grammatical =>
    rw [read, ofMembers_of_array hclosed own typed] at hread
    obtain ⟨items, hitems, rfl⟩ := exists_of_map_eq_ok hread
    have hobject := isObject_of_grammatical items_grammatical
    rw [readItems_of_get?, items_eq] at hitems
    simp only [hobject, if_true] at hitems
    exact .array hclosed own typed items_eq hobject hitems
  | object own typed objectlike _ =>
    rw [read_of_objectlike husual hclosed own typed objectlike] at hread
    obtain ⟨ps, hps, rfl⟩ := exists_of_map_eq_ok hread
    exact .object hclosed own typed objectlike hps
  | free own typed bare =>
    have hsingle := ofMembers_of_single hclosed own typed nofun (not_objectlike bare nofun) owner
    obtain ⟨-, hform⟩ | ⟨type, ⟨⟩, -⟩ | ⟨⟨hne, -⟩, -⟩ := hsingle
    · rw [read, hform] at hread
      cases hread
      exact .free hclosed own typed bare
    · exact absurd rfl hne
  | primitive type own typed bare =>
    have hsingle := ofMembers_of_single hclosed own typed
      (fun h => (word_ne type).1 (Option.some.inj h))
      (not_objectlike bare fun h => (word_ne type).2 (Option.some.inj h)) owner
    obtain ⟨⟨⟩, -⟩ | ⟨type', htype, hform⟩ | ⟨⟨-, hne⟩, -⟩ := hsingle
    · rw [read, hform] at hread
      cases hread
      rw [htype] at typed
      exact .primitive type' hclosed own typed bare
    · exact absurd rfl (hne type)

theorem readEach_cons_eq_ok_iff {required : List String} {name : String} {declaration : Json}
    {rest : Json.Members} {ps : List (PropertyOf Schema)} :
    readEach required ((name, declaration) :: rest) = .ok ps ↔
      ∃ type more, read name declaration = .ok type ∧ readEach required rest = .ok more ∧
        ps = ⟨name, required.contains name, declaration, type⟩ :: more := by
  rw [readEach]
  constructor
  · intro h
    cases hfirst : read name declaration with
    | error fault =>
      rw [hfirst] at h
      cases h
    | ok type =>
      rw [hfirst] at h
      obtain ⟨more, hmore, rfl⟩ := exists_of_map_eq_ok h
      exact ⟨type, more, rfl, hmore, rfl⟩
  · rintro ⟨type, more, hfirst, hmore, rfl⟩
    simp only [hfirst, hmore]
    rfl

/-- When all properties are read, all their declarations are regular. -/
theorem regular_of_readEach {required : List String} {entries : Json.Members}
    {ps : List (PropertyOf Schema)}
    (h : ∀ before e rest, entries = before ++ e :: rest → (∀ b ∈ before, Json.Grammatical b.2) →
      Json.Regular e.2) (hread : readEach required entries = .ok ps) :
    ∀ e ∈ entries, Json.Regular e.2 := by
  induction entries generalizing ps with
  | nil => nofun
  | cons e entries ih =>
    obtain ⟨type, more, hfirst, hmore, -⟩ := readEach_cons_eq_ok_iff.1 hread
    have hregular : Json.Regular e.2 := h [] e entries rfl nofun
    obtain ⟨hgrammatical, -⟩ | ⟨-, fault, hfault, -⟩ := settled_of_regular _ hregular e.1
    · refine List.forall_mem_cons.2 ⟨hregular, ih (fun before e' rest he hbefore => ?_) hmore⟩
      exact h (e :: before) e' rest (congrArg (e :: ·) he)
        (List.forall_mem_cons.2 ⟨hgrammatical, hbefore⟩)
    · rw [hfirst] at hfault
      cases hfault

end Schema

/-! ## Planting -/

namespace Graph

variable {g g' : Graph} {parent : Option NodeId} {members : Json.Members} {s : Schema}

/-- A new object with the properties that were planted for it. -/
theorem node_plantEach {i : NodeId} {ps : List (PropertyOf Schema)} (hsprout : Sprout g i g.size)
    (hnode : g.node i = { body := .object, parent := parent }) {fields : OrderedMap Key NodeId}
    (hfields : ((g.plantEach i ps).node i).props = fields) :
    (g.plantEach i ps).node i =
      { body := .object, parent := parent, props := fields, children := (values fields).map some } := by
  have hmore := extended_plantEach i g ps hsprout (by rw [hnode])
  have hbud := hmore.sprout.bud
  have hbody := hmore.body
  have hname := hmore.name
  have hparent := hmore.parent
  have hvisited := hbud.unvisited
  have hchildren := hbud.gathered hbody
  have hattached := hbud.attached
  rw [hnode] at hname hparent
  rw [hfields] at hchildren
  generalize (g.plantEach i ps).node i = n at *
  obtain ⟨body, name, parent', visited, props, children, attached⟩ := n
  simp only at hbody hname hparent hvisited hchildren hattached hfields
  rw [hbody, hname, hparent, hvisited, hchildren, hattached, hfields]

/-- Whether a property is required is read off the list of names. -/
theorem contains_requires_iff (h : Usual members) (name : String) :
    (Schema.requires members).contains name = true ↔
      ∃ names, Document.field "required" members = .arr names ∧ .str name ∈ names := by
  rw [Schema.requires, List.contains_iff_mem]
  rcases h.required with hrequired | ⟨names, hrequired⟩ <;> rw [hrequired]
  · simp
  · simp only [Json.arr.injEq, exists_eq_left', Schema.filterMap_str]
    rw [List.mem_map_of_injective Schema.str_injective]

theorem exists_obj_of_read {owner : String} {v : Json} (h : Schema.read owner v = .ok s) :
    ∃ members, v = .obj members := by
  cases v with
  | obj members => exact ⟨members, rfl⟩
  | _ => cases h

/-- What has a reference is read as one. -/
theorem read_of_ref {owner : String} {v target : Json} (h : v.get? "$ref" = some target) :
    Schema.read owner v = .ok (.ref target) := by
  cases v with
  | obj members =>
    rw [Json.get?] at h
    rw [Schema.read, Schema.Form.ofMembers, h]
  | _ => cases h

theorem proper_of_get? {key : String} {v : Json} (h : (Json.obj members).Proper)
    (hget : OrderedMap.get? key members = some v) : v.Proper :=
  h.reaches (.member hget (.refl v))

/-- The properties of an object have each name once. -/
theorem proper_properties (h : (Json.obj members).Proper) :
    Distinct (keys (properties members)) ∧ ∀ e ∈ properties members, e.2.Proper := by
  rw [properties, Document.field]
  cases hget : OrderedMap.get? "properties" members with
  | none => exact ⟨.nil, fun e he => absurd he List.not_mem_nil⟩
  | some v =>
    cases v with
    | obj declared => exact proper_obj_iff.1 (proper_of_get? h hget)
    | _ => exact ⟨.nil, fun e he => absurd he List.not_mem_nil⟩

mutual

/-- The tree that is planted for a declaration embodies it, wherever it is found. -/
theorem embodies_plant (g' : Graph) : ∀ (s : Schema) (g : Graph) (parent : Option NodeId) {owner : String}
    {v : Json}, Schema.read owner v = .ok s → v.Regular → v.Proper →
    (∀ j, g.size ≤ j.index → j.index < (g.plant parent s).2.size →
      g'.node j = (g.plant parent s).2.node j) →
    g'.Embodies parent (g.plant parent s).1 v
  | .ref target, g, parent, owner, v, hread, hregular, _, hsame => by
    obtain ⟨members, rfl⟩ := exists_obj_of_read hread
    rw [plant] at hsame ⊢
    cases Schema.spelled_of_read hregular hread with
    | ref ref_eq => exact .ref ref_eq (node_of_alloc hsame)
  | .composed kind parts, g, parent, owner, v, hread, hregular, _, hsame => by
    obtain ⟨members, rfl⟩ := exists_obj_of_read hread
    rw [plant] at hsame ⊢
    cases Schema.spelled_of_read hregular hread with
    | allOf ref_eq allOf_eq => exact .allOf ref_eq allOf_eq (node_of_alloc hsame)
    | oneOf ref_eq allOf_eq oneOf_eq => exact .oneOf ref_eq allOf_eq oneOf_eq (node_of_alloc hsame)
  | .scalar type, g, parent, owner, v, hread, hregular, _, hsame => by
    obtain ⟨members, rfl⟩ := exists_obj_of_read hread
    rw [plant] at hsame ⊢
    cases Schema.spelled_of_read hregular hread with
    | free opened own typed bare => exact .free opened own typed bare (node_of_alloc hsame)
    | primitive type opened own typed bare =>
      exact .primitive type opened own typed bare (node_of_alloc hsame)
  | .array items, g, parent, owner, v, hread, hregular, hproper, hsame => by
    obtain ⟨members, rfl⟩ := exists_obj_of_read hread
    rw [plant] at hsame ⊢
    cases Schema.spelled_of_read hregular hread with
    | array opened own typed items_eq object read_eq =>
      obtain ⟨hself, hitems⟩ := node_of_planted (planted_plant _ _ items).1 hsame
      exact .array opened own typed items_eq hself
        (embodies_plant g' items _ _ read_eq
          (hregular.of_descends (.items opened own typed items_eq object))
          (proper_of_get? hproper items_eq) hitems)
  | .object ps, g, parent, owner, v, hread, hregular, hproper, hsame => by
    obtain ⟨members, rfl⟩ := exists_obj_of_read hread
    rw [plant] at hsame ⊢
    cases Schema.spelled_of_read hregular hread with
    | object opened own typed objectlike read_eq =>
      have hnode := node_alloc_self g { body := .object, parent := parent }
      have hsprout := (planted_alloc g (n := { body := .object, parent := parent })
        (loose_of_body rfl (by simp)) (by simp) rfl rfl rfl rfl).sprout
      have hmore := extended_plantEach _ _ ps hsprout (by rw [hnode])
      have hself := hsame (g.alloc { body := .object, parent := parent }).1 le_rfl hmore.sprout.lt_size
      obtain ⟨hdistinct, hentries⟩ := proper_properties hproper
      have hregulars := Schema.regular_of_readEach (fun before e rest he hbefore =>
        hregular.of_descends (.property opened own typed objectlike he hbefore)) read_eq
      obtain ⟨fields, hfields, hembody⟩ := embodiesEach_plantEach g' ps _ _ hregular.usual read_eq
        (fun e he => ⟨hregulars e he, hentries e he⟩) hdistinct hsprout (by rw [hnode])
        (fun e _ => by rw [hnode]; rfl)
        fun j hj hj' => hsame j ((Nat.le_succ _).trans (by rwa [size_alloc] at hj)) hj'
      rw [hnode, List.nil_append] at hfields
      exact .object opened own typed objectlike (hself.trans (node_plantEach hsprout hnode hfields))
        hembody

theorem embodiesEach_plantProperty (g' : Graph) : ∀ (p : PropertyOf Schema) (g : Graph) (i : NodeId)
    {members : Json.Members}, Usual members → Schema.read p.name p.declaration = .ok p.type →
    p.required = (Schema.requires members).contains p.name → p.declaration.Regular →
    p.declaration.Proper →
    (∀ j, g.size ≤ j.index → j.index < (g.plantProperty (some i) p).2.size →
      g'.node j = (g.plantProperty (some i) p).2.node j) →
    ∀ {fields rest}, g'.EmbodiesEach i members fields rest →
      g'.EmbodiesEach i members ((.text p.name, (g.plantProperty (some i) p).1) :: fields)
        ((p.name, p.declaration) :: rest)
  | ⟨name, required, declaration, type⟩, g, i, members, husual, hread, hrequired, hregular, hproper,
      hsame, fields, rest, hrest => by
    have hslot : ∀ t, (⟨.bool required, declaration, t⟩ : Slot).Says members name declaration :=
      fun t => ⟨⟨required, rfl, by rw [← contains_requires_iff husual, ← hrequired]⟩, rfl, rfl⟩
    by_cases href : ∃ target, type = .ref target
    · obtain ⟨target, rfl⟩ := href
      rw [plantProperty] at hsame ⊢
      exact .ref (Schema.get?_of_read_eq_ref hread) (hslot none) rfl (node_of_alloc hsame) hrest
    · have hplain : ∀ target, type ≠ .ref target := fun target he => href ⟨target, he⟩
      have hnone : declaration.get? "$ref" = none := by
        cases hget : declaration.get? "$ref" with
        | none => rfl
        | some target =>
          rw [read_of_ref hget] at hread
          exact absurd (Except.ok.inj hread).symm (hplain target)
      rw [plantProperty_plain (some i) g name required declaration hplain] at hsame ⊢
      obtain ⟨hself, htype⟩ := node_of_planted (planted_plant _ _ type).1 hsame
      exact .typed hnone (hslot _) rfl hself
        (embodies_plant g' type _ _ hread hregular hproper htype) hrest

theorem embodiesEach_plantEach (g' : Graph) : ∀ (ps : List (PropertyOf Schema)) (g : Graph) (i : NodeId)
    {members entries : Json.Members}, Usual members →
    Schema.readEach (Schema.requires members) entries = .ok ps →
    (∀ e ∈ entries, Json.Regular e.2 ∧ Json.Proper e.2) → Distinct (keys entries) →
    Sprout g i g.size → (g.node i).body = .object →
    (∀ e ∈ entries, OrderedMap.get? (.text e.1) (g.node i).props = none) →
    (∀ j, g.size ≤ j.index → j.index < (g.plantEach i ps).size →
      g'.node j = (g.plantEach i ps).node j) →
    ∃ fields, ((g.plantEach i ps).node i).props = (g.node i).props ++ fields ∧
      g'.EmbodiesEach i members fields entries
  | [], g, i, members, entries, _, hread, _, _, _, _, _, _ => by
    cases entries with
    | nil => exact ⟨[], (List.append_nil _).symm, .nil⟩
    | cons e entries =>
      obtain ⟨type, more, -, -, he⟩ := Schema.readEach_cons_eq_ok_iff.1 hread
      cases he
  | p :: ps, g, i, members, entries, husual, hread, hentries, hdistinct, hsprout, hobject, hfree, hsame => by
    cases entries with
    | nil => cases hread
    | cons e entries =>
      obtain ⟨name, declaration⟩ := e
      obtain ⟨type, more, hfirst, hmore, he⟩ := Schema.readEach_cons_eq_ok_iff.1 hread
      obtain ⟨hp, rfl⟩ := List.cons.inj he
      obtain rfl : p.name = name := by rw [hp]
      obtain rfl : p.declaration = declaration := by rw [hp]
      obtain rfl : p.type = type := by rw [hp]
      have hrequired : p.required = (Schema.requires members).contains p.name :=
        congrArg PropertyOf.required hp
      obtain ⟨⟨hregular, hproper⟩, hentries⟩ := List.forall_mem_cons.1 hentries
      obtain ⟨hnew, hdistinct⟩ := List.pairwise_cons.1 hdistinct
      obtain ⟨hfree, hfrees⟩ := List.forall_mem_cons.1 hfree
      obtain ⟨hplanted, hprop, hparent⟩ := planted_plantProperty (some i) g p
      have hput := extended_put hsprout hobject hplanted hprop hparent
      have hgrown := extended_plantEach i _ ps hput.sprout hput.body
      have hlt : i.index < (g.plantProperty (some i) p).2.size :=
        hput.sprout.lt_size.trans_eq (size_update _ _ _)
      rw [plantEach] at hsame ⊢
      have hprops : (((g.plantProperty (some i) p).2.update i fun n =>
          n.putProperty (.text p.name) (g.plantProperty (some i) p).1).node i).props =
          (g.node i).props ++ [(.text p.name, (g.plantProperty (some i) p).1)] := by
        rw [node_update_self _ hlt, Node.props_putProperty, hplanted.node_eq i hsprout.lt_size,
          insert_of_get?_eq_none hfree]
      obtain ⟨fields, hfields, hembody⟩ := embodiesEach_plantEach g' ps _ i husual hmore hentries hdistinct
        hput.sprout hput.body
        (fun e he => by
          have hne : (Key.text p.name == Key.text e.1) = false := by
            rw [Key.text_beq_text]
            exact hnew e.1 (List.mem_map_of_mem he)
          rw [hprops, ← insert_of_get?_eq_none hfree, get?_insert_of_beq_false hne]
          exact hfrees e he)
        fun j hj hj' => hsame j (hput.size_le.trans hj) hj'
      refine ⟨(.text p.name, (g.plantProperty (some i) p).1) :: fields, ?_, ?_⟩
      · rw [hfields, hprops, List.append_assoc, List.singleton_append]
      · refine embodiesEach_plantProperty g' p g i husual hfirst hrequired hregular hproper
          (fun j hj hj' => ?_) hembody
        have hne : j ≠ i := by
          rintro rfl
          exact absurd hsprout.lt_size (Nat.not_lt.2 hj)
        rw [hsame j hj (hj'.trans_le ((size_update _ _ _).ge.trans hgrown.size_le)),
          hgrown.node_eq j (by rwa [size_update]) hne, node_update_of_ne _ hne]

end

end Graph

/-! ## Building -/

namespace Build

/-- Declarations are built, and nothing else is. A value in which type, required names and properties
have their usual form, wherever something is read for it, is built exactly if it is a declaration; if it
is none, its shape is at fault and nothing has changed. What is built is a tree of new nodes, none of
them visited, that embodies the declaration, and all nodes that were there before stay as they were. -/
theorem fromSchema_exactly (v : Json) (hproper : v.Proper) (hregular : v.Regular)
    (parent : Option NodeId) (c : Context) :
    (v.Grammatical ↔ ∃ i c', fromSchema parent v c = .ok i c') ∧
    (∀ i c', fromSchema parent v c = .ok i c' →
      c'.graph.Embodies parent i v ∧
      (∀ j, c.graph.size ≤ j.index → (c'.graph.node j).visited = false) ∧
      ∀ j, j.index < c.graph.size → c'.graph.node j = c.graph.node j) ∧
    (¬v.Grammatical →
      ∃ fault, fromSchema parent v c = .error fault c ∧ fault.category = .schemaShape) := by
  have hsettled := Schema.settled_of_regular v hregular (c.graph.owner parent)
  refine ⟨⟨fun hgrammatical => ?_, fun ⟨i, c', hrun⟩ => ?_⟩, fun i c' hrun => ?_,
    fun hungrammatical => ?_⟩
  · obtain ⟨-, s, hread⟩ | ⟨hungrammatical, -⟩ := hsettled
    · exact ⟨_, _, fromSchema_of_read_eq_ok hread⟩
    · exact absurd hgrammatical hungrammatical
  · obtain ⟨hgrammatical, -⟩ | ⟨-, fault, hread, -⟩ := hsettled
    · exact hgrammatical
    · rw [fromSchema_of_read_eq_error hread] at hrun
      cases hrun
  · obtain ⟨-, s, hread⟩ | ⟨-, fault, hread, -⟩ := hsettled
    · rw [fromSchema_of_read_eq_ok hread] at hrun
      cases hrun
      have hplanted := (Graph.planted_plant parent c.graph s).1
      exact ⟨Graph.embodies_plant _ s _ _ hread hregular hproper fun _ _ _ => rfl,
        fun j hj => (hplanted.loose j hj).unvisited, hplanted.node_eq⟩
    · rw [fromSchema_of_read_eq_error hread] at hrun
      cases hrun
  · obtain ⟨hgrammatical, -⟩ | ⟨-, fault, hread, hfault⟩ := hsettled
    · exact absurd hgrammatical hungrammatical
    · exact ⟨fault, fromSchema_of_read_eq_error hread, hfault⟩

/-- An object with a text that may be null, and with a reference. -/
def petDeclaration : Json :=
  .obj [("type", .str "object"), ("required", .arr [.str "owner"]),
    ("properties", .obj
      [("name", .obj [("type", .arr [.str "string", .str "null"]), ("default", .str "Rex")]),
        ("owner", .obj [("$ref", .str "#/components/schemas/Owner")])])]

theorem proper_petDeclaration : petDeclaration.Proper := by
  have htypes : (Json.arr [.str "string", .str "null"]).Proper := by
    refine .arr fun v hv => ?_
    rcases List.mem_cons.1 hv with rfl | hv
    · exact proper_str _
    · exact List.mem_singleton.1 hv ▸ proper_str _
  have hrequired : (Json.arr [.str "owner"]).Proper :=
    .arr fun v hv => List.mem_singleton.1 hv ▸ proper_str _
  simp [petDeclaration, proper_obj_iff, proper_str, htypes, hrequired, Distinct, keys]

theorem regular_petDeclaration : petDeclaration.Regular := by
  have hname : (Json.obj [("type", .arr [.str "string", .str "null"]), ("default", .str "Rex")]).Regular :=
    regular_obj ⟨.inr (.inr ⟨["string", "null"], rfl⟩), .inl rfl, .inl rfl⟩ nofun nofun
  have howner : (Json.obj [("$ref", .str "#/components/schemas/Owner")]).Regular :=
    regular_obj ⟨.inl rfl, .inl rfl, .inl rfl⟩ nofun nofun
  refine regular_obj ⟨.inr (.inl ⟨"object", rfl⟩), .inr ⟨["owner"], rfl⟩, .inr ⟨_, rfl⟩⟩ nofun
    fun e he => ?_
  rcases List.mem_cons.1 he with rfl | he
  · exact hname
  · rw [List.mem_singleton.1 he]
    exact howner

/-- A declaration that is built, and a value that is refused. -/
theorem fromSchema_exactly_petDeclaration :
    (petDeclaration.Grammatical ∧ ∃ i c', fromSchema none petDeclaration {} = .ok i c' ∧
      c'.graph.Embodies none i petDeclaration) ∧
    ∃ fault, fromSchema none (.obj [("anyOf", .arr [])]) {} = .error fault {} ∧
      fault.category = .schemaShape := by
  obtain ⟨hiff, hbuilt, -⟩ :=
    fromSchema_exactly petDeclaration proper_petDeclaration regular_petDeclaration none {}
  have hrun : fromSchema none petDeclaration {} = .ok ⟨0⟩ _ :=
    eq_ok_of_toOption_outcome (by decide +kernel)
  refine ⟨⟨hiff.2 ⟨_, _, hrun⟩, _, _, hrun, (hbuilt _ _ hrun).1⟩, ?_⟩
  obtain ⟨-, -, hrefused⟩ := fromSchema_exactly (.obj [("anyOf", .arr [])])
    (.obj (List.pairwise_singleton _ _) fun e he => List.mem_singleton.1 he ▸ .arr nofun)
    (regular_obj ⟨.inl rfl, .inl rfl, .inl rfl⟩ nofun nofun) none {}
  refine hrefused fun hgrammatical => ?_
  cases hgrammatical with
  | closed closed => rcases closed with h | h | h <;> cases h
  | array own | object own | free own | primitive _ own => exact own (.inl rfl)

end Build

end ApiGraph
