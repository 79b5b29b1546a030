import ApiGraph.Proofs.Depicting.Outlines
import ApiGraph.Proofs.Depicting.Runs
import ApiGraph.Proofs.Depicting.Shuffling

/-!
# The order of resolution

In a layered document it does not matter which references are resolved first, or where a declaration is
met: what is stored under a reference has the same outline after all successful sequences of calls.

* `Document.layered_of_references` — it is enough to look at the references of a document;
* `Visit.Succeeds` — all calls of a sequence succeed;
* `Visit.exact_resolveEach` — after such calls nothing is owed, and the graph is faithful;
* `Visit.outline_resolveEach` — two runs have stored the same.
-/

namespace ApiGraph

open OrderedMap Context

/-! ## Layered documents -/

namespace Document

variable {d : Document} {s s' : Schema}

/-- A declaration refers to references of the document only. -/
theorem Declares.low {ref : Json} (h : d.Declares ref s) : ∃ k, s.Low d.raw.references k := by
  obtain ⟨members, hlookup, hdeclares⟩ := h
  exact ⟨_, Schema.low_read "" _ (within_of_lookupValue d.raw.within_self hlookup) (hdeclares.read_eq "")⟩

theorem Leads.low (h : d.Leads s s') (hs : ∃ k, s.Low d.raw.references k) :
    ∃ k, s'.Low d.raw.references k := by
  obtain ⟨k, hs⟩ := hs
  cases h with
  | items _ =>
    obtain ⟨m, -, hitems⟩ := hs
    exact ⟨m, hitems⟩
  | @property properties p hmem =>
    obtain ⟨m, -, hproperties⟩ := hs
    induction properties with
    | nil => cases hmem
    | cons first rest ih =>
      obtain ⟨⟨m', -, hfirst⟩, hrest⟩ := hproperties
      rcases List.mem_cons.1 hmem with rfl | hmem
      · exact ⟨m', hfirst⟩
      · exact ih hmem hrest
  | @member kind parts v elements _ helements hmem hdeclares =>
    obtain ⟨m, -, hparts⟩ := hs
    obtain ⟨m', -, hwithin⟩ := Json.within_element hparts helements
    have hobject : v.isObject = true := by
      obtain ⟨owner, hread⟩ := hdeclares
      cases v <;> first | rfl | cases hread
    exact ⟨m', Schema.low_read "" v (hwithin v hmem hobject) (hdeclares.read_eq "")⟩
  | target hdeclares => exact hdeclares.low

/-- What holds of a declaration and of all that is led to holds of what is reached. -/
theorem Reaches.of_closed {P : Schema → Prop} (h : d.Reaches s s') (hs : P s)
    (hclosed : ∀ s s', P s → d.Leads s s' → P s') : P s' := by
  induction h with
  | refl => exact hs
  | tail _ hlead ih => exact hclosed _ _ ih hlead

/-- A member of a composition that is reached from a reference refers to a reference of the document. -/
theorem mem_references_of_reaches {ref ref' parts v : Json} {elements : List Json}
    {kind : Composition} (hreaches : d.Reaches (.ref ref) (.composed kind parts))
    (helements : parts.elements = .ok elements) (hv : v ∈ elements)
    (hdeclares : v.Declares (.ref ref')) : ref' ∈ d.raw.references := by
  have hparts : ∃ k, (Schema.composed kind parts).Low d.raw.references k := by
    rcases Relation.ReflTransGen.cases_head hreaches with he | ⟨s, hlead, hrest⟩
    · cases he
    · refine Reaches.of_closed hrest ?_ fun _ _ hs hlead => hlead.low hs
      cases hlead with
      | target hdeclares => exact hdeclares.low
  obtain ⟨k, -, hmem⟩ := (Leads.member helements hv hdeclares).low hparts
  exact hmem

/-- A document is layered if the references that are written in it keep to the layers. -/
theorem layered_of_references (h : ∀ ref ∈ d.raw.references, ∀ parts elements v,
    parts.elements = .ok elements → v ∈ elements → v.Declares (.ref ref) →
      ¬d.Reaches (.ref ref) (.composed .allOf parts)) : d.Layered :=
  fun parts elements v ref helements hv hdeclares hreaches =>
    h ref (mem_references_of_reaches hreaches helements hv hdeclares) parts elements v helements hv
      hdeclares hreaches

end Document

/-! ## Faithful graphs -/

/-- A graph that is faithful to a document is faithful to one that keeps the declarations. -/
theorem Context.Faithful.mono {d d' : Document} {c : Context} (hkeeps : d.Keeps d') (h : c.Faithful d) :
    c.Faithful d' := by
  refine ⟨h.oracle, fun ref i hi => ?_, fun i hi => ?_⟩
  · obtain ⟨s, hdeclares, hdepicts⟩ := h.stored ref i hi
    exact ⟨s, hkeeps ref s hdeclares, hdepicts⟩
  · have hdrawn := h.drawn i hi
    refine ⟨hdrawn.bare, fun kind parts hbody => ?_, hdrawn.merged, hdrawn.union, hdrawn.shapes,
      hdrawn.choice, hdrawn.owns⟩
    obtain ⟨m, hbrings, haligned⟩ := hdrawn.composed kind parts hbody
    exact ⟨m, hbrings.mono hkeeps, haligned⟩

/-! ## Sequences of calls -/

namespace Visit

variable {d d' : Document} {c : Context} {i : NodeId}

/-- All calls of a sequence succeed. -/
def Succeeds (d : Document) (c : Context) (calls : List (Option NodeId × Json)) : Prop :=
  ∀ before owner ref rest, calls = before ++ (owner, ref) :: rest →
    ∃ i, outcome (resolveRef d owner ref) (resolveEach d c before) = .ok i

/-- When all calls have succeeded, nothing is owed, and the graph is faithful to the document. -/
theorem exact_resolveEach {A : NodeId → Prop} (hd : d.Layered) (h : c.AtRest A d none)
    (hfaithful : c.Faithful d) {calls : List (Option NodeId × Json)} (hok : Succeeds d c calls) :
    (resolveEach d c calls).Exact A d := by
  induction calls generalizing c with
  | nil => exact ⟨h.whole, hfaithful⟩
  | cons call rest ih =>
    obtain ⟨owner, ref⟩ := call
    obtain ⟨i, hi⟩ := hok [] owner ref rest rfl
    have hrun := eq_ok_of_outcome hi
    refine ih (h.resolve hrun) (h.faithful_resolve hfaithful hd hrun) ?_
    intro before owner' ref' rest' he
    exact hok ((owner, ref) :: before) owner' ref' rest' (by rw [he]; rfl)

/-- Under an oracle that agrees to everything, references of a layered document are resolved one after
the other, twice: other references in another order, in a document whose members may be in another order
as well. If all calls succeed, then what both runs have stored under a reference is of one kind, has the
same properties in the same order, and has the same outline. -/
theorem outline_resolveEach (d d' : Document) (hd : d.Layered) (hshuffled : d.raw.Shuffled d'.raw)
    (calls calls' : List (Option NodeId × Json))
    (hok : Succeeds d (Conversion.start Oracle.always) calls)
    (hok' : Succeeds d' (Conversion.start Oracle.always) calls') (ref : Json) (i i' : NodeId)
    (hi : (resolveEach d (Conversion.start Oracle.always) calls).stored? ref = some i)
    (hi' : (resolveEach d' (Conversion.start Oracle.always) calls').stored? ref = some i') :
    let n := (resolveEach d (Conversion.start Oracle.always) calls).graph.node i
    let n' := (resolveEach d' (Conversion.start Oracle.always) calls').graph.node i'
    n.body.kindName = n'.body.kindName ∧ keys n.props = keys n'.props ∧
      ∀ depth, (resolveEach d (Conversion.start Oracle.always) calls).graph.outline depth i =
        (resolveEach d' (Conversion.start Oracle.always) calls').graph.outline depth i' := by
  have hkeeps := Document.keeps_of_shuffled hshuffled.symm
  have h := exact_resolveEach hd (Conversion.atRest_start d _) (faithful_start d Oracle.obliging_always)
    hok
  have hrun' := exact_resolveEach (hd.mono hkeeps) (Conversion.atRest_start d' _)
    (faithful_start d' Oracle.obliging_always) hok'
  have h' : Context.Exact _ d _ := ⟨hrun'.whole, hrun'.faithful.mono hkeeps⟩
  have hpaired := h.paired h' hi hi'
  have hmatching := h.matching h' hpaired
  refine ⟨?_, hmatching.props.keys_eq, h.outline_eq h' hpaired⟩
  rw [← Body.kindName_isolated, hmatching.body, Body.kindName_isolated]

/-! ## Pets and other animals -/

/-- The declaration of an animal. -/
def animal : Json :=
  .obj [("type", .str "object"), ("properties", .obj [
    ("name", .obj [("type", .str "string"), ("default", .str "Rex")])])]

/-- The members of the composition that a pet is. -/
def petParts : Json :=
  .arr [.obj [("$ref", .str "#/components/schemas/Animal")],
    .obj [("type", .str "object"), ("properties", .obj [
      ("friend", .obj [("$ref", .str "#/components/schemas/Pet")])])]]

/-- A document with some named schemas. -/
def naming (schemas : Json.Members) : Document :=
  ⟨.obj [("components", .obj [("schemas", .obj schemas)])]⟩

/-- A pet is an animal with a friend. -/
def animalsAndPets : Document :=
  naming [("Animal", animal), ("Pet", .obj [("allOf", petParts)])]

/-- The same declarations in another order. -/
def petsAndAnimals : Document :=
  naming [("Pet", .obj [("allOf", petParts)]), ("Animal", animal)]

theorem shuffled_animalsAndPets : animalsAndPets.raw.Shuffled petsAndAnimals.raw := by
  refine .member [] [] (by decide) (.member [] [] (by decide) (.members ?_ (.swap _ _ [])))
  simp [Distinct, keys]

/-- What an animal leads to. -/
inductive AnimalPart : Schema → Prop
  | ref : AnimalPart (.ref (.str "#/components/schemas/Animal"))
  | object : AnimalPart (.object [⟨"name", false,
      .obj [("type", .str "string"), ("default", .str "Rex")], .scalar (some .string)⟩])
  | name : AnimalPart (.scalar (some .string))

/-- What a pet leads to. -/
inductive PetPart : Schema → Prop
  | ref : PetPart (.ref (.str "#/components/schemas/Pet"))
  | composed : PetPart (.composed .allOf petParts)
  | object : PetPart (.object [⟨"friend", false, .obj [("$ref", .str "#/components/schemas/Pet")],
      .ref (.str "#/components/schemas/Pet")⟩])
  | animal {s : Schema} (part : AnimalPart s) : PetPart s

/-- A document that refers to animals and pets only, and declares them. -/
structure OfPets (d : Document) : Prop where
  references : ∀ ref ∈ d.raw.references,
    ref = .str "#/components/schemas/Animal" ∨ ref = .str "#/components/schemas/Pet"
  animal : d.Declares (.str "#/components/schemas/Animal") (.object [⟨"name", false,
    .obj [("type", .str "string"), ("default", .str "Rex")], .scalar (some .string)⟩])
  pet : d.Declares (.str "#/components/schemas/Pet") (.composed .allOf petParts)

theorem AnimalPart.leads {s s' : Schema} (hs : AnimalPart s) (hd : OfPets d) (h : d.Leads s s') :
    AnimalPart s' := by
  cases hs with
  | ref =>
    cases h with
    | target hdeclares =>
      cases hdeclares.unique hd.animal
      exact .object
  | object =>
    cases h with
    | property hmem =>
      rw [List.mem_singleton.1 hmem]
      exact .name
  | name => cases h

theorem PetPart.leads {s s' : Schema} (hs : PetPart s) (hd : OfPets d) (h : d.Leads s s') :
    PetPart s' := by
  cases hs with
  | ref =>
    cases h with
    | target hdeclares =>
      cases hdeclares.unique hd.pet
      exact .composed
  | composed =>
    cases h with
    | member helements hmem hdeclares =>
      cases helements
      rcases List.mem_cons.1 hmem with rfl | hmem
      · cases hdeclares.unique ⟨"", rfl⟩
        exact .animal .ref
      · cases List.mem_singleton.1 hmem
        cases hdeclares.unique ⟨"", rfl⟩
        exact .object
  | object =>
    cases h with
    | property hmem =>
      rw [List.mem_singleton.1 hmem]
      exact .ref
  | animal hpart => exact .animal (hpart.leads hd h)

/-- Such a document is layered. -/
theorem OfPets.layered (hd : OfPets d) : d.Layered := by
  refine Document.layered_of_references fun ref href parts elements v helements hv hdeclares hreaches => ?_
  rcases hd.references ref href with rfl | rfl
  · -- an animal leads to no composition
    cases hreaches.of_closed AnimalPart.ref fun _ _ hs => hs.leads hd
  · -- the only composition that a pet leads to is its own, in which no member refers to a pet
    cases hreaches.of_closed PetPart.ref fun _ _ hs => hs.leads hd with
    | composed =>
      have hother : (Json.str "#/components/schemas/Pet") ≠ .str "#/components/schemas/Animal" := by simp
      cases helements
      rcases List.mem_cons.1 hv with rfl | hv
      · exact hother (Schema.ref.inj (hdeclares.unique ⟨"", rfl⟩))
      · cases List.mem_singleton.1 hv
        cases hdeclares.unique ⟨"", rfl⟩
    | animal hpart => cases hpart

theorem layered_animalsAndPets : animalsAndPets.Layered := by
  refine OfPets.layered ⟨fun ref href => ?_, ⟨_, rfl, "", rfl⟩, ⟨_, rfl, "", rfl⟩⟩
  have hrefs : animalsAndPets.raw.references =
      [.str "#/components/schemas/Animal", .str "#/components/schemas/Pet"] := rfl
  simpa [hrefs] using href

/-- A pet has the same fields, whether it is met after an animal or before. -/
theorem outline_resolveEach_pets :
    let c := resolveEach animalsAndPets (Conversion.start Oracle.always)
      [(none, .str "#/components/schemas/Animal"), (none, .str "#/components/schemas/Pet")]
    let c' := resolveEach petsAndAnimals (Conversion.start Oracle.always)
      [(none, .str "#/components/schemas/Pet")]
    c.stored? (.str "#/components/schemas/Pet") = some ⟨3⟩ ∧
      c'.stored? (.str "#/components/schemas/Pet") = some ⟨0⟩ ∧
      (keys (c.graph.node ⟨3⟩).props).map Key.value = [.text "name", .text "friend"] ∧
      keys (c.graph.node ⟨3⟩).props = keys (c'.graph.node ⟨0⟩).props ∧
      ∀ depth, c.graph.outline depth ⟨3⟩ = c'.graph.outline depth ⟨0⟩ := by
  have hsome : ∀ m : Attempt NodeId, m.toOption.isSome → ∃ i, m = .ok i := by
    rintro (fault | i) h
    · cases h
    · exact ⟨i, rfl⟩
  have hok : Succeeds animalsAndPets (Conversion.start Oracle.always)
      [(none, .str "#/components/schemas/Animal"), (none, .str "#/components/schemas/Pet")] := by
    rintro (_ | ⟨first, _ | ⟨second, before⟩⟩) owner ref rest he
    · cases he
      exact hsome _ (by decide +kernel)
    · cases he
      exact hsome _ (by decide +kernel)
    · simp at he
  have hok' : Succeeds petsAndAnimals (Conversion.start Oracle.always)
      [(none, .str "#/components/schemas/Pet")] := by
    rintro (_ | ⟨first, before⟩) owner ref rest he
    · cases he
      exact hsome _ (by decide +kernel)
    · simp at he
  have hstored : (resolveEach animalsAndPets (Conversion.start Oracle.always)
      [(none, .str "#/components/schemas/Animal"), (none, .str "#/components/schemas/Pet")]).stored?
        (.str "#/components/schemas/Pet") = some ⟨3⟩ := by decide +kernel
  have hstored' : (resolveEach petsAndAnimals (Conversion.start Oracle.always)
      [(none, .str "#/components/schemas/Pet")]).stored? (.str "#/components/schemas/Pet") =
        some ⟨0⟩ := by decide +kernel
  obtain ⟨-, hkeys, houtline⟩ := outline_resolveEach animalsAndPets petsAndAnimals
    layered_animalsAndPets shuffled_animalsAndPets _ _ hok hok' _ _ _ hstored hstored'
  exact ⟨hstored, hstored', by decide +kernel, hkeys, houtline⟩

end Visit

end ApiGraph
