import ApiGraph.Proofs.Depicting.Independence

/-!
# Compositions have what their members hold

A composition takes over the properties of its members while it is visited. In a layered document the
members are complete by then, so that in the end it has what they hold.

* `Conversion.exact_visitAll` — when everything was visited, the graph is faithful to the document;
* `Conversion.merged_visitAll` — the properties of compositions are those of their members.
-/

namespace ApiGraph

open OrderedMap Context

namespace Conversion

variable {A : NodeId → Prop} {d : Document} {q : Option NodeId} {config : Config} {c c' : Context}

theorem faithful_resolveEach (hd : d.Layered) {refs : List String} (h : c.AtRest A d q)
    (hfaithful : c.Faithful d) (hrun : (refs.forM fun ref => do
      let _ ← Visit.resolveRef d none (.str ref) : Run Unit) c = .ok () c') : c'.Faithful d := by
  induction refs generalizing c with
  | nil =>
    cases hrun
    exact hfaithful
  | cons ref rest ih =>
    obtain ⟨u, c₁, hone, hrest⟩ := bind_eq_ok_iff.1 hrun
    obtain ⟨t, c₂, hresolve, hone⟩ := bind_eq_ok_iff.1 hone
    cases hone
    exact ih (h.resolve hresolve) (h.faithful_resolve hfaithful hd hresolve) hrest

/-- When all schemas and all operations were visited, nothing is owed, and the graph is faithful to the
document. -/
theorem exact_visitAll (hd : d.Layered) {query : NodeId}
    (h : visitAll d config (start Oracle.always) = .ok query c) : ∃ A, c.Exact A d := by
  obtain ⟨refs, operations, c₁, c₂, hschemas, -, hbuild, hvisit⟩ := steps_of_visitAll h
  have hrest := atRest_resolveEach (atRest_start d Oracle.always) hschemas
  have hfaithful := faithful_resolveEach hd (atRest_start d _)
    (faithful_start d Oracle.obliging_always) hschemas
  obtain ⟨A, hrooted⟩ := rooted_buildQuery hrest hbuild
  have hfurnished := furnished_buildQuery hbuild
  have hfaithful₂ := hfurnished.faithful ((silent_buildQuery _ _).oracle_of_ok hbuild) hfaithful
  exact ⟨A, (hrooted.visit hvisit).1.whole, hrooted.rest.faithful_visit hfaithful₂ hd hrooted.budding
    hrooted.apart hrooted.plain (hfurnished.stocked.portrays fun _ _ _ => rfl) hvisit⟩

/-- Under an oracle that agrees to everything, all schemas and operations of a layered document were
visited. Every composition by `allOf` that was visited has got what its members hold, which are nodes of its
own that were visited as well: each name once, in the order of the members, and bound to the property of the
last member that holds it. -/
theorem merged_visitAll (d : Document) (hd : d.Layered) (config : Config) (query : NodeId) (c : Context)
    (h : visitAll d config (start Oracle.always) = .ok query c) (i : NodeId) (hi : c.Visited i)
    (members : Option Json) (hbody : (c.graph.node i).body = .composed .allOf members) :
    ∃ (parts : Json) (elements : List Json) (held : List (NodeId × OrderedMap Key NodeId)),
      members = some parts ∧ parts.elements = .ok elements ∧ c.graph.Gathered i elements held ∧
      keys (c.graph.node i).props = ((held.map Prod.snd).flatMap keys).eraseDups ∧
      ∀ key, get? key (c.graph.node i).props =
        (held.map Prod.snd).reverse.findSome? (get? key) := by
  obtain ⟨A, hexact⟩ := exact_visitAll hd h
  obtain ⟨parts, elements, held, hparts, helements, hgathered, hprops⟩ :=
    (hexact.faithful.drawn i hi).merged members hbody
  have hdistinct : ∀ m ∈ held.map Prod.snd, Distinct (keys m) := by
    have hboth := (List.forall₂_and_left held elements).1
      (hgathered.contributes.flip.imp fun e v he => ⟨he.distinct, he⟩)
    exact List.forall_mem_map.2 hboth.1
  refine ⟨parts, elements, held, hparts, helements, hgathered, ?_, fun key => ?_⟩
  · rw [hprops, keys_mergeAll]
  · rw [hprops, get?_mergeAll key hdistinct]

/-- A pet has the name of an animal and a friend of its own. -/
theorem merged_visitAll_pets :
    let c := after (visitAll Visit.animalsAndPets {}) (start Oracle.always)
    visitAll Visit.animalsAndPets {} (start Oracle.always) = .ok ⟨7⟩ c ∧
      (c.graph.node ⟨3⟩).body = .composed .allOf (some Visit.petParts) ∧
      (keys (c.graph.node ⟨3⟩).props).map Key.value = [.text "name", .text "friend"] ∧
      ∃ animal own,
        c.graph.Gathered ⟨3⟩ [.obj [("$ref", .str "#/components/schemas/Animal")],
          .obj [("type", .str "object"), ("properties", .obj [
            ("friend", .obj [("$ref", .str "#/components/schemas/Pet")])])]] [animal, own] ∧
        keys (c.graph.node ⟨3⟩).props = (keys animal.2 ++ keys own.2).eraseDups := by
  intro c
  have hrun : visitAll Visit.animalsAndPets {} (start Oracle.always) = .ok ⟨7⟩ c :=
    eq_ok_of_toOption_outcome (by decide +kernel)
  obtain ⟨A, hexact⟩ := exact_visitAll Visit.layered_animalsAndPets hrun
  have hbody : (c.graph.node ⟨3⟩).body = .composed .allOf (some Visit.petParts) := by
    obtain ⟨s, hdeclares, hdepicts⟩ :=
      hexact.faithful.stored (.str "#/components/schemas/Pet") ⟨3⟩ (by decide +kernel)
    cases hdeclares.unique ⟨_, rfl, "", rfl⟩
    rwa [Graph.Depicts] at hdepicts
  obtain ⟨parts, elements, held, hparts, helements, hgathered, hkeys, -⟩ :=
    merged_visitAll Visit.animalsAndPets Visit.layered_animalsAndPets {} ⟨7⟩ c hrun ⟨3⟩
      (by rw [Visited]; decide +kernel) _ hbody
  cases hparts
  cases helements
  obtain ⟨animal, own, rfl⟩ := List.length_eq_two.1 hgathered.contributes.length_eq.symm
  refine ⟨hrun, hbody, by decide +kernel, animal, own, hgathered, ?_⟩
  rwa [List.map_cons, List.map_singleton, List.flatMap_cons, List.flatMap_singleton] at hkeys

end Conversion

end ApiGraph
