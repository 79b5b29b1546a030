import ApiGraph.Conversion
import ApiGraph.Proofs.Visiting.Termination

/-!
# Resolving one reference after the other

Whatever references are resolved, in whatever order, each of them is looked up and built once.

* `Visit.covers_depthBound` — the bound of a visit is enough for every node and every declaration;
* `Visit.resolveEach` — the state after some references were resolved, each however it went;
* `Visit.resolveEach_once` — every call comes to an end, every node is gone into at most once, and
  what is stored stays where it is.
-/

namespace ApiGraph

open OrderedMap Context

/-- A document in which no reference leads to a declaration that is a reference has no ring. -/
theorem Document.ringless_of_references {d : Document}
    (h : ∀ ref ∈ d.raw.references, ∀ members, d.lookupValue ref = .ok members →
      get? "$ref" members = none) : d.Ringless := by
  intro ref hring
  have hmem : ∀ ref ref', d.Alias ref ref' → ref' ∈ d.raw.references := by
    rintro ref ref' ⟨members, hlookup, hget⟩
    have hw := within_of_lookupValue d.raw.within_self hlookup
    have hw' : (Json.obj members).Within d.raw.references (d.raw.depth + 1) :=
      ⟨hw.depth.trans (Nat.le_succ _), hw.references⟩
    exact (Json.within_member (Json.mem_of_get? hget) hw').2 rfl
  have hlast : ref ∈ d.raw.references := by
    obtain ⟨ref', -, hlast⟩ := Relation.TransGen.tail'_iff.1 hring
    exact hmem ref' ref hlast
  obtain ⟨ref', ⟨members, hlookup, hget⟩, -⟩ := Relation.TransGen.head'_iff.1 hring
  rw [h ref hlast members hlookup] at hget
  cases hget

namespace Visit

/-! ## The bound of a visit -/

/-- The references of a node, and those in what it keeps to read later. -/
def nodeReferences (n : Node) : List Json := (n.body.link?.map Link.ref).toList ++ (unread n).references

/-- All references that there can be to follow. -/
def referencesIn (d : Document) (g : Graph) : List Json :=
  d.raw.references ++ g.nodes.toList.flatMap nodeReferences

theorem length_nodeReferences (n : Node) :
    (nodeReferences n).length = ownReferences n + (unread n).count "$ref" := by
  rw [nodeReferences, List.length_append, Json.length_references, ownReferences]
  rcases n.body with _ | _ | _ | _ | _ | _ | _ | ⟨_, _, _ | _⟩ | _ <;> rfl

theorem length_referencesIn (d : Document) (g : Graph) :
    (referencesIn d g).length = referenceCount d g := by
  rw [referencesIn, referenceCount, ← Array.foldl_toList, List.length_append, Json.length_references]
  generalize d.raw.count "$ref" = start
  induction g.nodes.toList generalizing start with
  | nil => rfl
  | cons n rest ih =>
    rw [List.flatMap_cons, List.length_append, List.foldl_cons, ← ih, length_nodeReferences]
    omega

variable {d : Document} {q : Option NodeId} {c c' : Context} {owner : Option NodeId} {ref : Json}
  {g : Graph} {i : NodeId} {top k : Nat}

theorem depth_le_declarationDepth (d : Document) (g : Graph) : d.raw.depth ≤ declarationDepth d g ∧
    ∀ n ∈ g.nodes.toList, (unread n).depth ≤ declarationDepth d g := by
  rw [declarationDepth, ← Array.foldl_toList]
  generalize d.raw.depth = start
  induction g.nodes.toList generalizing start with
  | nil => exact ⟨le_rfl, (by simp)⟩
  | cons n rest ih =>
    obtain ⟨hstart, hrest⟩ := ih (max start (unread n).depth)
    exact ⟨(Nat.le_max_left _ _).trans hstart,
      List.forall_mem_cons.2 ⟨(Nat.le_max_right _ _).trans hstart, hrest⟩⟩

theorem within_raw (d : Document) (g : Graph) :
    d.raw.Within (referencesIn d g) (declarationDepth d g) :=
  ⟨(depth_le_declarationDepth d g).1, List.subset_append_left _ _⟩

/-- What a node keeps to read later is no deeper than all that is to be read. -/
theorem shallow_of_lt (hi : i.index < g.size) (hk : declarationDepth d g ≤ k) :
    (g.node i).Shallow (referencesIn d g) k := by
  have hmem : g.node i ∈ g.nodes.toList := by
    have hlt : i.index < g.nodes.size := hi
    rw [Graph.node, Array.getD, dif_pos hlt]
    exact Array.mem_toList_iff.2 (Array.getElem_mem hlt)
  have hrefs : nodeReferences (g.node i) ⊆ referencesIn d g :=
    List.subset_append_of_subset_right _ fun ref href => List.mem_flatMap.2 ⟨_, hmem, href⟩
  have hunread : (unread (g.node i)).Within (referencesIn d g) (declarationDepth d g) :=
    ⟨(depth_le_declarationDepth d g).2 _ hmem, List.Subset.trans (List.subset_append_right _ _) hrefs⟩
  refine ⟨fun link hlink => hrefs ?_, fun kind parts hbody => ?_, fun shapes hbody e he _ => ?_⟩
  · rw [nodeReferences, hlink]
    exact List.mem_append_left _ (List.mem_singleton_self _)
  · rw [unread, hbody] at hunread
    exact ⟨hunread.depth.trans hk, hunread.references⟩
  · rw [unread, hbody] at hunread
    exact Json.within_item he ⟨hunread.depth.trans (hk.trans (Nat.le_succ k)), hunread.references⟩

/-- A sprout is no deeper than it has places, besides what is to be read. -/
theorem low_of_sprout (h : Sprout g i top) :
    Low (referencesIn d g) g (declarationDepth d g + (top - i.index)) i := by
  induction h with
  | @intro i top ends inside below_size bud order apart sprouts ih =>
    obtain ⟨m, hm⟩ : ∃ m, top - i.index = m + 1 := ⟨top - i.index - 1, by omega⟩
    rw [hm]
    refine ⟨shallow_of_lt (inside.trans_le below_size) (Nat.le_add_right _ m), fun j hj => ?_⟩
    obtain ⟨hlt, hle⟩ := order j hj
    have hdeep : declarationDepth d g + (ends j - j.index) ≤ declarationDepth d g + m := by omega
    exact (ih j hj).mono hdeep

/-- The bound of a visit is enough for every sprout of a graph, and for the declarations of all
references that are left. -/
theorem covers_depthBound (d : Document) (c : Context) (g : Graph) :
    Covers (referencesIn d g) (declarationDepth d g) c (declarationDepth d g + g.size)
      (depthBound d g) := by
  have hunstored : c.unstored (referencesIn d g) ≤ referenceCount d g := by
    rw [← length_referencesIn]
    exact List.countP_le_length
  have hmul : (c.unstored (referencesIn d g) + 1) * declarationDepth d g ≤
      (2 * declarationDepth d g + 4) * (referenceCount d g + 2) := by
    rw [Nat.mul_comm]
    exact Nat.mul_le_mul (by omega) (by omega)
  rw [Nat.succ_mul] at hmul
  rw [Covers, depthBound]
  omega

theorem works_resolveRef (hs : c.Sound d q) (owner : Option NodeId) (ref : Json) :
    Works d q c.Old (resolveRef d owner ref) c fun i c' => c'.stored? ref = some i :=
  works_get_bind (works_resolve (visits_visitWithin _) hs owner ref)

theorem ends_resolveRef (hring : d.Ringless) (hs : c.Sound d q) (owner : Option NodeId)
    (ref : Json) : Ends (resolveRef d owner ref) c := by
  have hd := within_raw d c.graph
  refine ends_get_bind (ends_resolve hd (terminates_visitWithin hd hring _) hs owner ref ?_)
  exact fun _ c' _ => (covers_depthBound d c' c.graph).mono (Nat.le_add_right _ _)

/-! ## Sequences of calls -/

/-- The state after the references of some nodes were resolved, one after the other. A call that
fails does not keep the next one from being made. -/
def resolveEach (d : Document) (c : Context) (calls : List (Option NodeId × Json)) : Context :=
  calls.foldl (fun c call => after (resolveRef d call.1 call.2) c) c

theorem resolveEach_append (c : Context) (before rest : List (Option NodeId × Json)) :
    resolveEach d c (before ++ rest) = resolveEach d (resolveEach d c before) rest :=
  List.foldl_append

theorem sound_resolveEach (hs : c.Sound d q) (calls : List (Option NodeId × Json)) :
    (resolveEach d c calls).Sound d q := by
  induction calls generalizing c with
  | nil => exact hs
  | cons call rest ih => exact ih (works_resolveRef hs call.1 call.2).sound

theorem grows_resolveEach (hs : c.Sound d q) (calls : List (Option NodeId × Json)) :
    c.Grows c.Old (resolveEach d c calls) := by
  induction calls generalizing c with
  | nil => exact (Still.refl c).grows
  | cons call rest ih =>
    have hcall := works_resolveRef hs call.1 call.2
    refine hcall.grows.trans ((ih hcall.sound).mono fun j hj => ?_)
    exact Nat.lt_of_lt_of_le hj hcall.grows.size_le

theorem pursued_resolveEach (hs : c.Sound d q) (hp : c.Pursued)
    (calls : List (Option NodeId × Json))
    (hok : ∀ before owner ref rest, calls = before ++ (owner, ref) :: rest →
      ∃ i, outcome (resolveRef d owner ref) (resolveEach d c before) = .ok i) :
    (resolveEach d c calls).Pursued := by
  induction calls generalizing c with
  | nil => exact hp
  | cons call rest ih =>
    have hcall := works_resolveRef hs call.1 call.2
    obtain ⟨i, hi⟩ := hok [] call.1 call.2 rest rfl
    refine ih hcall.sound (hcall.pursued i hi hp) fun before owner ref rest' he => ?_
    exact hok (call :: before) owner ref rest' (by rw [he]; rfl)

theorem sound_start (d : Document) (oracle : Oracle) : (Conversion.start oracle).Sound d none where
  types_eq := rfl
  distinct := List.Pairwise.nil
  built := nofun
  linked i link t hlink _ := by
    rw [Graph.node_of_size_le (Nat.zero_le _)] at hlink
    cases hlink
  named i _ _ hname := by
    rw [Graph.node_of_size_le (Nat.zero_le _)] at hname
    cases hname
  entered_lt := (by rintro _ ⟨⟩)
  once := List.Pairwise.nil
  handmade := (by simp)

theorem pursued_start (oracle : Oracle) : (Conversion.start oracle).Pursued := ⟨nofun, rfl⟩

/-- Nodes were built for different references. -/
theorem nodup_builds {t : Transcript} (h : t.Once) : (t.builds.map Prod.fst).Nodup := by
  rw [List.Nodup, List.pairwise_map, Transcript.builds, List.pairwise_filterMap, List.pairwise_reverse]
  refine h.imp fun {later earlier} hone => ?_
  rintro ⟨ref, i⟩ hearlier ⟨ref', j⟩ hlater rfl
  cases earlier <;> simp [Event.built?] at hearlier
  cases later <;> simp [Event.built?] at hlater
  obtain ⟨rfl, rfl⟩ := hearlier
  obtain ⟨rfl, rfl⟩ := hlater
  exact (hone _ _ rfl).2 _ rfl

/-- References are resolved one after the other, in any document without rings. Every call comes to an
end. No node is gone into twice. What is stored stays where it is, and is neither looked up nor built
again. And if all calls succeed, every reference that was met was looked up and built once. -/
theorem resolveEach_once (d : Document) (hring : d.Ringless) (oracle : Oracle)
    (calls : List (Option NodeId × Json)) :
    (∀ before owner ref rest, calls = before ++ (owner, ref) :: rest →
      outcome (resolveRef d owner ref) (resolveEach d (Conversion.start oracle) before) ≠
        .error .endless) ∧
    (resolveEach d (Conversion.start oracle) calls).transcript.enteredNodes.Nodup ∧
    (∀ before rest, calls = before ++ rest →
      (resolveEach d (Conversion.start oracle) before).types <+:
        (resolveEach d (Conversion.start oracle) calls).types) ∧
    (resolveEach d (Conversion.start oracle) calls).types.map (Prod.map Key.toJson id) =
      (resolveEach d (Conversion.start oracle) calls).transcript.builds.map (Prod.map id some) ∧
    (resolveEach d (Conversion.start oracle) calls).transcript.Once ∧
    ((∀ before owner ref rest, calls = before ++ (owner, ref) :: rest →
        ∃ i, outcome (resolveRef d owner ref) (resolveEach d (Conversion.start oracle) before) =
          .ok i) →
      (resolveEach d (Conversion.start oracle) calls).transcript.lookups =
        (resolveEach d (Conversion.start oracle) calls).transcript.builds.map Prod.fst ∧
      (resolveEach d (Conversion.start oracle) calls).transcript.lookups.Nodup ∧
      ∀ ref ∈ (resolveEach d (Conversion.start oracle) calls).transcript.metReferences,
        ref ∈ (resolveEach d (Conversion.start oracle) calls).transcript.lookups) := by
  have hstart := sound_start d oracle
  have hsound := sound_resolveEach hstart calls
  refine ⟨fun before owner ref rest _ => ?_, (grows_resolveEach hstart calls).nodup List.nodup_nil, fun before rest he => ?_,
    hsound.types_eq, hsound.once, fun hok => ?_⟩
  · exact ends_resolveRef hring (sound_resolveEach hstart before) owner ref
  · rw [he, resolveEach_append]
    exact (grows_resolveEach (sound_resolveEach hstart before) rest).types
  · have hpursued := pursued_resolveEach hstart (pursued_start oracle) calls hok
    refine ⟨hpursued.lookups, ?_, fun ref href => ?_⟩
    · rw [hpursued.lookups]
      exact nodup_builds hsound.once
    · obtain ⟨i, hi⟩ := hpursued.stored ref href
      rw [hpursued.lookups]
      exact List.mem_map.2 ⟨(ref, i), hsound.stored?_eq_some_iff.1 hi, rfl⟩

/-- A document with two declarations that refer to each other. -/
def ownersAndPets : Document :=
  ⟨.obj [("components", .obj [("schemas", .obj [
    ("Owner", .obj [("type", .str "object"), ("properties", .obj [
      ("pet", .obj [("$ref", .str "#/components/schemas/Pet")])])]),
    ("Pet", .obj [("type", .str "object"), ("properties", .obj [
      ("owner", .obj [("$ref", .str "#/components/schemas/Owner")])])])])])]⟩

theorem ringless_ownersAndPets : ownersAndPets.Ringless := by
  refine Document.ringless_of_references fun ref href members hlookup => ?_
  have hrefs : ownersAndPets.raw.references =
      [.str "#/components/schemas/Pet", .str "#/components/schemas/Owner"] := rfl
  have hplain : ∀ ref : String, ref ∈ ["#/components/schemas/Pet", "#/components/schemas/Owner"] →
      ((ownersAndPets.lookup ref).toOption.bind (get? "$ref")).isNone := by decide +kernel
  rw [hrefs] at href
  have hnone : ((ownersAndPets.lookupValue ref).toOption.bind (get? "$ref")).isNone := by
    rcases List.mem_cons.1 href with rfl | href
    · exact hplain _ List.mem_cons_self
    · rw [List.mem_singleton.1 href]
      exact hplain _ (List.mem_cons_of_mem _ List.mem_cons_self)
  rw [hlookup] at hnone
  exact Option.isNone_iff_eq_none.1 hnone

theorem resolveEach_once_ownersAndPets :
    let c := resolveEach ownersAndPets (Conversion.start Oracle.always)
      [(none, .str "#/components/schemas/Owner"), (none, .str "#/components/schemas/Pet")]
    c.transcript.metReferences.length = 4 ∧ c.transcript.lookups.length = 2 ∧
      c.transcript.lookups.Nodup ∧ ∀ ref ∈ c.transcript.metReferences, ref ∈ c.transcript.lookups := by
  have hall := resolveEach_once ownersAndPets ringless_ownersAndPets Oracle.always
    [(none, .str "#/components/schemas/Owner"), (none, .str "#/components/schemas/Pet")]
  refine ⟨by decide +kernel, by decide +kernel, (hall.2.2.2.2.2 ?_).2⟩
  have hsome : ∀ m : Attempt NodeId, m.toOption.isSome → ∃ i, m = .ok i := by
    rintro (fault | i) h
    · cases h
    · exact ⟨i, rfl⟩
  rintro (_ | ⟨first, _ | ⟨second, before⟩⟩) owner ref rest he
  · cases he
    exact hsome _ (by decide +kernel)
  · cases he
    exact hsome _ (by decide +kernel)
  · simp at he

end Visit

end ApiGraph
