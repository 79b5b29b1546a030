import ApiGraph.Proofs.Drafting.Apart

/-!
# Names that are given once

No two types among the definitions have the same name, as long as no two stored schemas have and none is
called like the query type.

* `Draft.Origin` — where the name of a written type comes from;
* `Draft.Apart.nodup_names` — types of different origin have different names;
* `Drafting.apart_definitions` — nothing is named or written twice in the definitions of a document;
* `Conversion.nodup_typeNames` — the names of all types of a document.
-/

namespace ApiGraph

open OrderedMap Context Drafting

namespace Draft

variable {config : Config} {d : Document} {query : NodeId} {c : Context} {D : Draft}

/-! ## Whole drafts -/

/-- Where the name of a type comes from: from a stored reference, for the node itself or for the shape of a
choice, or from the fields that lead to it, or from the configuration. -/
inductive Origin (config : Config) (c : Context) (query : NodeId) (D : Draft) (b : TypeBlock) : Prop where
  | stored {r : NodeId} (root : r ∈ c.roots) (name : b.name = .str (c.rootName r))
      (node : b.node = r ∧ c.graph.hasFields r = true ∨ variantOf c.graph r = .ok (some b.node))
  | inline {s : String} (name : b.name = .str s) (plain : ¬c.IsShape b.node)
      (given : get? b.node D.inlineNames = some (some s)) (free : s ∉ c.refNames ++ config.queryNames)
  | query {s : String} (name : b.name = .str s) (wanted : s ∈ config.queryNames) (node : b.node = query)

theorem Apart.origin (h : D.Apart config c query) (hc : c.Finished d query) {b : TypeBlock}
    (hb : b ∈ D.types) : D.Origin config c query b := by
  obtain ⟨hfields, ⟨s, hs⟩, ⟨hne, hcalls⟩ | ⟨hquery, hname⟩⟩ := h.titled b hb
  · cases hnull : (c.graph.node b.node).name.isNull with
    | false =>
      have hroot := hc.mem_roots hne hfields hnull
      have hown : D.Calls b.node (.str (c.rootName b.node)) :=
        .own (by rw [h.graph]; exact hnull) (by rw [h.graph]; exact (hc.root hroot).2.2.2)
      exact .stored hroot (hcalls.unique hown) (.inl ⟨rfl, hfields⟩)
    | true =>
      obtain ⟨s, hname, hgiven⟩ := hcalls.exists_given (by rw [h.graph]; exact hnull)
      obtain ⟨hanonymous, hfree⟩ := h.given _ _ hgiven
      by_cases hshape : c.IsShape b.node
      · obtain ⟨s', hs', r, hr, hvariant, hsimple⟩ := h.shapes _ hshape hanonymous
        have hsame : s = s' := Option.some.inj (Option.some.inj (hgiven.symm.trans hs'))
        have hroot : c.rootName r = s' :=
          Option.some.inj (Except.ok.inj ((hc.root hr).2.2.2.symm.trans hsimple))
        exact .stored hr (by rw [hname, hsame, hroot]) (.inr hvariant)
      · obtain ⟨s', hs', -, hfree⟩ := hfree hshape
        cases hs'
        exact .inline hname hshape hgiven hfree
  · refine .query hs ?_ hquery
    rw [Config.queryNames, ← hname, hs]
    exact List.mem_singleton_self s

/-- A stored node, or the shape of a stored choice, is the only one with its name. -/
theorem Apart.node_eq_of_name_eq (h : D.Apart config c query) (hc : c.Finished d query)
    (hnodup : c.refNames.Nodup) (hquery : ∀ s ∈ config.queryNames, s ∉ c.refNames) {b b' : TypeBlock}
    (hb : b ∈ D.types) (hb' : b' ∈ D.types) (hname : b.name = b'.name) : b.node = b'.node := by
  have hmem : ∀ r ∈ c.roots, c.rootName r ∈ c.refNames := by
    rw [hc.refNames_eq]
    exact fun r hr => List.mem_map_of_mem hr
  have hroot : ∀ r ∈ c.roots, ∀ r' ∈ c.roots, c.rootName r = c.rootName r' → r = r' := by
    rw [hc.refNames_eq] at hnodup
    exact fun r hr r' hr' => List.inj_on_of_nodup_map hnodup hr hr'
  have hplain : ∀ {r t}, c.graph.hasFields r = true → variantOf c.graph r ≠ .ok (some t) := by
    intro r t hfields hvariant
    cases (variantOf_of_hasFields hfields).symm.trans hvariant
  cases h.origin hc hb with
  | @stored r hr hs hnode =>
    cases h.origin hc hb' with
    | @stored r' hr' hs' hnode' =>
      obtain rfl := hroot r hr r' hr' (Json.str.inj (hs.symm.trans (hname.trans hs')))
      rcases hnode with ⟨hnode, hfields⟩ | hvariant <;> rcases hnode' with ⟨hnode', hfields'⟩ | hvariant'
      · exact hnode.trans hnode'.symm
      · exact absurd hvariant' (hplain hfields)
      · exact absurd hvariant (hplain hfields')
      · exact Option.some.inj (Except.ok.inj (hvariant.symm.trans hvariant'))
    | @inline s' hs' _ _ hfree =>
      rw [← Json.str.inj (hs.symm.trans (hname.trans hs'))] at hfree
      exact absurd (List.mem_append_left _ (hmem r hr)) hfree
    | @query s' hs' hwanted _ =>
      rw [← Json.str.inj (hs.symm.trans (hname.trans hs'))] at hwanted
      exact absurd (hmem r hr) (hquery _ hwanted)
  | @inline s hs hplain hgiven hfree =>
    cases h.origin hc hb' with
    | @stored r' hr' hs' _ =>
      rw [Json.str.inj (hs.symm.trans (hname.trans hs'))] at hfree
      exact absurd (List.mem_append_left _ (hmem r' hr')) hfree
    | @inline s' hs' hplain' hgiven' _ =>
      rw [← Json.str.inj (hs.symm.trans (hname.trans hs'))] at hgiven'
      exact h.unique _ _ s hplain hplain' hgiven hgiven'
    | @query s' hs' hwanted _ =>
      rw [← Json.str.inj (hs.symm.trans (hname.trans hs'))] at hwanted
      exact absurd (List.mem_append_right _ hwanted) hfree
  | @query s hs hwanted hnode =>
    cases h.origin hc hb' with
    | @stored r' hr' hs' _ =>
      rw [Json.str.inj (hs.symm.trans (hname.trans hs'))] at hwanted
      exact absurd (hmem r' hr') (hquery _ hwanted)
    | @inline s' hs' _ _ hfree =>
      rw [← Json.str.inj (hs.symm.trans (hname.trans hs'))] at hfree
      exact absurd (List.mem_append_right _ hwanted) hfree
    | query _ _ hnode' => exact hnode.trans hnode'.symm

theorem Apart.nodup_names (h : D.Apart config c query) (hc : c.Finished d query)
    (hnodup : c.refNames.Nodup) (hquery : ∀ s ∈ config.queryNames, s ∉ c.refNames) :
    (D.types.map TypeBlock.name).Nodup := by
  have honce := h.once
  refine honce.of_map.map_on fun b hb b' hb' hname => ?_
  exact List.inj_on_of_nodup_map honce hb hb' (h.node_eq_of_name_eq hc hnodup hquery hb hb' hname)

end Draft

/-! ## Names of a document -/

namespace Drafting

variable {config : Config} {d : Document} {query : NodeId} {c : Context} {D D' : Draft} {i : NodeId}
  {defs : Definitions}

theorem taken_of_nameVariant {named : Bool} (h : nameVariant i D = .ok named D') :
    D'.takenNames = D.takenNames := by
  obtain ⟨variant, -, ⟨-, rfl, -⟩ | ⟨v, name, -, -, -, ⟨given, -, -, rfl⟩ | ⟨-, -, rfl⟩⟩⟩ :=
    nameVariant_cases rfl h <;> rfl

theorem taken_of_nameVariants {roots : List NodeId}
    (h : (roots.forM fun i => do let _ ← nameVariant i : Drafting Unit) D = .ok () D') :
    D'.takenNames = D.takenNames := by
  induction roots generalizing D with
  | nil =>
    cases h
    rfl
  | cons i rest ih =>
    obtain ⟨u, D₁, hone, hrest⟩ := bind_eq_ok_iff.1 h
    obtain ⟨named, D₂, hone, hreturn⟩ := bind_eq_ok_iff.1 hone
    cases hreturn
    exact (ih hrest).trans (taken_of_nameVariant hone)

theorem mem_of_filterMapM_lift {α β : Type} {f : α → Attempt (Option β)} {xs : List α} {ys : List β}
    (h : (xs.filterMapM fun x => lift (f x) : Drafting (List β)) D = .ok ys D') {x : α} (hx : x ∈ xs)
    {y : β} (hy : f x = .ok (some y)) : y ∈ ys := by
  induction xs generalizing ys with
  | nil => cases hx
  | cons first rest ih =>
    rw [List.filterMapM_cons] at h
    obtain ⟨found, D₁, hlift, h⟩ := bind_eq_ok_iff.1 h
    obtain ⟨hfound, rfl⟩ := eq_ok_of_lift hlift
    cases found with
    | none =>
      rcases List.mem_cons.1 hx with rfl | hx
      · cases hfound.symm.trans hy
      · exact ih h hx
    | some z =>
      obtain ⟨others, D₂, hrest, h⟩ := bind_eq_ok_iff.1 h
      cases h
      rcases List.mem_cons.1 hx with rfl | hx
      · cases hfound.symm.trans hy
        exact List.mem_cons_self
      · exact List.mem_cons_of_mem _ (ih hrest hx)

/-- Before anything is written, the names of all stored nodes and of the query type are taken. -/
theorem taken_of_takeNames (h : c.Finished d query) {D₁ D₂ : Draft}
    (htake : takeNames c.roots { context := c } = .ok () D₁)
    (hquery : takeQueryName config D₁ = .ok () D₂) :
    c.refNames ++ config.queryNames ⊆ D₂.takenNames := by
  obtain ⟨g, E, hg, htake⟩ := bind_eq_ok_iff.1 htake
  cases hg
  obtain ⟨names, E₁, hnames, htake⟩ := bind_eq_ok_iff.1 htake
  cases htake
  have hrefs : c.refNames ⊆ names := by
    intro s hs
    rw [h.refNames_eq] at hs
    obtain ⟨r, hr, rfl⟩ := List.mem_map.1 hs
    exact mem_of_filterMapM_lift hnames hr (h.root hr).2.2.2
  obtain rfl := eq_of_filterMapM_lift hnames
  obtain ⟨key, E₂, hlift, hquery⟩ := bind_eq_ok_iff.1 hquery
  obtain ⟨-, rfl⟩ := eq_ok_of_lift hlift
  rw [Config.queryNames]
  cases hname : config.queryType with
  | str s =>
    rw [hname] at hquery
    cases hquery
    exact List.append_subset.2 ⟨fun t ht => List.mem_append_left _ (hrefs ht), List.subset_append_right _ _⟩
  | _ =>
    rw [hname] at hquery
    cases hquery
    simpa using hrefs

/-- Once choices have named their shapes, every name was given once. -/
theorem apart_of_prenamed (hD : D.Prenamed c c.roots)
    (htaken : c.refNames ++ config.queryNames ⊆ D.takenNames) : D.Apart config c query := by
  have hnodes : D.nodes = [] := by rw [Draft.nodes, hD.types, List.map_nil]
  have hshape : ∀ t given, get? t D.inlineNames = some given →
      isAnonymous c.graph (some t) = true ∧ c.IsShape t := by
    intro t given ht
    exact (hD.names t).1 (by simp [contains, ht])
  refine ⟨hD.graph, htaken, fun t ht hanonymous => ?_, fun t given ht => ?_, fun t t' s ht _ hs => ?_, ?_,
    ?_, ?_, ?_, ?_⟩
  · obtain ⟨given, hgiven⟩ := Option.isSome_iff_exists.1 ((hD.names t).2 ⟨hanonymous, ht⟩)
    obtain ⟨s, rfl, howes⟩ := hD.given t given hgiven
    exact ⟨s, hgiven, howes⟩
  · obtain ⟨hanonymous, hisShape⟩ := hshape t given ht
    exact ⟨hanonymous, fun hnot => absurd hisShape hnot⟩
  · exact absurd (hshape t _ hs).2 ht
  · rw [hD.pending]
    exact List.nodup_nil
  · rw [hD.pending]
    simp
  · rw [hnodes]
    exact List.nodup_nil
  · rw [hD.types]
    simp
  · rw [hnodes]
    simp

/-- In the definitions of a document every name was given once, and every type was written once. -/
theorem apart_definitions (h : c.Finished d query)
    (hrun : definitions config c.roots (some query) { context := c } = .ok defs D) :
    D.Apart config c query ∧ defs.types = D.types := by
  obtain ⟨⟨htypes, -⟩, D₁, D₂, D₃, D₄, htake, hquery, hvariants, hroots, hlast⟩ := definitions_cases hrun
  refine ⟨?_, htypes⟩
  have hprenamed := prenamed_of_nameVariants h htake hquery hvariants
  have hnone : D₃.nodes = [] := by rw [Draft.nodes, hprenamed.types, List.map_nil]
  have hD₃ : D₃.Apart config c query := by
    refine apart_of_prenamed hprenamed ?_
    rw [taken_of_nameVariants hvariants]
    exact taken_of_takeNames h htake hquery
  obtain ⟨hD₄, hproceeds⟩ := hD₃.writeRoots h (fun _ => id) h.nodup_roots (by simp [hnone]) hroots
  rw [hD₄.graph] at hlast
  rcases hlast with ⟨-, rfl⟩ | ⟨hprops, D₅, D₆, D₇, hin, hwrite, hout, hflush⟩
  · exact hD₄
  · have hnew : query ∉ D₅.nodes := by
      rw [Draft.nodes, hin.still.types]
      exact hproceeds.query_notMem_nodes h (by simp [hnone])
    have hD₆ := (hD₄.still hin.still).writeQuery h ((Draft.hasFields_query_iff h).2 hprops) hnew hwrite
    exact ((hD₆.still hout.still).flush h hflush).1

end Drafting

namespace Conversion

variable {d : Document} {config : Config} {oracle : Oracle} {defs : Definitions} {query : NodeId}
  {c c' : Context}

/-- No two types among the definitions of a document have the same name, if no two stored references have
the same type name and none has that of the query type. A type that is called after the fields that lead
to it, and not after a choice, has the name of no stored reference in any case. -/
theorem nodup_typeNames (hvisit : visitAll d config (start oracle) = .ok query c)
    (h : definitions d config (start oracle) = .ok defs c') :
    (c.refNames.Nodup → (∀ s ∈ c.refNames, config.queryType ≠ .str s) →
      ∃ names : List String, defs.types.map TypeBlock.name = names.map Json.str ∧ names.Nodup) ∧
    ∀ b ∈ defs.types, b.node ≠ query → isAnonymous c.graph (some b.node) = true →
      ¬c.IsShape b.node → ∀ s ∈ c.refNames, b.name ≠ .str s := by
  obtain ⟨query', c₁, hvisit', h⟩ := bind_eq_ok_iff.1 h
  obtain ⟨rfl, rfl⟩ : query' = query ∧ c₁ = c := by
    cases hvisit'.symm.trans hvisit
    exact ⟨rfl, rfl⟩
  obtain ⟨c₂, c₃, hget, h⟩ := bind_eq_ok_iff.1 h
  cases hget
  obtain ⟨roots, c₂, hroots, h⟩ := bind_eq_ok_iff.1 h
  obtain ⟨hexpect, rfl⟩ := Visit.eq_ok_of_lift hroots
  obtain rfl : c₁.roots = roots := filterMap_id_of_mapM_expect hexpect
  have hfinished := finished_visitAll hvisit
  rw [drafting] at h
  cases hrun : Drafting.definitions config c₁.roots (some query') { context := c₁ } with
  | error fault D =>
    rw [hrun] at h
    cases h
  | ok defs' D =>
    rw [hrun] at h
    cases h
    obtain ⟨hD, htypes⟩ := apart_definitions hfinished hrun
    rw [htypes]
    refine ⟨fun hnodup hquery => ?_, fun b hb hne hanonymous hplain s hs hname => ?_⟩
    · have htexts : D.types.map TypeBlock.name =
          (D.types.map fun b => b.name.display).map Json.str := by
        rw [List.map_map]
        refine List.map_congr_left fun b hb => ?_
        obtain ⟨-, ⟨s, hs⟩, -⟩ := hD.titled b hb
        simp [hs, Json.display]
      have hnames : ∀ s ∈ config.queryNames, s ∉ c₁.refNames := by
        intro s hs hmem
        refine hquery s hmem ?_
        rw [Config.queryNames] at hs
        split at hs
        · next t ht => rw [ht, List.mem_singleton.1 hs]
        · cases hs
      refine ⟨_, htexts, ?_⟩
      have hall := hD.nodup_names hfinished hnodup hnames
      rw [htexts] at hall
      exact hall.of_map
    · cases hD.origin hfinished hb with
      | stored root _ node =>
        rcases node with ⟨rfl, -⟩ | hvariant
        · exact hfinished.not_anonymous root hanonymous
        · exact hplain ⟨_, root, hvariant⟩
      | inline hs' _ _ free =>
        rw [Json.str.inj (hname.symm.trans hs')] at hs
        exact free (List.mem_append_left _ hs)
      | query _ _ node => exact hne node

/-- A document in which two fields lead to objects without a name, called like a schema that is written
later, and a choice leads to another one. -/
def crowdedNames : Document :=
  ⟨.obj [
    ("paths", .obj [("/owner", .obj [("get", .obj [
      ("responses", .obj [("200", .obj [("content", .obj [("application/json", .obj [
        ("schema", .obj [("$ref", .str "#/components/schemas/Owner")])])])])])])])]),
    ("components", .obj [("schemas", .obj [
      ("Owner", .obj [("type", .str "object"), ("properties", .obj [
        ("pet", .obj [("type", .str "object"),
          ("properties", .obj [("name", .obj [("type", .str "string")])])]),
        ("Pet", .obj [("type", .str "object"),
          ("properties", .obj [("age", .obj [("type", .str "integer")])])])])]),
      ("OwnerPet", .obj [("oneOf", .arr [.obj [("type", .str "object"),
        ("properties", .obj [("owned", .obj [("type", .str "boolean")])])]])])])])]⟩

theorem nodup_typeNames_crowdedNames :
    ∃ defs c', definitions crowdedNames {} (start Oracle.always) = .ok defs c' ∧
      ∃ names : List String, defs.types.map TypeBlock.name = names.map Json.str ∧ names.Nodup ∧
        names.length = 5 := by
  obtain ⟨defs, hdefs, hlength⟩ : ∃ defs, definitions crowdedNames {} (start Oracle.always) = .ok defs _ ∧
      defs.types.length = 5 := exists_eq_ok_of_map_outcome (by decide +kernel)
  obtain ⟨query, hvisit, -⟩ : ∃ query, visitAll crowdedNames {} (start Oracle.always) = .ok query _ ∧
      query.index = 14 := exists_eq_ok_of_map_outcome (by decide +kernel)
  have hrefs : (after (visitAll crowdedNames {}) (start Oracle.always)).refNames = ["Owner", "OwnerPet"] := by
    decide +kernel
  obtain ⟨names, htypes, hnodup⟩ := (nodup_typeNames hvisit hdefs).1 (by rw [hrefs]; decide)
    (by rw [hrefs]; simp)
  refine ⟨defs, _, hdefs, names, htypes, hnodup, ?_⟩
  have hboth := congrArg List.length htypes
  rwa [List.length_map, List.length_map, hlength, eq_comm] at hboth

end Conversion

end ApiGraph
