import ApiGraph.Proofs.Finishing.Completeness

/-!
# Graphs that definitions are drafted from

What holds once all schemas were resolved and the query object was visited.

* `Context.Finished` — a graph after all visits;
* `Context.Rooted.unled_sprigs` — no visited node leads to the query object, and the arguments that no
  visit goes to are as they were;
* `Context.Rooted.tree_of_visited` — of the nodes after the query object only those below it are visited;
* `Conversion.finished_visitAll` — all visits give such a graph.
-/

namespace ApiGraph

open OrderedMap

/-- A graph after all visits, in which nothing leads to the query object: no node that was visited, and
none below the arguments that no visit went to. -/
structure Context.Finished (d : Document) (query : NodeId) (c : Context) : Prop where
  sound : c.Sound d (some query)
  visited : c.Visited query
  unled : ∀ j, c.Visited j → query ∉ (c.graph.node j).followed
  whole : ∃ A, Whole A (fun _ => False) c ∧
    ∀ a, A a → query.index < a.index ∧ (c.graph.node a).Loose ∧ ∃ top, Sprout c.graph a top

open Context

variable {A : NodeId → Prop} {d : Document} {c c' c₁ : Context} {i j k query : NodeId}

/-- A node that was not visited may be one of those that no visit goes to. -/
theorem Whole.spurn {X : NodeId → Prop} (hw : Whole A X c) (hi : ¬c.Visited i) :
    Whole (fun a => A a ∨ a = i) X c := by
  refine ⟨hw.owed_lt, hw.entered, hw.ripe, hw.led, hw.stored, hw.gathered, hw.entries,
    fun j hj slot arguments link hbody => ?_, ?_⟩
  · obtain ⟨htype, hargs⟩ := hw.plain j hj slot arguments link hbody
    exact ⟨htype, fun a ha => .inl (hargs a ha)⟩
  · rintro a (ha | rfl)
    · exact hw.spurned a ha
    · exact hi

/-- The visits of the nodes below the query object are owed. -/
theorem Context.Rooted.whole_below (h : c.Rooted A d query) :
    Whole A (fun j => False ∨ ∃ k ∈ (c.graph.node query).below, Tree c.graph k j) c := by
  refine h.rest.whole.grow ((Still.refl c).grows (P := fun _ => True)) (fun _ _ => trivial) (by simp)
    (fun _ => id) ?_ fun _ _ => .inl
  have howing := h.budding.sprout.owing h.plain
  have hsub : ∀ j, (∃ k ∈ (c.graph.node query).below, Tree c.graph k j) → Tree c.graph query j := by
    rintro j ⟨k, hk, hj⟩
    exact hj.head hk
  refine ⟨fun j hj => howing.lt_size j (hsub j hj), ?_, fun j hj => howing.entries j (hsub j hj),
    fun j hj => howing.plain j (hsub j hj)⟩
  rintro j ⟨k, hk, hj⟩ l hl
  obtain ⟨ends, -, -, -, -, -, sprouts⟩ := h.budding.sprout
  exact ⟨k, hk, (sprouts k hk).tree_of_props hj hl⟩

/-- The fields of the query object are visited inside it, while it is not visited itself. Nothing happens
to the arguments that no visit goes to. -/
theorem Context.Rooted.whole_visitEach {depth : Nat} (h : c.Rooted A d query)
    (hstill : (c.enter (some query)).Still c₁)
    (heach : (values (c.graph.node query).props).forM (Visit.visitWithin d depth) c₁ = .ok () c') :
    c'.graph.node query = c.graph.node query ∧
      Whole (fun a => A a ∨ a = query) (fun _ => False) c' ∧
      ∀ a, A a → query.index < a.index ∧ (c'.graph.node a).Loose ∧ ∃ top, Sprout c'.graph a top := by
  have hobject := (h.rest.sound.handmade query rfl).2
  have hlt := h.budding.sprout.lt_size
  have hfresh := h.budding.fresh query le_rfl h.budding.sprout.inside
  have hs := hstill.sound (sound_enter h.rest.sound hlt)
  have ho := hstill.opened h.budding.opened
  have hgraph : c₁.graph = c.graph := hstill.graph
  have hbelow : ((values (c.graph.node query).props).map some).filterMap id =
      (c.graph.node query).below := by
    simp [Node.below, hobject]
  obtain ⟨ends, fields, apart, sprigs⟩ := h.laid
  have apart := h.budding.sprout.nodup_below.pairwise_of_forall_ne apart
  have hbudding : ∀ k ∈ (c.graph.node query).below, c₁.Budding k (ends k) := by
    intro k hk
    obtain ⟨hqk, hsprout⟩ := fields k hk
    have htop := hsprout.below_size
    refine ⟨by rw [hgraph]; exact hsprout, fun j hkj hj => ho.fresh j (by omega) (by omega)⟩
  have hnot : ¬c₁.Visited query := by
    rw [Visited, hgraph, h.budding.sprout.bud.unvisited]
    exact Bool.false_ne_true
  have hw : Whole (fun a => A a ∨ a = query)
      (fun j => False ∨ ∃ k ∈ (c.graph.node query).below, Tree c₁.graph k j) c₁ := by
    rw [hgraph]
    refine Whole.spurn (Whole.still (h.whole_below.step
      (grows_enter (P := (· ≠ query)) hfresh fun h => h rfl) ?_ (fun _ _ _ => .inl) (fun _ => id)
      fun _ => rfl) hstill) hnot
    rintro j hj rfl
    exact hfresh (h.rest.whole.entered j hj)
  have hA : ∀ a, A a ∨ a = query → a.index < c₁.graph.size ∧
      ∀ k ∈ (c.graph.node query).below, ¬Tree c₁.graph k a := by
    rw [hgraph]
    rintro a (ha | rfl)
    · exact ⟨h.rest.lt_size a ha, fun k hk ht => h.apart a ha (ht.head hk)⟩
    · refine ⟨hlt, fun k hk ht => ?_⟩
      have := (fields k hk).1
      have := ((fields k hk).2.tree_bounds ht).1
      omega
  rw [← visitEach_map_some] at heach
  rw [← hbelow] at apart hbudding hA hw
  obtain ⟨hw', -⟩ := Visit.whole_visitEach (X := fun _ => False) (Visit.finishes_visitWithin depth)
    (visits_visitWithin depth) ⟨hs, hbudding, apart, fun _ h => h.elim, hA, hw⟩ heach
  obtain ⟨hgrows, -⟩ := (works_visitEach (visits_visitWithin depth) hs ends _ hbudding apart).of_ok heach
  rw [hbelow] at hgrows
  refine ⟨?_, hw', fun a ha => ?_⟩
  · rw [← hgraph]
    refine (hgrows.spared query ⟨by rw [Old, hgraph]; exact hlt, fun k hk hin => ?_⟩).1
    have := (fields k hk).1
    omega
  · obtain ⟨hafter, hloose, top, hsprout, hside⟩ := sprigs a ha
    have htop := hsprout.below_size
    rw [← hgraph] at hsprout htop hloose
    have hsame : ∀ j, a.index ≤ j.index → j.index < top → c'.graph.node j = c₁.graph.node j := by
      refine fun j haj hj => (hgrows.spared j ⟨hj.trans_le htop, fun k hk hin => ?_⟩).1
      have := hside k hk
      omega
    exact ⟨hafter, by rwa [hsame a le_rfl hsprout.inside], top, hsprout.congr hgrows.size_le hsame⟩

/-- No node that was visited leads to the query object, and the arguments that no visit went to are as
they were. -/
theorem Context.Rooted.unled_sprigs (h : c.Rooted A d query)
    (hvisit : Visit.visit d query c = .ok () c') :
    (∀ j, c'.Visited j → query ∉ (c'.graph.node j).followed) ∧
      ∀ a, A a → query.index < a.index ∧ (c'.graph.node a).Loose ∧ ∃ top, Sprout c'.graph a top := by
  obtain ⟨depth, hdepth⟩ : ∃ depth, Visit.depthBound d c.graph = depth + 1 := by
    have hpos : 0 < (2 * Visit.declarationDepth d c.graph + 4) * (Visit.referenceCount d c.graph + 2) :=
      Nat.mul_pos (by omega) (by omega)
    refine ⟨Visit.depthBound d c.graph - 1, ?_⟩
    rw [Visit.depthBound]
    omega
  have hvisit : Visit.visitWithin d (Visit.depthBound d c.graph) query c = .ok () c' := hvisit
  rw [hdepth] at hvisit
  have hsprout := h.budding.sprout
  obtain ⟨n, c₁, hn, hstep⟩ := bind_eq_ok_iff.1 hvisit
  cases hn
  simp only [hsprout.bud.unvisited] at hstep
  obtain ⟨c₂, hinner, rfl⟩ := Visit.eq_ok_of_within hstep
  obtain ⟨u, c₃, hbody, hmark⟩ := bind_eq_ok_iff.1 hinner
  simp only [Visit.body, (h.rest.sound.handmade query rfl).2] at hbody
  obtain ⟨u₁, c₄, hin, hbody⟩ := bind_eq_ok_iff.1 hbody
  obtain ⟨u₂, c₅, heach, hout⟩ := bind_eq_ok_iff.1 hbody
  obtain ⟨hquery, hwhole, hsprigs⟩ := h.whole_visitEach ((Run.idle_trace _ _).of_ok hin) heach
  have hstill := (Run.idle_trace _ _).of_ok hout
  have hwhole₃ := hwhole.still hstill
  rw [← hstill.graph] at hquery
  have hlt : query.index < c₃.graph.size := by
    have hnone : c₃.graph.node query ≠ { body := .bare } := by
      rw [hquery]
      intro he
      have hobject := (h.rest.sound.handmade query rfl).2
      rw [he] at hobject
      cases hobject
    exact Nat.lt_of_not_le fun hle => hnone (Graph.node_of_size_le hle)
  cases hmark
  refine ⟨fun j hj => ?_, fun a ha => ?_⟩
  swap
  · obtain ⟨hafter, hloose, top, hsprig⟩ := hsprigs a ha
    rw [← hstill.graph] at hloose hsprig
    rw [(still_leave _).graph]
    refine ⟨hafter, ?_, top, hsprig.update_of_lt hafter _⟩
    rwa [Graph.node_update_of_ne _ fun he => by rw [he] at hafter; exact hafter.false]
  rw [Visited, (still_leave _).graph] at hj
  rw [(still_leave _).graph]
  by_cases hne : j = query
  · subst hne
    simp only [Graph.node_update_self c₃.graph hlt, hquery]
    intro hmem
    have hsame : Node.Same (c.graph.node j) { c.graph.node j with visited := true } :=
      ⟨rfl, rfl, rfl, rfl, rfl, rfl⟩
    rw [hsame.followed] at hmem
    have hbelow := hsprout.bud.mem_below_of_followed
      (by rw [(h.rest.sound.handmade j rfl).2]; rfl) hmem
    obtain ⟨ends, -, -, -, order, -, -⟩ := hsprout
    exact (order j hbelow).1.false
  · simp only [Graph.node_update_of_ne c₃.graph hne] at hj ⊢
    intro hmem
    exact hwhole₃.spurned query (.inr rfl) (hwhole₃.led_visited hj hmem)

/-- A node after the query object, other than new ones, is visited only if it is below the query object. -/
theorem Context.Rooted.tree_of_visited (h : c.Rooted A d query)
    (hvisit : Visit.visit d query c = .ok () c') (hi : c'.Visited i) (hafter : query.index ≤ i.index)
    (hlt : i.index < c.graph.size) : Tree c.graph query i := by
  by_contra hnot
  have hunvisited : ¬c.Visited i := fun hi =>
    h.budding.fresh i hafter hlt (h.rest.whole.entered i hi)
  -- the visit leaves it out as it does with the arguments that it does not go to
  have hrest : c.AtRest (fun a => A a ∨ a = i) d (some query) := by
    refine ⟨h.rest.sound, h.rest.whole.spurn hunvisited, ?_⟩
    rintro a (ha | rfl)
    · exact h.rest.lt_size a ha
    · exact hlt
  have hapart : ∀ a, A a ∨ a = i → ¬Tree c.graph query a := by
    rintro a (ha | rfl)
    · exact h.apart a ha
    · exact hnot
  obtain ⟨-, hrest', -⟩ := hrest.visit h.budding hapart (fun j hj slot arguments link hbody =>
    (h.plain j hj slot arguments link hbody).imp_right fun hargs a ha => .inl (hargs a ha)) hvisit
  exact hrest'.whole.spurned i (.inr rfl) hi

namespace Context.Finished

variable {ref : Json}

theorem led (h : c.Finished d query) (hj : c.Visited j) (hk : k ∈ (c.graph.node j).followed) :
    c.Visited k ∧ k ≠ query := by
  obtain ⟨A, hw, -⟩ := h.whole
  refine ⟨hw.led_visited hj hk, ?_⟩
  rintro rfl
  exact h.unled j hj hk

theorem ripe (h : c.Finished d query) (hj : c.Visited j) : c.Ripe j := by
  obtain ⟨A, hw, -⟩ := h.whole
  exact hw.ripe j hj

/-- What is stored was visited, and has the name that it is stored under. -/
theorem stored (h : c.Finished d query) (hj : some j ∈ values c.types) :
    c.Visited j ∧ ∃ s, (c.graph.node j).name = .str s ∧ s ≠ "" := by
  obtain ⟨⟨key, found⟩, hmem, hfound⟩ := List.mem_map.1 hj
  obtain ⟨ref, i, hbuilt, -, hi⟩ := h.sound.exists_some hmem
  obtain rfl : i = j := Option.some.inj (hi.symm.trans hfound)
  obtain ⟨A, hw, -⟩ := h.whole
  obtain ⟨⟨s, rfl, hs⟩, -, -, hname, -⟩ := h.sound.built ref i hbuilt
  exact ⟨(hw.stored _ i (h.sound.stored?_eq_some_iff.2 hbuilt)).resolve_right id, s, hname, hs⟩

/-- A node with a name and without a slot is stored, unless it is the query object. -/
theorem named (h : c.Finished d query) (hj : j ≠ query) (hslot : (c.graph.node j).slot? = none)
    (hname : (c.graph.node j).name.isNull = false) : some j ∈ values c.types := by
  have hstored := h.sound.named j (fun he => hj (Option.some.inj he).symm) hslot hname
  have hmem : ((c.graph.node j).name, some j) ∈ c.types.map (Prod.map Key.toJson id) := by
    rw [h.sound.types_eq]
    exact List.mem_map.2 ⟨_, h.sound.stored?_eq_some_iff.1 hstored, rfl⟩
  obtain ⟨e, he, hpair⟩ := List.mem_map.1 hmem
  exact List.mem_map.2 ⟨e, he, (Prod.mk.inj hpair).2⟩

/-- The properties of a visited node are properties that were visited. -/
theorem property (h : c.Finished d query) (hj : c.Visited j)
    (hk : k ∈ values (c.graph.node j).props) :
    c.Visited k ∧ ∃ s, (c.graph.node k).IsProperty s := by
  obtain ⟨A, hw, -⟩ := h.whole
  obtain ⟨e, he, rfl⟩ := List.mem_map.1 hk
  obtain ⟨s, -, hprop⟩ := hw.entries j (.inl hj) e he
  exact ⟨hw.visited_of_props hj he, s, hprop⟩

end Context.Finished

/-- All visits give a finished graph. -/
theorem Conversion.finished_visitAll {config : Config} {oracle : Oracle}
    (h : Conversion.visitAll d config (Conversion.start oracle) = .ok query c) :
    c.Finished d query := by
  obtain ⟨A, c₁, hrooted, hvisit⟩ := Conversion.rooted_of_visitAll h
  obtain ⟨hrest, hvisited⟩ := hrooted.visit hvisit
  obtain ⟨hunled, hsprigs⟩ := hrooted.unled_sprigs hvisit
  exact ⟨hrest.sound, hvisited, hunled, A, hrest.whole, hsprigs⟩

end ApiGraph
