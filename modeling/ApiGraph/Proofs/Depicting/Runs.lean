import ApiGraph.Proofs.Depicting.Visits
import ApiGraph.Proofs.Dialogue.Generation
import ApiGraph.Proofs.Finishing.Completeness

/-!
# Faithful graphs between visits

In a layered document, and under an oracle that agrees to everything, the graph is faithful to the
document whenever no visit is under way.

* `Graph.Stocked`, `stocked_operationField` — fields of operations stand for what was declared;
* `Context.Furnished`, `furnished_buildQuery` — so does the query object;
* `Context.AtRest.faithful_resolve` — a reference is resolved;
* `Context.AtRest.faithful_visit` — a node is visited.
-/

namespace ApiGraph

open OrderedMap Context

variable {A : NodeId → Prop} {d : Document} {q : Option NodeId} {c c' : Context} {i : NodeId}
  {S : Schema → Prop} {top : Nat}

theorem faithful_start (d : Document) {oracle : Oracle} (h : oracle.Obliging) :
    (Conversion.start oracle).Faithful d := by
  refine ⟨h, fun ref j hj => ?_, fun j hj => ?_⟩
  · rw [(Visit.sound_start d oracle).stored?_eq_some_iff] at hj
    cases hj
  · rw [Visited, Graph.node_of_size_le (Nat.zero_le _)] at hj
    cases hj

/-! ## Fields of operations -/

/-- An object or a property. What lies below it stands for something, whatever becomes of the node itself
and of those before it. -/
structure Graph.Stocked (g : Graph) (i : NodeId) : Prop where
  lt_size : i.index < g.size
  body : (g.node i).body = .object ∨ ∃ slot arguments link,
    (g.node i).body = .property slot arguments link
  full : none ∉ (g.node i).body.inside
  below : ∀ g' : Graph, (∀ j, i.index < j.index → j.index < g.size → g'.node j = g.node j) →
    ∀ k ∈ (g.node i).below, g'.Portrays (fun _ => True) k

/-- A node with a slot, and the node of its type, which depicts its declaration in every graph that has
it. -/
theorem depicts_fillSlot {n : Node} {schema : Json} {body : NodeId → Body}
    (h : Build.fillSlot (c.graph.alloc n).1 schema body { c with graph := (c.graph.alloc n).2 } =
      .ok () c') :
    ∃ type, (c'.graph.node ⟨c.graph.size⟩).body = body type ∧ c.graph.size < c'.graph.size ∧
      ∀ g : Graph, (∀ j, c.graph.size < j.index → j.index < c'.graph.size →
        g.node j = c'.graph.node j) → ∃ s, schema.Declares s ∧ g.Depicts type s := by
  obtain ⟨type, c₁, hschema, hupdate⟩ := bind_eq_ok_iff.1 h
  have hsprouted := sprouted_fromSchema hschema
  have hsize := hsprouted.size_lt
  have halloc : (c.graph.alloc n).2.size = c.graph.size + 1 := Graph.size_alloc c.graph n
  have hlt : (c.graph.alloc n).1.index < c₁.graph.size := by
    show c.graph.size < _
    simp only at hsize
    omega
  cases hupdate
  refine ⟨type, ?_, ?_, fun g hsame => ?_⟩
  · exact congrArg Node.body (Graph.node_update_self c₁.graph hlt _)
  · simp only [Graph.size_update]
    exact hlt
  · refine hsprouted.depicts_of_eq fun j hj hj' => ?_
    have hlow : c.graph.size < j.index := by
      simp only at hj
      omega
    have hne : j ≠ (c.graph.alloc n).1 := by
      rintro rfl
      exact hlow.false
    rw [hsame j hlow (by simpa only [Graph.size_update] using hj'),
      Graph.node_update_of_ne c₁.graph hne]

theorem stocked_fromProperty {parent : Option NodeId} {name schema required : Json}
    (h : Build.fromProperty parent name schema required c = .ok i c') : c'.graph.Stocked i := by
  rw [Build.fromProperty] at h
  cases hget : schema.get? "$ref" with
  | some ref =>
    simp only [hget] at h
    obtain ⟨hlt, hbody⟩ : i.index < c'.graph.size ∧
        (c'.graph.node i).body = .property ⟨required, schema, none⟩ [] (some ⟨ref, none⟩) := by
      cases h
      refine ⟨?_, congrArg Node.body (Graph.node_alloc_self c.graph _)⟩
      exact (Nat.lt_succ_self c.graph.size).trans_eq (Graph.size_alloc c.graph _).symm
    refine ⟨hlt, .inr ⟨_, _, _, hbody⟩, by simp [hbody, Body.inside], fun g _ k hk => ?_⟩
    rw [Node.below, hbody] at hk
    cases hk
  | none =>
    simp only [hget] at h
    obtain ⟨j, c₁, halloc, h⟩ := bind_eq_ok_iff.1 h
    cases halloc
    obtain ⟨u, c₂, hfill, h⟩ := bind_eq_ok_iff.1 h
    cases h
    obtain ⟨type, hbody, hlt, hdepicts⟩ := depicts_fillSlot hfill
    refine ⟨hlt, .inr ⟨_, _, _, hbody⟩, by simp [hbody, Body.inside], fun g hsame k hk => ?_⟩
    rw [Node.below, hbody] at hk
    cases List.mem_singleton.1 hk
    obtain ⟨s, -, hs⟩ := hdepicts g hsame
    exact .declaration hs trivial

/-- A new argument stands for something in every graph that has it. -/
theorem portrays_fromParameter {parent : Option NodeId} {name schema required : Json}
    (h : Build.fromParameter parent name schema required c = .ok i c') {g : Graph}
    (hsame : ∀ j, c.graph.size ≤ j.index → j.index < c'.graph.size → g.node j = c'.graph.node j) :
    g.Portrays (fun _ => True) i := by
  obtain ⟨members, c₁, hmembers, h⟩ := bind_eq_ok_iff.1 h
  obtain ⟨-, rfl⟩ := Visit.eq_ok_of_lift hmembers
  obtain ⟨j, c₂, halloc, h⟩ := bind_eq_ok_iff.1 h
  cases halloc
  obtain ⟨u, c₃, hfill, h⟩ := bind_eq_ok_iff.1 h
  cases h
  obtain ⟨type, hbody, hlt, hdepicts⟩ := depicts_fillSlot hfill
  have hself := hsame ⟨c.graph.size⟩ le_rfl hlt
  refine .around ?_ fun k hk => ?_
  · rw [hself, hbody]
    exact ⟨(by simp), rfl, rfl, (by simp), by simp [Body.inside]⟩
  · rw [hself, Node.below, hbody] at hk
    cases List.mem_singleton.1 hk
    obtain ⟨s, -, hs⟩ := hdepicts g fun j hj hj' => hsame j hj.le hj'
    exact .declaration hs trivial

namespace Graph.Stocked

/-- In every graph that has it with all later nodes, the node stands for something. -/
theorem portrays {g g' : Graph} (h : g.Stocked i)
    (hsame : ∀ j, i.index ≤ j.index → j.index < g.size → g'.node j = g.node j) :
    g'.Portrays (fun _ => True) i := by
  have hself := hsame i le_rfl h.lt_size
  have hbody := h.body
  have hfull := h.full
  have hbelow := h.below g' fun j hj hj' => hsame j hj.le hj'
  rw [← hself] at hbody hfull hbelow
  rcases hbody with hbody | ⟨slot, arguments, link, hbody⟩
  · refine .around ?_ hbelow
    rw [hbody]
    exact ⟨(by simp), rfl, rfl, (by simp), by simp [Body.inside]⟩
  · cases link with
    | some link => exact .reference hbody trivial
    | none =>
      rw [hbody] at hfull
      refine .around ?_ hbelow
      rw [hbody]
      exact ⟨(by simp), rfl, rfl, (by simp), hfull⟩

/-- One more argument. -/
theorem addArgument {c₁ : Context} {a : NodeId} {parent : Option NodeId} {name schema required : Json}
    (h : c.graph.Stocked i) (hproperty : (c.graph.node i).body ≠ .object)
    (hargument : Build.fromParameter parent name schema required c = .ok a c₁)
    (hadd : Run.update i (Node.addArgument (some a)) c₁ = .ok () c') :
    c'.graph.Stocked i ∧ (c'.graph.node i).body ≠ .object := by
  obtain ⟨-, hp, -⟩ := planted_fromParameter hargument
  obtain ⟨slot, arguments, link, hbody⟩ := h.body.resolve_left hproperty
  have hsize : c.graph.size < c₁.graph.size := hp.index ▸ hp.sprout.lt_size
  have hlt := h.lt_size.trans hsize
  have hself : (c'.graph.node i).body = .property slot (arguments ++ [some a]) link := by
    cases hadd
    refine (congrArg Node.body (Graph.node_update_self c₁.graph hlt _)).trans ?_
    rw [hp.node_eq i h.lt_size, Node.addArgument_of_property hbody]
  have hsize' : c'.graph.size = c₁.graph.size := by
    cases hadd
    exact Graph.size_update _ _ _
  have hother : ∀ j, i.index < j.index → c'.graph.node j = c₁.graph.node j := by
    intro j hj
    cases hadd
    refine Graph.node_update_of_ne c₁.graph ?_ _
    rintro rfl
    exact hj.false
  have hfull : none ∉ (c'.graph.node i).body.inside := by
    have hold := h.full
    rw [hbody] at hold
    rw [hself]
    cases link <;> simp_all [Body.inside]
  refine ⟨⟨hlt.trans_eq hsize'.symm, .inr ⟨_, _, _, hself⟩, hfull, fun g hsame k hk => ?_⟩,
    by simp [hself]⟩
  have hlater : ∀ j, i.index < j.index → j.index < c₁.graph.size → g.node j = c₁.graph.node j :=
    fun j hj hj' => (hsame j hj (hj'.trans_eq hsize'.symm)).trans (hother j hj)
  have hold := h.below g fun j hj hj' =>
    (hlater j hj (hj'.trans hsize)).trans (hp.node_eq j hj')
  have hnew : g.Portrays (fun _ => True) a :=
    portrays_fromParameter hargument fun j hj => hlater j (h.lt_size.trans_le hj)
  rw [Node.below, hself] at hk
  rw [Node.below, hbody] at hold
  cases link with
  | some link => cases hk
  | none =>
    simp only [List.filterMap_append, List.mem_append] at hk hold
    rcases hk with (hk | hk) | hk
    · exact hold k (.inl hk)
    · cases List.mem_singleton.1 hk
      exact hnew
    · exact hold k (.inr hk)

/-- The arguments for parameters, one by one. -/
theorem addArguments {parameters : List Json.Members} (h : c.graph.Stocked i)
    (hproperty : (c.graph.node i).body ≠ .object)
    (hadd : (parameters.forM fun parameter => do
      let argument ← Conversion.operationArgument i parameter
      Run.update i (Node.addArgument argument) : Run Unit) c = .ok () c') : c'.graph.Stocked i := by
  induction parameters generalizing c with
  | nil =>
    cases hadd
    exact h
  | cons parameter rest ih =>
    obtain ⟨u, c₁, hone, hrest⟩ := bind_eq_ok_iff.1 hadd
    obtain ⟨a, c₂, hargument, hone⟩ := bind_eq_ok_iff.1 hone
    obtain ⟨name, c₃, hname, hargument⟩ := bind_eq_ok_iff.1 hargument
    obtain ⟨-, rfl⟩ := Visit.eq_ok_of_lift hname
    obtain ⟨hstocked, hproperty'⟩ := h.addArgument hproperty hargument hone
    exact ih hstocked hproperty' hrest

end Graph.Stocked

theorem stocked_operationField {query : NodeId} {op : Operation}
    (h : Conversion.operationField query op c = .ok i c') : c'.graph.Stocked i := by
  obtain ⟨name, c₁, hname, h⟩ := bind_eq_ok_iff.1 h
  obtain ⟨-, rfl⟩ := Visit.eq_ok_of_lift hname
  obtain ⟨field, c₂, hfield, h⟩ := bind_eq_ok_iff.1 h
  obtain ⟨u, c₃, hadd, h⟩ := bind_eq_ok_iff.1 h
  cases h
  obtain ⟨-, -, -, slot, link, hbody, -⟩ := planted_fromProperty hfield
  exact (stocked_fromProperty hfield).addArguments (by simp [hbody]) hadd

/-! ## The query object -/

/-- A graph has grown by the query object and its fields. Nothing else has changed. -/
structure Context.Furnished (c₀ c : Context) (query : NodeId) : Prop where
  index : query.index = c₀.graph.size
  stocked : c.graph.Stocked query
  object : (c.graph.node query).body = .object
  node_eq : ∀ j, j.index < c₀.graph.size → c.graph.node j = c₀.graph.node j
  visited_lt : ∀ j, c.Visited j → j.index < c₀.graph.size
  stored : ∀ ref, c.stored? ref = c₀.stored? ref

theorem furnished_newQuery {config : Config} {query : NodeId}
    (h : Conversion.newQuery config c = .ok query c') : c.Furnished c' query := by
  let n : Node := { body := .object, name := config.queryType }
  obtain ⟨rfl, rfl⟩ : query = (c.graph.alloc n).1 ∧ c' = { c with graph := (c.graph.alloc n).2 } := by
    cases h
    exact ⟨rfl, rfl⟩
  have hself := Graph.node_alloc_self c.graph n
  have hsize := Graph.size_alloc c.graph n
  have hbody : ((c.graph.alloc n).2.node (c.graph.alloc n).1).body = .object := by rw [hself]
  have hlt : (c.graph.alloc n).1.index < (c.graph.alloc n).2.size := by
    rw [hsize]
    exact Nat.lt_succ_self c.graph.size
  refine ⟨rfl, ⟨hlt, .inl hbody, by simp [Body.inside], fun g _ k hk => ?_⟩, hbody,
    fun j hj => Graph.node_alloc_of_lt c.graph n hj, fun j hj => ?_, fun _ => rfl⟩
  · simp only [hself, Node.below, n, values, List.map_nil, List.not_mem_nil] at hk
  · refine Nat.lt_of_not_le fun hle => ?_
    have hnot : ((c.graph.alloc n).2.node j).visited = false := by
      rcases Nat.eq_or_lt_of_le hle with he | hlt
      · obtain rfl : (c.graph.alloc n).1 = j := Graph.eq_of_index_eq he
        rw [hself]
      · rw [Graph.node_of_size_le (by rw [hsize]; exact hlt)]
    rw [Visited, hnot] at hj
    cases hj

namespace Context.Furnished

variable {c₀ : Context} {query : NodeId}

/-- The field of one more operation becomes a property of the query object. -/
theorem add {op : Operation} (h : c₀.Furnished c query)
    (hadd : (do Run.put query (← Conversion.operationField query op) : Run Unit) c = .ok () c') :
    c₀.Furnished c' query := by
  obtain ⟨field, c₁, hfield, hput⟩ := bind_eq_ok_iff.1 hadd
  obtain ⟨hsown, -⟩ := sown_operationField hfield
  have hstocked := stocked_operationField hfield
  obtain ⟨s, hprop⟩ := hsown.property
  have hq := h.stocked.lt_size
  have hqsize := hq.trans hsown.size_lt
  have hindex := h.index
  have hfieldIndex := hsown.index
  rw [put_eq hprop.1] at hput
  cases hput
  have hself := Graph.node_update_self c₁.graph hqsize fun n => n.putProperty (.text s) field
  rw [hsown.node_eq query hq] at hself
  have hother : ∀ j, j ≠ query → (c₁.graph.update query fun n => n.putProperty (.text s) field).node j =
      c₁.graph.node j := fun j hj => Graph.node_update_of_ne c₁.graph hj _
  have hbody : ((c₁.graph.update query fun n => n.putProperty (.text s) field).node query).body =
      .object := by
    rw [hself, Node.body_putProperty, h.object]
  refine ⟨hindex, ⟨by simpa only [Graph.size_update] using hqsize, .inl hbody,
      by simp [hbody, Body.inside], fun g hsame k hk => ?_⟩, hbody, fun j hj => ?_, fun j hj => ?_, fun ref => ?_⟩
  · have hlater : ∀ j, query.index < j.index → j.index < c₁.graph.size →
        g.node j = c₁.graph.node j := by
      intro j hj hj'
      refine (hsame j hj (by simpa only [Graph.size_update] using hj')).trans (hother j ?_)
      rintro rfl
      exact hj.false
    rw [hself, Node.below, Node.body_putProperty, h.object, Node.props_putProperty] at hk
    obtain ⟨e, he, rfl⟩ := List.mem_map.1 hk
    have hold := h.stocked.below g fun j hj hj' =>
      (hlater j hj (hj'.trans hsown.size_lt)).trans (hsown.node_eq j hj')
    have hnew : g.Portrays (fun _ => True) field := hstocked.portrays fun j hj hj' =>
      hlater j (by omega) hj'
    rcases mem_insert he with he | rfl | ⟨old, -, -, he⟩
    · refine hold e.2 ?_
      rw [Node.below, h.object]
      exact List.mem_map_of_mem he
    · exact hnew
    · rw [he]
      exact hnew
  · have hne : j ≠ query := by
      rintro rfl
      omega
    rw [hother j hne, hsown.node_eq j (by omega), h.node_eq j hj]
  · have hvisited : c₁.Visited j := by
      by_cases hne : j = query
      · rw [hne, Visited, hself, Node.visited_putProperty] at hj
        rwa [hne, Visited, hsown.node_eq query hq]
      · rwa [Visited, hother j hne] at hj
    have hlt : j.index < c.graph.size :=
      Nat.lt_of_not_le fun hle => hsown.unvisited hle hvisited
    refine h.visited_lt j ?_
    rwa [Visited, ← hsown.node_eq j hlt]
  · exact (hsown.still.stored? ref).trans (h.stored ref)

theorem addEach {operations : List Operation} (h : c₀.Furnished c query)
    (hadd : (operations.forM fun op => do
      Run.put query (← Conversion.operationField query op) : Run Unit) c = .ok () c') :
    c₀.Furnished c' query := by
  induction operations generalizing c with
  | nil =>
    cases hadd
    exact h
  | cons op rest ih =>
    obtain ⟨u, c₁, hop, hrest⟩ := bind_eq_ok_iff.1 hadd
    exact ih (h.add hop) hrest

/-- What was faithful stays faithful. -/
theorem faithful (h : c₀.Furnished c query) (horacle : c.oracle = c₀.oracle)
    (hfaithful : c₀.Faithful d) : c.Faithful d := by
  have hkept : ∀ j, j.index < c₀.graph.size → (c₀.graph.node j).Kept (c.graph.node j) := by
    intro j hj
    rw [h.node_eq j hj]
    exact Node.Kept.refl _
  refine ⟨horacle ▸ hfaithful.oracle, fun ref i hi => ?_, fun i hi => ?_⟩
  · rw [h.stored] at hi
    obtain ⟨s, hdeclares, hdepicts⟩ := hfaithful.stored ref i hi
    exact ⟨s, hdeclares, hdepicts.kept hkept⟩
  · have hsame := h.node_eq i (h.visited_lt i hi)
    rw [Visited, hsame] at hi
    have hsize : c₀.graph.size ≤ c.graph.size := h.index.symm.le.trans h.stocked.lt_size.le
    exact (hfaithful.drawn i hi).congr hsize hkept (fun j hj => h.node_eq j (Visited.lt_size hj))
      (by rw [hsame]) (by rw [hsame]) (by rw [hsame])

end Context.Furnished

theorem furnished_buildQuery {config : Config} {operations : List Operation} {query : NodeId}
    (h : Conversion.buildQuery config operations c = .ok query c') : c.Furnished c' query := by
  obtain ⟨query', c₁, hnew, h⟩ := bind_eq_ok_iff.1 h
  obtain ⟨u, c₂, heach, h⟩ := bind_eq_ok_iff.1 h
  cases h
  exact (furnished_newQuery hnew).addEach heach

/-! ## Visits -/

namespace Context.AtRest

/-- Between visits any declaration may be read. -/
theorem sketched (h : c.AtRest A d q) (hfaithful : c.Faithful d) (S : Schema → Prop) :
    c.Sketched A d q (fun _ => False) S :=
  ⟨h.sound, h.whole, h.lt_size, hfaithful, fun _ hj => hj.elim⟩

theorem faithful_resolve (h : c.AtRest A d q) (hfaithful : c.Faithful d) (hd : d.Layered)
    {owner : Option NodeId} {ref : Json} {t : NodeId}
    (hresolve : Visit.resolveRef d owner ref c = .ok t c') : c'.Faithful d := by
  have hrun : Visit.resolve d (Visit.visitWithin d (Visit.depthBound d c.graph)) owner ref c =
      .ok t c' := hresolve
  exact (Visit.sketched_resolve (Visit.draws_visitWithin hd _) (h.sketched hfaithful _) hrun).2.1.faithful

/-- Nothing is read yet when a visit begins, so no reference has to lead anywhere. -/
theorem pending (h : c.AtRest A d q) (hb : c.Budding i top) (S : Schema → Prop) :
    c.Pending d q (fun j => False ∨ Tree c.graph i j) S := by
  rintro j (hj | hj) hq hslot hname
  · cases hj
  · -- a node with a name is stored, and what is stored was visited
    obtain ⟨_, hsprout, -⟩ := hb.sprout.of_tree hj
    have hvisited : c.Visited j := (h.whole.stored _ j (h.sound.named j hq hslot hname)).resolve_right id
    rw [Visited, hsprout.bud.unvisited] at hvisited
    cases hvisited

theorem faithful_visit (h : c.AtRest A d q) (hfaithful : c.Faithful d) (hd : d.Layered)
    (hb : c.Budding i top) (hA : ∀ a, A a → ¬Tree c.graph i a)
    (hplain : ∀ j, Tree c.graph i j → ∀ slot arguments link,
      (c.graph.node j).body = .property slot arguments (some link) →
        slot.type = none ∧ ∀ a, some a ∈ arguments → A a)
    (hi : c.graph.Portrays S i) (hvisit : Visit.visit d i c = .ok () c') : c'.Faithful d := by
  have hrun : Visit.visitWithin d (Visit.depthBound d c.graph) i c = .ok () c' := hvisit
  have hbegun : c.Sketched A d q (fun j => False ∨ Tree c.graph i j) S :=
    ⟨h.sound, h.owing hb hplain, h.lt_size, hfaithful, h.pending hb S⟩
  exact (Visit.draws_visitWithin hd _).faithful hbegun hb (fun _ hj => hj.elim) hA hi hrun

end Context.AtRest

end ApiGraph
