import ApiGraph.Proofs.Succeeding.Visits
import ApiGraph.Proofs.Depicting.Operations

/-!
# Operations that can be read

What one run has read of an operation, every other one can read as well. So in a layered document an
operation is visited whenever its answer and arguments were read in some run.

* `Operation.Readable` — an operation whose name, answer and arguments can be read;
* `Context.Exact.readable_of_serves` — one whose field was visited can be read;
* `Conversion.delivers_operationField` — there is a field for it;
* `Context.Between` — the state between two operations;
* `Conversion.delivers_visitOperation` — the visit of an operation succeeds;
* `Context.Between.visitOperation` — and after it the next one can begin;
* `Context.Served.outlived` — later operations leave earlier ones as they are.
-/

namespace ApiGraph

open OrderedMap Context

/-- The declaration of an operation's answer. -/
def Operation.answer (op : Operation) : Json := op.response.orElse (.obj [])

/-- An operation that can be read as far as a visit does: its name, its answer, and its arguments, which
are visited unless the answer is a reference. -/
structure Operation.Readable (K : Schema → Prop) (op : Operation) : Prop where
  name : ∃ s, Conversion.fieldNameOf op = .ok s
  reference : ∀ ref, op.answer.get? "$ref" = some ref → K (.ref ref)
  plain : op.answer.get? "$ref" = none → ∃ s, op.answer.Declares s ∧ K s
  arguments : ∀ p ∈ op.listedParameters, (∃ name, get? "name" p = some name) ∧
    ∃ s, (parameterSchema p).Declares s ∧ (op.answer.get? "$ref" = none → K s)

variable {A : NodeId → Prop} {d : Document} {q : Option NodeId} {K : Schema → Prop} {c c' : Context}
  {c₁ : Context} {i query : NodeId} {op : Operation}

/-- What a run has read of an operation can be read. -/
theorem Context.Exact.readable_of_serves (h : c.Exact A d) (hi : c.Visited i)
    (hserves : c.graph.Serves op i) : op.Readable c.Read := by
  obtain ⟨slot, arguments, link, hbody, hbears, htakes⟩ := hserves.offers.body
  have hfollowed : ∀ {k}, k ∈ (c.graph.node i).followed → c.Visited k := h.visited_of_followed hi
  refine ⟨?_, fun ref href => ?_, fun hnone => ?_, fun p hp => ?_⟩
  · obtain ⟨s, hs, -⟩ := hserves.name
    exact ⟨s, hs⟩
  · cases hbears with
    | @reference ref' target hwritten =>
      obtain rfl : ref' = ref := Option.some.inj (hwritten.symm.trans href)
      obtain ⟨t, -, hstored⟩ := (h.whole.ripe i hi).target _ (by rw [hbody]; rfl)
      exact .reference hstored
    | plain hwritten => cases hwritten.symm.trans href
  · cases hbears with
    | reference hwritten => cases hwritten.symm.trans hnone
    | @plain t s hwritten hdeclares hdepicts =>
      refine ⟨s, hdeclares, .node (hfollowed ?_) hdepicts⟩
      simp [Node.followed, Node.type?, Node.slot?, hbody]
  · obtain ⟨a, ha, hname, t, s, hargument, hdeclares, hdepicts⟩ :=
      exists_of_forall₂_left htakes hp
    refine ⟨⟨_, hname⟩, s, hdeclares, fun hnone => ?_⟩
    cases hbears with
    | reference hwritten => cases hwritten.symm.trans hnone
    | plain =>
      -- without a reference the arguments are visited as well
      have hvisited : c.Visited a := hfollowed (by simp [Node.followed, Node.arguments, Body.link?, hbody, ha])
      refine .node (h.visited_of_followed hvisited ?_) hdepicts
      simp [Node.followed, Node.type?, Node.slot?, hargument]

/-- An argument stands for the declaration of its parameter. -/
theorem Graph.Takes.portrays {g : Graph} {p : Json.Members} {s : Schema} (h : g.Takes p i)
    (hdeclares : (parameterSchema p).Declares s) (hs : K s) : g.Portrays K i := by
  obtain ⟨-, t, s', hbody, hdeclares', hdepicts⟩ := h
  cases hdeclares.unique hdeclares'
  refine .around ?_ fun k hk => ?_
  · rw [hbody]
    exact ⟨(by simp), rfl, rfl, (by simp), by simp [Body.inside]⟩
  · rw [Node.below, hbody] at hk
    cases List.mem_singleton.1 hk
    exact .declaration hdepicts hs

/-- A field that stands for an operation stands for declarations that can be read if the operation can. -/
theorem Graph.Serves.portrays {g : Graph} (h : g.Serves op i) (hop : op.Readable K) :
    g.Portrays K i := by
  obtain ⟨slot, arguments, link, hbody, hbears, htakes⟩ := h.offers.body
  cases hbears with
  | reference hwritten => exact .reference hbody (hop.reference _ hwritten)
  | @plain t s hwritten hdeclares hdepicts =>
    refine .around ?_ fun k hk => ?_
    · rw [hbody]
      exact ⟨(by simp), rfl, rfl, (by simp), by simp [Body.inside]⟩
    · rw [Node.below, hbody] at hk
      rcases List.mem_append.1 hk with hk | hk
      · have ha : k ∈ arguments := by simpa using hk
        obtain ⟨p, hp, htake⟩ := exists_of_forall₂_left htakes.flip ha
        obtain ⟨-, s', hdeclares', hs'⟩ := hop.arguments p hp
        exact Graph.Takes.portrays htake hdeclares' (hs' hwritten)
      · cases List.mem_singleton.1 hk
        obtain ⟨s', hdeclares', hs'⟩ := hop.plain hwritten
        cases hdeclares.unique hdeclares'
        exact .declaration hdepicts hs'

/-! ## Fields -/

theorem delivers_fillSlot {schema : Json} {s : Schema} (h : schema.Declares s) (i : NodeId)
    (body : NodeId → Body) (c : Context) : Delivers (Build.fillSlot i schema body) c := by
  refine Delivers.bind ?_ fun _ _ _ => ⟨(), _, rfl⟩
  exact delivers_of_ok (fromSchema_of_read_eq_ok (h.read_eq _))

theorem delivers_fromProperty (hplain : op.answer.get? "$ref" = none → ∃ s, op.answer.Declares s)
    (parent : Option NodeId) (name required : Json) (c : Context) :
    Delivers (Build.fromProperty parent name op.answer required) c := by
  rw [Build.fromProperty]
  cases href : op.answer.get? "$ref" with
  | some ref => exact ⟨_, _, rfl⟩
  | none =>
    obtain ⟨s, hs⟩ := hplain href
    refine Delivers.bind ⟨_, _, rfl⟩ fun i c₁ _ => ?_
    exact Delivers.bind (delivers_fillSlot hs i _ c₁) fun _ _ _ => ⟨_, _, rfl⟩

/-- Only an object declares something. -/
theorem Json.Declares.exists_members {v : Json} {s : Schema} (h : v.Declares s) :
    ∃ members, v = .obj members := by
  obtain ⟨owner, hread⟩ := h
  cases v with
  | obj members => exact ⟨members, rfl⟩
  | _ => simp [Schema.read] at hread

theorem delivers_operationArgument {p : Json.Members} {name : Json} {s : Schema}
    (hname : get? "name" p = some name) (hs : (parameterSchema p).Declares s) (field : NodeId)
    (c : Context) : Delivers (Conversion.operationArgument field p) c := by
  obtain ⟨members, hmembers⟩ := hs.exists_members
  have hlift : Run.lift (expect (get? "name" p)) c = .ok name c := by
    rw [hname]
    rfl
  have hobject : Run.lift (expect (parameterSchema p).members?) c = .ok members c := by
    rw [hmembers]
    rfl
  refine Delivers.of_eq ?_ (bind_of_ok hlift)
  refine Delivers.of_eq ?_ (bind_of_ok hobject)
  refine Delivers.bind ⟨_, _, rfl⟩ fun i c₁ _ => ?_
  exact Delivers.bind (delivers_fillSlot hs i _ c₁) fun _ _ _ => ⟨_, _, rfl⟩

/-- There is a field for an operation that can be read. -/
theorem Conversion.delivers_operationField (hop : op.Readable K) (query : NodeId) (c : Context) :
    Delivers (operationField query op) c := by
  obtain ⟨name, hname⟩ := hop.name
  have hlift : Run.lift (fieldNameOf op) c = .ok name c := by
    rw [hname]
    rfl
  refine Delivers.of_eq ?_ (bind_of_ok hlift)
  have hplain : op.answer.get? "$ref" = none → ∃ s, op.answer.Declares s := by
    intro hnone
    obtain ⟨s, hs, -⟩ := hop.plain hnone
    exact ⟨s, hs⟩
  refine Delivers.bind (delivers_fromProperty hplain (some query) _ _ c) fun field c₁ _ => ?_
  refine Delivers.bind ?_ fun _ _ _ => ⟨field, _, rfl⟩
  have harguments := hop.arguments
  generalize op.listedParameters = parameters at harguments
  clear * - harguments
  induction parameters generalizing c₁ with
  | nil => exact ⟨(), c₁, rfl⟩
  | cons p rest ih =>
    obtain ⟨⟨⟨name, hname⟩, s, hs, -⟩, hrest⟩ := List.forall_mem_cons.1 harguments
    refine Delivers.bind ?_ fun _ c₂ _ => ih c₂ hrest
    exact Delivers.bind (delivers_operationArgument hname hs field c₁) fun _ _ _ => ⟨(), _, rfl⟩

/-! ## Between operations -/

theorem Node.mem_below_addArgument {n : Node} {a k : NodeId} (h : k ∈ (n.addArgument (some a)).below) :
    k ∈ n.below ∨ k = a := by
  rcases hbody : n.body with _ | _ | _ | _ | _ | _ | _ | ⟨slot, arguments, _ | link⟩ | _ <;>
    simp only [addArgument, hbody, below, List.filterMap_append, List.mem_append] at h ⊢
  all_goals first | exact .inl h | skip
  rcases h with (h | h) | h
  · exact .inl (.inl h)
  · exact .inr (List.mem_singleton.1 h)
  · exact .inl (.inr h)

theorem closedFrom_addArguments {parameters : List Json.Members} {n : Nat} (hn : n ≤ c.graph.size)
    (hclosed : c.graph.ClosedFrom n)
    (hadd : (parameters.forM fun parameter => do
      let argument ← Conversion.operationArgument i parameter
      Run.update i (Node.addArgument argument) : Run Unit) c = .ok () c') : c'.graph.ClosedFrom n := by
  induction parameters generalizing c with
  | nil =>
    cases hadd
    exact hclosed
  | cons p rest ih =>
    obtain ⟨u, c₁, hone, hrest⟩ := bind_eq_ok_iff.1 hadd
    obtain ⟨a, c₂, hargument, hone⟩ := bind_eq_ok_iff.1 hone
    have hplanted := planted_operationArgument hargument
    have haindex := hplanted.index
    have hasize := hplanted.sprout.lt_size
    have hclosed₂ : c₂.graph.ClosedFrom n := by
      refine hclosed.kept hn (fun j hj => ?_) hplanted.closed
      rw [hplanted.node_eq j hj]
      exact Node.Kept.refl _
    cases hone
    refine ih ?_ (fun j hj k hk => ?_) hrest
    · simp only [Graph.size_update]
      omega
    · simp only [Graph.node_update_eq] at hk
      split at hk
      · next he =>
        rw [he.1] at hj
        rcases Node.mem_below_addArgument hk with hk | rfl
        · exact hclosed₂ i hj k hk
        · omega
      · exact hclosed₂ j hj k hk

/-- The nodes below new ones are new. -/
theorem closedFrom_operationField (h : Conversion.operationField query op c = .ok i c') :
    c'.graph.ClosedFrom c.graph.size := by
  obtain ⟨name, c₁, hname, h⟩ := bind_eq_ok_iff.1 h
  obtain ⟨-, rfl⟩ := Visit.eq_ok_of_lift hname
  obtain ⟨field, c₂, hfield, h⟩ := bind_eq_ok_iff.1 h
  obtain ⟨u, c₃, hadd, h⟩ := bind_eq_ok_iff.1 h
  cases h
  obtain ⟨-, hplanted, -⟩ := planted_fromProperty hfield
  refine closedFrom_addArguments ?_ hplanted.closed hadd
  have hlt := hplanted.sprout.lt_size
  rw [hplanted.index] at hlt
  exact hlt.le

/-- What a node has gathered does not change as long as nothing changes around what was visited. -/
theorem Graph.Drawn.elsewhere {g g' : Graph} {P : NodeId → Prop} (h : g.Drawn d i) (hP : g.Enclosed P)
    (hsize : g.size ≤ g'.size) (hsame : ∀ j, P j → g'.node j = g.node j)
    (hvisited : ∀ j, (g.node j).visited = true → P j) (hi : (g.node i).visited = true)
    (hchildren : ∀ k, some k ∈ (g.node i).children → P k) : g'.Drawn d i := by
  have hsimilar : ∀ j, P j → j.index < g.size → (g.node j).Similar (g'.node j) := by
    intro j hj _
    rw [hsame j hj]
    exact ⟨rfl, fun _ => rfl⟩
  have hself := hsame i (hvisited i hi)
  refine ⟨?_, ?_, ?_, ?_, ?_, ?_, ?_⟩ <;> simp only [hself]
  · exact h.bare
  · intro kind parts hbody
    obtain ⟨m, hbrings, haligned⟩ := h.composed kind parts hbody
    exact ⟨m, hbrings, haligned.imp fun k p => Graph.DepictsProperty.similar hP hsimilar p k⟩
  · intro members hbody
    obtain ⟨parts, elements, held, hparts, helements, hgathered, hmerged⟩ := h.merged members hbody
    refine ⟨parts, elements, held, hparts, helements, ⟨?_, fun e he => ?_, hgathered.nodup⟩, hmerged⟩
    · refine hgathered.contributes.imp fun w e he => ?_
      obtain ⟨s, hdeclares, hdepicts⟩ := he.member
      exact ⟨⟨s, hdeclares, Graph.Depicts.similar hP hsimilar s _ (hvisited _ he.visited) hdepicts⟩,
        he.holds.congr hsize fun j hj => hsame j (hvisited j hj), he.distinct⟩
    · obtain ⟨w, -, hcontributes⟩ := exists_of_forall₂_left hgathered.contributes.flip he
      exact (hgathered.owns e he).congr (hsame _ (hvisited _ hcontributes.visited))
  · intro first rest hbody
    obtain ⟨u, s, hu, hdeclares, hdepicts, hown⟩ := h.union first rest hbody
    have hPu := hchildren u (by simp [hu])
    exact ⟨u, s, hu, hdeclares, Graph.Depicts.similar hP hsimilar s u hPu hdepicts, hown.congr (hsame u hPu)⟩
  · intro shapes hbody shape hshape
    obtain ⟨k, s, hdeclares, hdepicts, hk⟩ := h.shapes shapes hbody shape hshape
    exact ⟨k, s, hdeclares, Graph.Depicts.similar hP hsimilar s k (hvisited k hk) hdepicts,
      by rwa [hsame k (hvisited k hk)]⟩
  · intro parts hbody u hu
    exact (h.choice parts hbody u hu).congr (hsame u (hchildren u hu))
  · intro k hk
    exact (h.owns k hk).congr (hsame k (hP.below (hvisited i hi) k hk))

namespace Context

/-- A new field of an operation leaves the rest as faithful as it was. -/
theorem Faithful.sown (h : c.Faithful d) (hsown : Sown c c' i) (horacle : c'.oracle = c.oracle) :
    c'.Faithful d := by
  have hkept : ∀ j, j.index < c.graph.size → (c.graph.node j).Kept (c'.graph.node j) := by
    intro j hj
    rw [hsown.node_eq j hj]
    exact Node.Kept.refl _
  refine ⟨horacle ▸ h.oracle, fun ref j hj => ?_, fun j hj => ?_⟩
  · rw [hsown.still.stored? ref] at hj
    obtain ⟨s, hdeclares, hdepicts⟩ := h.stored ref j hj
    exact ⟨s, hdeclares, hdepicts.kept hkept⟩
  · have hlt : j.index < c.graph.size := Nat.lt_of_not_le fun hle => hsown.unvisited hle hj
    have hsame := hsown.node_eq j hlt
    rw [Visited, hsame] at hj
    refine (h.drawn j hj).congr hsown.size_lt.le hkept (fun k hk => ?_) (by rw [hsame]) (by rw [hsame])
      (by rw [hsame])
    exact hsown.node_eq k (Visited.lt_size hk)

end Context

/-- A state between two operations, in which no node leads to the query object. -/
structure Context.Between (d : Document) (query : NodeId) (c : Context) : Prop where
  rest : ∃ A, c.AtRest A d (some query)
  unvisited : ¬c.Visited query
  faithful : c.Faithful d
  unled : ∀ j, j ≠ query → query ∉ (c.graph.node j).below

/-- The field of an operation was made and bound, and its visit is due. -/
structure Context.Awaits (d : Document) (query : NodeId) (op : Operation) (i : NodeId) (c : Context) :
    Prop where
  between : c.Between d query
  due : ∃ B, c.Due B d query i
  serves : c.graph.Serves op i
  portrays : c.graph.Portrays (fun _ => True) i
  parent : (c.graph.node i).parent = some query

/-- The field of an operation was visited. -/
structure Context.Served (query : NodeId) (op : Operation) (i : NodeId) (c : Context) : Prop where
  visited : c.Visited i
  serves : c.graph.Serves op i
  parent : (c.graph.node i).parent = some query

namespace Context.Between

/-- The field of an operation is bound in the query object, to which nothing leads. -/
theorem put (h : c.Between d query) (key : Key) (prop : NodeId) :
    ({ c with graph := c.graph.update query fun n => n.putProperty key prop } : Context).Faithful d := by
  obtain ⟨A, hrest⟩ := h.rest
  obtain ⟨hlt, hobject⟩ := hrest.sound.handmade query rfl
  let g := c.graph.update query fun n => n.putProperty key prop
  have hself : g.node query = (c.graph.node query).putProperty key prop :=
    Graph.node_update_self c.graph hlt _
  have hother : ∀ j, j ≠ query → g.node j = c.graph.node j := fun j hj =>
    Graph.node_update_of_ne c.graph hj _
  have henclosed : c.graph.Enclosed (· ≠ query) := by
    refine ⟨?_, ?_⟩
    · rintro j slot arguments link hbody rfl
      rw [hobject] at hbody
      cases hbody
    · rintro j hj k hk rfl
      exact h.unled j hj hk
  have hne : ∀ j, c.Visited j → j ≠ query := by
    rintro j hj rfl
    exact h.unvisited hj
  have hready : ∀ j, c.Ready (fun _ => False) j → c.Visited j := fun j hj => hj.resolve_right id
  refine ⟨h.faithful.oracle, fun ref j hj => ?_, fun j hj => ?_⟩
  · obtain ⟨s, hdeclares, hdepicts⟩ := h.faithful.stored ref j hj
    have hj' := hne j (hready j (hrest.whole.stored ref j hj))
    refine ⟨s, hdeclares, Graph.Depicts.similar henclosed (fun k hk _ => ?_) s j hj' hdepicts⟩
    rw [hother k hk]
    exact ⟨rfl, fun _ => rfl⟩
  · have hj' : c.Visited j := by
      by_cases he : j = query
      · rw [he, Visited, hself, Node.visited_putProperty] at hj
        rwa [he]
      · rwa [Visited, hother j he] at hj
    refine (h.faithful.drawn j hj').elsewhere henclosed (Graph.size_update _ _ _).ge hother hne hj'
      fun k hk => hne k (hready k (hrest.whole.led j hj' k ?_))
    simp [Node.followed, hk]

/-- The field of an operation is made, and nothing leads to the query object still. -/
theorem sown (h : c.Between d query) (hfield : Conversion.operationField query op c = .ok i c') :
    c'.Between d query := by
  obtain ⟨A, hrest⟩ := h.rest
  obtain ⟨hlt, -⟩ := hrest.sound.handmade query rfl
  obtain ⟨hsown, -⟩ := sown_operationField hfield
  have hclosed := closedFrom_operationField hfield
  refine ⟨⟨_, hrest.sown hsown⟩, ?_, ?_, fun j hj hk => ?_⟩
  · rw [Visited, hsown.node_eq query hlt]
    exact h.unvisited
  · exact h.faithful.sown hsown ((Conversion.silent_operationField query op).oracle_of_ok hfield)
  · by_cases hold : j.index < c.graph.size
    · rw [hsown.node_eq j hold] at hk
      exact h.unled j hj hk
    · have := hclosed j (Nat.le_of_not_lt hold) query hk
      omega

/-- The field of an operation is made and bound in the query object. -/
theorem awaits (h : c.Between d query) (hfield : Conversion.operationField query op c = .ok i c₁)
    (hput : Run.put query i c₁ = .ok () c') : c'.Awaits d query op i := by
  obtain ⟨A, hrest⟩ := h.rest
  obtain ⟨⟨B, hdue⟩, -⟩ := hrest.due h.unvisited hfield hput
  obtain ⟨hsown, -, hparent⟩ := sown_operationField hfield
  have hserving := Conversion.serving_operationField hfield
  have h₁ := h.sown hfield
  obtain ⟨s, -, hname⟩ := hserving.serves.name
  obtain ⟨top, -, hlt⟩ := hdue.budding
  have hne : ∀ j, i.index ≤ j.index → j ≠ query := by
    rintro j hj rfl
    exact hj.not_gt hlt
  rw [put_eq hname] at hput
  cases hput
  have hother : ∀ j, j ≠ query → (c₁.graph.update query fun n => n.putProperty (.text s) i).node j =
      c₁.graph.node j := fun j hj => Graph.node_update_of_ne c₁.graph hj _
  refine ⟨⟨⟨B, hdue.rest⟩, hdue.unvisited, h₁.put (.text s) i, fun j hj => ?_⟩, ⟨B, hdue⟩, ?_, ?_, ?_⟩
  · rw [hother j hj]
    exact h₁.unled j hj
  · exact (hserving.later (Graph.size_update _ _ _).ge fun j hj _ => hother j (hne j hj)).serves
  · exact (stocked_operationField hfield).portrays fun j hj _ => hother j (hne j hj)
  · rw [hother i (hne i le_rfl)]
    exact hparent

end Context.Between

/-! ## Visits -/

namespace Context.Awaits

/-- The visit of the field succeeds if the operation can be read. -/
theorem delivers_visit (h : c.Awaits d query op i) (hd : d.Layered) (hK : d.Readable K)
    (hop : op.Readable K) : Delivers (Visit.visit d i) c := by
  obtain ⟨B, hdue⟩ := h.due
  obtain ⟨top, hbudding, -⟩ := hdue.budding
  have hbegun : c.Sketched B d (some query) (fun j => False ∨ Tree c.graph i j) K :=
    ⟨hdue.rest.sound, hdue.rest.owing hbudding hdue.plain, hdue.rest.lt_size, h.between.faithful,
      hdue.rest.pending hbudding K⟩
  have hle : Visit.declarationDepth d c.graph + (top - i.index) ≤
      Visit.declarationDepth d c.graph + c.graph.size := by
    have := hbudding.sprout.below_size
    omega
  have hrun : Delivers (Visit.visitWithin d (Visit.depthBound d c.graph) i) c :=
    (Visit.achieves_visitWithin hd (Visit.within_raw d c.graph) hK _).delivers hbegun hbudding
      (fun _ hj => hj.elim) hdue.apart (h.serves.portrays hop) (fun _ hs => hs)
      ((Visit.low_of_sprout hbudding.sprout).mono hle) (Visit.covers_depthBound d c c.graph)
  rw [Visit.visit]
  exact Delivers.of_eq hrun (bind_of_ok (m := get) rfl)

/-- After the visit of the field it is between two operations again. -/
theorem visit (h : c.Awaits d query op i) (hd : d.Layered) (hvisit : Visit.visit d i c = .ok () c') :
    c'.Between d query ∧ c'.Served query op i := by
  obtain ⟨B, hdue⟩ := h.due
  obtain ⟨hrest, hquery, hvisited, -⟩ := hdue.visit hvisit
  obtain ⟨top, hbudding, -⟩ := hdue.budding
  obtain ⟨hgrows, -⟩ := hdue.rest.visit hbudding hdue.apart hdue.plain hvisit
  have hfaithful := hdue.rest.faithful_visit h.between.faithful hd hbudding hdue.apart hdue.plain
    h.portrays hvisit
  refine ⟨⟨⟨B, hrest⟩, hquery, hfaithful, fun j hj hk => ?_⟩, hvisited, h.serves.kept hgrows.kept,
    (hgrows.kept i h.serves.offers.lt_size).parent.trans h.parent⟩
  obtain ⟨hlt, -⟩ := hdue.rest.sound.handmade query rfl
  by_cases hold : j.index < c.graph.size
  · rw [(hgrows.kept j hold).below] at hk
    exact h.between.unled j hj hk
  · have := hgrows.closed j (Nat.le_of_not_lt hold) query hk
    omega

end Context.Awaits

/-- The field of an operation that can be read is made, bound and visited. -/
theorem Conversion.delivers_visitOperation (h : c.Between d query) (hd : d.Layered) (hK : d.Readable K)
    (hop : op.Readable K) : Delivers (visitOperation d query op) c := by
  refine Delivers.bind (delivers_operationField hop query c) fun field c₁ hfield => ?_
  obtain ⟨s, -, hname⟩ := (serving_operationField hfield).serves.name
  refine Delivers.bind (delivers_of_ok (put_eq hname query)) fun _ c₂ hput => ?_
  exact Delivers.bind ((h.awaits hfield hput).delivers_visit hd hK hop) fun _ _ _ => ⟨field, _, rfl⟩

/-- An operation was visited. -/
theorem Context.Between.visitOperation (h : c.Between d query) (hd : d.Layered)
    (hvisit : Conversion.visitOperation d query op c = .ok i c') :
    c'.Between d query ∧ c'.Served query op i := by
  obtain ⟨field, c₁, hfield, hvisit⟩ := bind_eq_ok_iff.1 hvisit
  obtain ⟨u, c₂, hput, hvisit⟩ := bind_eq_ok_iff.1 hvisit
  obtain ⟨u', c₃, hvisit, hreturn⟩ := bind_eq_ok_iff.1 hvisit
  cases hreturn
  exact (h.awaits hfield hput).visit hd hvisit

/-! ## Later operations -/

/-- The graph of a later state: what was visited stays as it is, and all nodes are kept apart from the query
object. -/
structure Context.Outlives (query : NodeId) (c c' : Context) : Prop where
  spares : c.Spares c'.graph
  kept : ∀ j, j ≠ query → j.index < c.graph.size → (c.graph.node j).Kept (c'.graph.node j)

theorem Context.Outlives.congr {c₁ c₁' : Context} (h : c.Outlives query c') (hgraph : c₁.graph = c.graph)
    (hgraph' : c₁'.graph = c'.graph) : c₁.Outlives query c₁' := by
  obtain ⟨hspares, hkept⟩ := h
  refine ⟨fun j hj => ?_, ?_⟩
  · rw [Visited, hgraph] at hj
    rw [hgraph, hgraph', hspares j hj]
  · rw [hgraph, hgraph']
    exact hkept

/-- The visit of an operation leaves those before it as they are. -/
theorem Context.Between.outlives (h : c.Between d query)
    (hvisit : Conversion.visitOperation d query op c = .ok i c') : c.Outlives query c' := by
  obtain ⟨A, hrest⟩ := h.rest
  obtain ⟨-, -, -, -, hspares, -⟩ := hrest.visitOperation h.unvisited hvisit
  refine ⟨hspares, fun j hj hlt => ?_⟩
  obtain ⟨field, c₁, hfield, hvisit⟩ := bind_eq_ok_iff.1 hvisit
  obtain ⟨u, c₂, hput, hvisit⟩ := bind_eq_ok_iff.1 hvisit
  obtain ⟨u', c₃, hvisit, hreturn⟩ := bind_eq_ok_iff.1 hvisit
  cases hreturn
  obtain ⟨B, hdue⟩ := (h.awaits hfield hput).due
  obtain ⟨top, hbudding, -⟩ := hdue.budding
  obtain ⟨hgrows, -⟩ := hdue.rest.visit hbudding hdue.apart hdue.plain hvisit
  obtain ⟨hsown, -⟩ := sown_operationField hfield
  obtain ⟨s, -, hname⟩ := (Conversion.serving_operationField hfield).serves.name
  rw [put_eq hname] at hput
  cases hput
  have hsame : (c₁.graph.update query fun n => n.putProperty (.text s) i).node j = c.graph.node j := by
    rw [Graph.node_update_of_ne c₁.graph hj, hsown.node_eq j hlt]
  rw [← hsame]
  refine hgrows.kept j ?_
  rw [Graph.size_update]
  exact hlt.trans hsown.size_lt

/-- The field of an operation still stands for it later. -/
theorem Context.Served.outlived (h : c.Served query op i) (hc : c.Between d query)
    (hlater : c.Outlives query c') : c'.Served query op i := by
  obtain ⟨A, hrest⟩ := hc.rest
  obtain ⟨-, hobject⟩ := hrest.sound.handmade query rfl
  have hself := hlater.spares i h.visited
  refine ⟨?_, h.serves.elsewhere (P := (· ≠ query)) ⟨?_, ?_⟩ ?_ hlater.kept, ?_⟩
  · rw [Visited, hself]
    exact h.visited
  · rintro j slot arguments link hbody rfl
    rw [hobject] at hbody
    cases hbody
  · rintro j hj k hk rfl
    exact hc.unled j hj hk
  · rintro a slot hbody rfl
    rw [hobject] at hbody
    cases hbody
  · rw [hself]
    exact h.parent

end ApiGraph
