import ApiGraph.Conversion
import ApiGraph.Proofs.Finishing.Visits
import ApiGraph.Proofs.Visiting.Sequences

/-!
# Fields of operations

The field of an operation is made between visits. Its arguments are added one by one, and then it
becomes a property of the query object.

* `planted_fromProperty`, `planted_fromParameter` — a new property, and a new argument;
* `Sown` — the field of an operation at the end of a graph, in which nothing else has changed;
* `sown_operationField` — the field of an operation is such a field;
* `Context.AtRest` — a state between visits, in which nothing is owed;
* `Context.Rooted` — the query object with its fields, not yet visited.
-/

namespace ApiGraph

open OrderedMap Context

variable {A : NodeId → Prop} {d : Document} {q : Option NodeId} {c c' c₁ c₂ : Context}
  {i a query : NodeId}

/-! ## Properties and arguments -/

/-- A node with a slot, and the node of its type. -/
theorem planted_fillSlot {n : Node} {schema : Json} {body : NodeId → Body}
    (h : Build.fillSlot (c.graph.alloc n).1 schema body { c with graph := (c.graph.alloc n).2 } =
      .ok () c')
    (hloose : ∀ type, ({ n with body := body type, children := [some type] } : Node).Loose)
    (hbelow : ∀ type, ({ n with body := body type, children := [some type] } : Node).below = [type])
    (hbody : ∀ type, body type ≠ .object) (hprops : n.props = []) (hattached : n.attached = none) :
    ({ c with graph := c'.graph } : Context).Still c' ∧
      Planted c.graph c'.graph (c.graph.alloc n).1 ∧
      ∃ type, c'.graph.node (c.graph.alloc n).1 =
        { n with body := body type, children := [some type] } := by
  obtain ⟨type, c₁, hschema, hupdate⟩ := bind_eq_ok_iff.1 h
  have hsprouted := sprouted_fromSchema hschema
  cases hupdate
  obtain ⟨hplanted, hself⟩ := Graph.planted_update
    (f := fun n => { n with body := body type, children := [some type] }) hsprouted.planted
    (hloose type) (hbelow type) (hbody type) hprops rfl hattached hsprouted.owns
  exact ⟨⟨rfl, hsprouted.still.types, hsprouted.still.transcript⟩, hplanted, type, hself⟩

/-- A new property takes no arguments. Its type is a reference if its declaration is one. -/
theorem planted_fromProperty {parent : Option NodeId} {name : String} {schema required : Json}
    (h : Build.fromProperty parent (.str name) schema required c = .ok i c') :
    ({ c with graph := c'.graph } : Context).Still c' ∧ Planted c.graph c'.graph i ∧
      (c'.graph.node i).name = .str name ∧ ∃ slot link,
        (c'.graph.node i).body = .property slot [] link ∧
          link.isSome = (schema.get? "$ref").isSome ∧ (c'.graph.node i).parent = parent := by
  rw [Build.fromProperty] at h
  cases hget : schema.get? "$ref" with
  | some ref =>
    simp only [hget] at h
    cases h
    have hplanted := Graph.planted_alloc c.graph (n :=
      { body := .property ⟨required, schema, none⟩ [] (some ⟨ref, none⟩)
        name := .str name
        parent := parent }) (Graph.loose_property rfl fun _ => rfl) (by simp) rfl rfl rfl rfl
    have hself := Graph.node_alloc_self c.graph
      { body := .property ⟨required, schema, none⟩ [] (some ⟨ref, none⟩)
        name := .str name
        parent := parent }
    exact ⟨Still.refl _, hplanted, congrArg Node.name hself, _, some ⟨ref, none⟩,
      congrArg Node.body hself, rfl, congrArg Node.parent hself⟩
  | none =>
    simp only [hget] at h
    obtain ⟨j, c₁, halloc, h⟩ := bind_eq_ok_iff.1 h
    cases halloc
    obtain ⟨u, c₂, hfill, h⟩ := bind_eq_ok_iff.1 h
    cases h
    obtain ⟨hstill, hplanted, type, hself⟩ := planted_fillSlot hfill
      (fun _ => Graph.loose_property rfl (by simp)) (fun _ => rfl) (by simp) rfl rfl
    exact ⟨hstill, hplanted, congrArg Node.name hself, _, none, congrArg Node.body hself, rfl,
      congrArg Node.parent hself⟩

/-- A new argument has the name of its parameter, and a slot. -/
theorem planted_fromParameter {parent : Option NodeId} {name schema required : Json}
    (h : Build.fromParameter parent name schema required c = .ok i c') :
    ({ c with graph := c'.graph } : Context).Still c' ∧ Planted c.graph c'.graph i ∧
      (c'.graph.node i).name = name ∧ (∃ slot, (c'.graph.node i).body = .parameter slot) ∧
      (c'.graph.node i).parent = parent := by
  obtain ⟨members, c₁, hmembers, h⟩ := bind_eq_ok_iff.1 h
  obtain ⟨-, rfl⟩ := Visit.eq_ok_of_lift hmembers
  obtain ⟨j, c₂, halloc, h⟩ := bind_eq_ok_iff.1 h
  cases halloc
  obtain ⟨u, c₃, hfill, h⟩ := bind_eq_ok_iff.1 h
  cases h
  obtain ⟨hstill, hplanted, type, hself⟩ := planted_fillSlot hfill
    (fun _ => ⟨rfl, rfl, (by rintro ⟨⟩), (by simp), rfl⟩) (fun _ => rfl) (by simp) rfl rfl
  exact ⟨hstill, hplanted, congrArg Node.name hself, ⟨_, congrArg Node.body hself⟩,
    congrArg Node.parent hself⟩

/-! ## Fields -/

/-- A property at the end of a graph, with the arguments that it takes. Nothing else has changed. -/
structure Sown (c c' : Context) (i : NodeId) : Prop where
  still : ({ c with graph := c'.graph } : Context).Still c'
  index : i.index = c.graph.size
  node_eq : ∀ j, j.index < c.graph.size → c'.graph.node j = c.graph.node j
  sprout : Sprout c'.graph i c'.graph.size
  loose : ∀ j, c.graph.size < j.index → (c'.graph.node j).Loose
  property : ∃ s, (c'.graph.node i).IsProperty s
  plain : ∀ slot arguments link, (c'.graph.node i).body = .property slot arguments (some link) →
    slot.type = none
  spurned : ∀ a ∈ (c'.graph.node i).spurned, c.graph.size < a.index ∧ a.index < c'.graph.size
  sprigs : ∀ a ∈ (c'.graph.node i).spurned, ∃ top, Sprout c'.graph a top

namespace Sown

theorem size_lt (h : Sown c c' i) : c.graph.size < c'.graph.size := by
  have := h.sprout.inside
  have := h.index
  omega

theorem of_planted (hstill : ({ c with graph := c'.graph } : Context).Still c')
    (hp : Planted c.graph c'.graph i) {s : String} (hname : (c'.graph.node i).name = .str s)
    {slot : Slot} {link : Option Link} (hbody : (c'.graph.node i).body = .property slot [] link) :
    Sown c c' i := by
  refine ⟨hstill, hp.index, hp.node_eq, hp.sprout, fun j hj => hp.loose j hj.le,
    ⟨s, hname, slot, [], link, hbody⟩, fun slot' arguments link' hbody' => ?_, ?_, ?_⟩
  · exact ((hp.loose i hp.index.ge).plain slot' arguments link' hbody').1
  all_goals
    rw [show (c'.graph.node i).spurned = [] by simp [Node.spurned, Node.arguments, hbody]]
    simp

/-- One more argument. -/
theorem addArgument (h : Sown c c₁ i) (hp : Planted c₁.graph c₂.graph a) (hown : c₂.graph.Owns i a)
    (hstill : ({ c₁ with graph := c₂.graph } : Context).Still c₂)
    (hadd : Run.update i (Node.addArgument (some a)) c₂ = .ok () c') :
    Sown c c' i ∧ (c'.graph.node i).arguments = (c₁.graph.node i).arguments ++ [some a] ∧
      (c'.graph.node i).body.link?.isSome = (c₁.graph.node i).body.link?.isSome ∧
      (c'.graph.node i).parent = (c₁.graph.node i).parent := by
  have hin := h.sprout.lt_size
  have hsize := h.size_lt
  have hindex := h.index
  have haindex := hp.index
  have hasize := hp.sprout.inside
  have hold := hp.node_eq i hin
  obtain ⟨s, hname, slot, arguments, link, hbody⟩ := h.property
  have hsprout : Sprout c₂.graph i c₁.graph.size :=
    h.sprout.congr (by omega) fun k _ hk => hp.node_eq k hk
  have hself := Graph.node_update_self c₂.graph hsprout.lt_size (Node.addArgument (some a))
  rw [hold, Node.addArgument_of_property hbody] at hself
  have hother : ∀ j, j ≠ i → (c₂.graph.update i (Node.addArgument (some a))).node j =
      c₂.graph.node j := fun j hj => Graph.node_update_of_ne c₂.graph hj _
  have hgraph : c'.graph = c₂.graph.update i (Node.addArgument (some a)) := by
    cases hadd
    rfl
  have hstill' : ({ c with graph := c'.graph } : Context).Still c' := by
    cases hadd
    have hlast : c₁.Still { c₂ with graph := c₁.graph } := ⟨rfl, hstill.types, hstill.transcript⟩
    have hboth := h.still.trans hlast
    exact ⟨rfl, hboth.types, hboth.transcript⟩
  rw [← hgraph] at hself hother
  have hsize' : c'.graph.size = c₂.graph.size := by rw [hgraph, Graph.size_update]
  -- the arguments so far, and the new one
  have hspurned : ∀ b ∈ (c'.graph.node i).spurned, b ∈ (c₁.graph.node i).spurned ∨ b = a := by
    intro b hb
    rw [hself, Node.mem_spurned_iff] at hb
    obtain ⟨_, _, link', ⟨⟩, hb⟩ := hb
    rcases List.mem_append.1 hb with hb | hb
    · exact .inl (Node.mem_spurned_iff.2 ⟨slot, arguments, link', hbody, hb⟩)
    · exact .inr (Option.some.inj (List.mem_singleton.1 hb))
  refine ⟨⟨hstill', hindex, fun j hj => ?_, ?_, fun j hj => ?_, ?_, ?_, fun b hb => ?_,
    fun b hb => ?_⟩, ?_, ?_, by rw [hself]⟩
  · have hne : j ≠ i := by
      rintro rfl
      omega
    rw [hother j hne, hp.node_eq j (by omega), h.node_eq j hj]
  · rw [hsize', hgraph]
    exact hsprout.addArgument (by rwa [hold]) hp.sprout haindex.ge hown
  · have hne : j ≠ i := by
      rintro rfl
      omega
    rw [hother j hne]
    by_cases hj' : j.index < c₁.graph.size
    · rw [hp.node_eq j hj']
      exact h.loose j hj
    · exact hp.loose j (Nat.not_lt.1 hj')
  · rw [hself]
    exact ⟨s, hname, slot, _, link, rfl⟩
  · rw [hself]
    rintro _ _ link' ⟨⟩
    exact h.plain slot arguments link' hbody
  · rcases hspurned b hb with hb | rfl
    · have := h.spurned b hb
      omega
    · omega
  · rw [hgraph]
    rcases hspurned b hb with hb | rfl
    · obtain ⟨top, hsprig⟩ := h.sprigs b hb
      have hafter := (h.spurned b hb).1
      have htop := hsprig.below_size
      exact ⟨top, (hsprig.congr (by omega) fun k _ hk => hp.node_eq k (by omega)).update_of_lt
        (by omega) _⟩
    · exact ⟨_, hp.sprout.update_of_lt (by omega) _⟩
  · rw [hself, Node.arguments, Node.arguments, hbody]
  · rw [hself, hbody]
    rfl

/-- The arguments for parameters, one by one. -/
theorem addArguments {parameters : List Json.Members} (h : Sown c c₁ i)
    (hadd : (parameters.forM fun parameter => do
      let argument ← Conversion.operationArgument i parameter
      Run.update i (Node.addArgument argument) : Run Unit) c₁ = .ok () c') :
    Sown c c' i ∧ (∃ more : List NodeId, more.length = parameters.length ∧
        (c'.graph.node i).arguments = (c₁.graph.node i).arguments ++ more.map some) ∧
      (c'.graph.node i).body.link?.isSome = (c₁.graph.node i).body.link?.isSome ∧
      (c'.graph.node i).parent = (c₁.graph.node i).parent := by
  induction parameters generalizing c₁ with
  | nil =>
    cases hadd
    exact ⟨h, ⟨[], rfl, (List.append_nil _).symm⟩, rfl, rfl⟩
  | cons parameter rest ih =>
    obtain ⟨u, c₂, hone, hrest⟩ := bind_eq_ok_iff.1 hadd
    obtain ⟨a, c₃, hargument, hupdate⟩ := bind_eq_ok_iff.1 hone
    obtain ⟨name, c₄, hname, hargument⟩ := bind_eq_ok_iff.1 hargument
    obtain ⟨-, rfl⟩ := Visit.eq_ok_of_lift hname
    obtain ⟨hstill, hplanted, -, ⟨slot, hbody⟩, hparent⟩ := planted_fromParameter hargument
    have hown : c₃.graph.Owns i a := ⟨hparent, fun hslot => by rw [Node.slot?, hbody] at hslot; cases hslot⟩
    obtain ⟨h', harguments, hlink, hparent⟩ := h.addArgument hplanted hown hstill hupdate
    obtain ⟨hall, ⟨more, hlength, hmore⟩, hlink', hparent'⟩ := ih h' hrest
    refine ⟨hall, ⟨a :: more, by rw [List.length_cons, hlength, List.length_cons], ?_⟩,
      hlink'.trans hlink, hparent'.trans hparent⟩
    rw [hmore, harguments, List.append_assoc]
    rfl

theorem sound (h : Sown c c' i) (hs : c.Sound d q) : c'.Sound d q := by
  refine h.still.sound (hs.setGraph h.size_lt.le (fun j hj => ?_) (fun j link t hj hlink ht => ?_)
    fun j hj => ?_)
  · rw [h.node_eq j hj]
    exact Node.Kept.refl _
  · rw [h.node_eq j hj] at hlink
    exact hs.linked j link t hlink ht
  · rcases Nat.eq_or_lt_of_le hj with he | hlt
    · obtain rfl : i = j := Graph.eq_of_index_eq (h.index.trans he)
      obtain ⟨s, -, slot, arguments, link, hbody⟩ := h.property
      refine ⟨h.sprout.bud.target, fun hslot => ?_⟩
      rw [Node.slot?, hbody] at hslot
      cases hslot
    · exact (h.loose j hlt).unlinked

theorem unvisited (h : Sown c c' i) {j : NodeId} (hj : c.graph.size ≤ j.index) : ¬c'.Visited j := by
  have hnot : (c'.graph.node j).visited = false := by
    rcases Nat.eq_or_lt_of_le hj with he | hlt
    · obtain rfl : i = j := Graph.eq_of_index_eq (h.index.trans he)
      exact h.sprout.bud.unvisited
    · exact (h.loose j hlt).unvisited
  rw [Visited, hnot]
  exact Bool.false_ne_true

theorem budding (h : Sown c c' i) (hs : c.Sound d q) : c'.Budding i c'.graph.size := by
  refine ⟨h.sprout, fun j hj _ hmem => ?_⟩
  rw [h.still.entered] at hmem
  have hlt : j.index < c.graph.size := hs.entered_lt j hmem
  have := h.index
  omega

/-- No visit of the field goes to the arguments of a reference. -/
theorem not_tree_of_spurned (h : Sown c c' i) (ha : a ∈ (c'.graph.node i).spurned) :
    ¬Tree c'.graph i a := by
  intro ht
  obtain ⟨slot, arguments, link, hbody, -⟩ := Node.mem_spurned_iff.1 ha
  have hbelow : (c'.graph.node i).below = [] := by rw [Node.below, hbody]
  rcases tree_iff.1 ht with rfl | ⟨k, hk, -⟩
  · have := (h.spurned a ha).1
    have := h.index
    omega
  · rw [hbelow] at hk
    cases hk

theorem plain_of_tree (h : Sown c c' i) {j : NodeId} (hj : Tree c'.graph i j) {slot : Slot}
    {arguments : List (Option NodeId)} {link : Link}
    (hbody : (c'.graph.node j).body = .property slot arguments (some link)) :
    slot.type = none ∧ ∀ a, some a ∈ arguments → a ∈ (c'.graph.node i).spurned := by
  by_cases hne : j = i
  · rw [hne] at hbody
    exact ⟨h.plain slot arguments link hbody, fun a ha =>
      Node.mem_spurned_iff.2 ⟨slot, arguments, link, hbody, ha⟩⟩
  · have hlt : c.graph.size < j.index := by
      have := (h.sprout.tree_bounds hj).1
      have := h.index
      have : i.index ≠ j.index := fun he => hne (Graph.eq_of_index_eq he).symm
      omega
    obtain ⟨htype, rfl⟩ := (h.loose j hlt).plain slot arguments link hbody
    exact ⟨htype, fun a ha => absurd ha List.not_mem_nil⟩

end Sown

/-- The field of an operation is made for the query object, and takes an argument for each parameter. Its
type is a reference if the answer is declared by one. -/
theorem sown_operationField {op : Operation}
    (h : Conversion.operationField query op c = .ok i c') :
    Sown c c' i ∧ ((c'.graph.node i).spurned = [] ↔
      op.listedParameters = [] ∨ (op.response.orElse (.obj [])).get? "$ref" = none) ∧
      (c'.graph.node i).parent = some query := by
  obtain ⟨name, c₁, hname, h⟩ := bind_eq_ok_iff.1 h
  obtain ⟨-, rfl⟩ := Visit.eq_ok_of_lift hname
  obtain ⟨field, c₂, hfield, h⟩ := bind_eq_ok_iff.1 h
  obtain ⟨u, c₃, hadd, h⟩ := bind_eq_ok_iff.1 h
  cases h
  obtain ⟨hstill, hplanted, hname', slot, link, hbody, hlink, hparent⟩ := planted_fromProperty hfield
  obtain ⟨hsown, ⟨more, hlength, hmore⟩, hlink', hparent'⟩ :=
    (Sown.of_planted hstill hplanted hname' hbody).addArguments hadd
  refine ⟨hsown, ?_, hparent'.trans hparent⟩
  have harguments : (c₂.graph.node i).arguments = [] := by rw [Node.arguments, hbody]
  have hisSome : (c₂.graph.node i).body.link?.isSome = link.isSome := by rw [hbody]; rfl
  rw [harguments, List.nil_append] at hmore
  rw [hisSome, hlink] at hlink'
  rw [Node.spurned, hlink', hmore, List.filterMap_map]
  have hid : more.filterMap (id ∘ some) = more := List.filterMap_some
  rw [hid, ← List.length_eq_zero_iff (l := op.listedParameters), ← hlength,
    List.length_eq_zero_iff]
  cases (op.response.orElse (.obj [])).get? "$ref" <;> simp

/-! ## Between visits -/

/-- A state between visits, in which nothing is owed. -/
structure Context.AtRest (A : NodeId → Prop) (d : Document) (q : Option NodeId) (c : Context) :
    Prop where
  sound : c.Sound d q
  whole : Whole A (fun _ => False) c
  lt_size : ∀ a, A a → a.index < c.graph.size

theorem Context.AtRest.still (h : c.AtRest A d q) (hstill : c.Still c') : c'.AtRest A d q := by
  refine ⟨hstill.sound h.sound, h.whole.still hstill, ?_⟩
  rw [hstill.graph]
  exact h.lt_size

/-- A new field rests until it is visited. -/
theorem Context.AtRest.sown (h : c.AtRest A d q) (hsown : Sown c c' i) :
    c'.AtRest (fun a => A a ∨ a ∈ (c'.graph.node i).spurned) d q := by
  have hvisited : ∀ j, c'.Visited j → c.Visited j := by
    intro j hj
    have hlt : j.index < c.graph.size := Nat.lt_of_not_le fun hle => hsown.unvisited hle hj
    rw [Visited, hsown.node_eq j hlt] at hj
    exact hj
  refine ⟨hsown.sound h.sound, h.whole.elsewhere hsown.size_lt.le
    (fun j hj => hsown.node_eq j hj.lt_size) hvisited hsown.still.stored? ?_ (fun a => .inl) ?_, ?_⟩
  · obtain ⟨new, hnew, -⟩ := hsown.still.transcript
    exact ⟨new, hnew.symm⟩
  · rintro a (ha | ha) hvisit
    · exact h.whole.spurned a ha (hvisited a hvisit)
    · exact hsown.unvisited (hsown.spurned a ha).1.le hvisit
  · rintro a (ha | ha)
    · exact (h.lt_size a ha).trans hsown.size_lt
    · exact (hsown.spurned a ha).2

/-- A property is bound in the query object, which is not stored. -/
theorem Context.Sound.put (hs : c.Sound d (some query)) (key : Key) (prop : NodeId) :
    ({ c with graph := c.graph.update query fun n => n.putProperty key prop } : Context).Sound d
      (some query) := by
  obtain ⟨hlt, hobject⟩ := hs.handmade query rfl
  have hself := Graph.node_update_self c.graph hlt fun n => n.putProperty key prop
  have hother : ∀ j, j ≠ query → (c.graph.update query fun n => n.putProperty key prop).node j =
      c.graph.node j := fun j hj => Graph.node_update_of_ne c.graph hj _
  have hsize := Graph.size_update c.graph query fun n => n.putProperty key prop
  refine ⟨hs.types_eq, hs.distinct, fun ref j hj => ?_, fun j link t hlink ht => ?_,
    fun j hq hslot hname => ?_, fun j hj => ?_, hs.once, fun j hj => ?_⟩
  · obtain ⟨htext, hjlt, hq, hbuilt⟩ := hs.built ref j hj
    simp only [hsize, hother j fun he => hq (by rw [he])]
    exact ⟨htext, hjlt, hq, hbuilt⟩
  · by_cases hj : j = query
    · rw [hj] at hlink
      simp only [hself, Node.body_putProperty, hobject, Body.link?] at hlink
      cases hlink
    · simp only [hother j hj] at hlink
      exact hs.linked j link t hlink ht
  · simp only [hother j fun he => hq (by rw [he])] at hslot hname ⊢
    exact hs.named j hq hslot hname
  · simp only [hsize]
    exact hs.entered_lt j hj
  · cases hj
    simp only [hsize, hself, Node.body_putProperty]
    exact ⟨hlt, hobject⟩

theorem Context.AtRest.put (h : c.AtRest A d (some query)) (hq : ¬c.Visited query) {s : String}
    (hprop : (c.graph.node i).IsProperty s) (hput : Run.put query i c = .ok () c') :
    c'.AtRest A d (some query) ∧ ¬c'.Visited query := by
  rw [put_eq hprop.1] at hput
  cases hput
  have hlt := (h.sound.handmade query rfl).1
  have hvisited : ∀ j, Context.Visited
      { c with graph := c.graph.update query fun n => n.putProperty (.text s) i } j → c.Visited j := by
    intro j hj
    by_cases he : j = query
    · rw [he] at hj ⊢
      simp only [Visited, Graph.node_update_self c.graph hlt, Node.visited_putProperty] at hj
      exact hj
    · simp only [Visited, Graph.node_update_of_ne c.graph he] at hj
      exact hj
  refine ⟨⟨h.sound.put _ _, h.whole.elsewhere (Graph.size_update c.graph query _).ge (fun j hj => ?_)
    hvisited (fun _ => rfl) (List.suffix_refl _) (fun _ => id) fun a ha hvisit => ?_, fun a ha => ?_⟩,
    fun hvisit => hq (hvisited query hvisit)⟩
  · exact Graph.node_update_of_ne c.graph (by rintro rfl; exact hq hj) _
  · exact h.whole.spurned a ha (hvisited a hvisit)
  · simp only [Graph.size_update]
    exact h.lt_size a ha

/-- When a visit begins, those of the nodes of its tree are owed. -/
theorem Context.AtRest.owing {top : Nat} (h : c.AtRest A d q) (hb : c.Budding i top)
    (hplain : ∀ j, Tree c.graph i j → ∀ slot arguments link,
      (c.graph.node j).body = .property slot arguments (some link) →
        slot.type = none ∧ ∀ a, some a ∈ arguments → A a) :
    Whole A (fun j => False ∨ Tree c.graph i j) c :=
  h.whole.grow ((Still.refl c).grows (P := fun _ => True)) (fun _ _ => trivial) (by simp) (fun _ => id)
    (hb.sprout.owing hplain) fun _ _ => .inl

/-- A visit between visits finishes what it begins. -/
theorem Context.AtRest.visit {top : Nat} (h : c.AtRest A d q) (hb : c.Budding i top)
    (hA : ∀ a, A a → ¬Tree c.graph i a)
    (hplain : ∀ j, Tree c.graph i j → ∀ slot arguments link,
      (c.graph.node j).body = .property slot arguments (some link) →
        slot.type = none ∧ ∀ a, some a ∈ arguments → A a)
    (hvisit : Visit.visit d i c = .ok () c') :
    c.Grows (c.Outside i top) c' ∧ c'.AtRest A d q ∧ c'.Visited i := by
  have hvisit : Visit.visitWithin d (Visit.depthBound d c.graph) i c = .ok () c' := hvisit
  obtain ⟨hgrows, hsound, -⟩ := (visits_visitWithin _ h.sound hb).of_ok hvisit
  obtain ⟨hwhole, hvisited⟩ := Visit.finishes_visitWithin _ h.sound hb (by simp)
    (fun a ha => ⟨h.lt_size a ha, hA a ha⟩) (h.owing hb hplain) hvisit
  exact ⟨hgrows, ⟨hsound, hwhole, fun a ha => (h.lt_size a ha).trans_le hgrows.size_le⟩, hvisited⟩

/-- A reference is resolved between visits. -/
theorem Context.AtRest.resolve {owner : Option NodeId} {ref : Json} {t : NodeId}
    (h : c.AtRest A d q) (hresolve : Visit.resolveRef d owner ref c = .ok t c') :
    c'.AtRest A d q := by
  have hresolve : Visit.resolve d (Visit.visitWithin d (Visit.depthBound d c.graph)) owner ref c =
      .ok t c' := hresolve
  obtain ⟨hgrows, hsound, hwhole, -⟩ := Visit.whole_resolve (Visit.finishes_visitWithin _)
    (visits_visitWithin _) h.sound h.lt_size h.whole hresolve
  exact ⟨hsound, hwhole, fun a ha => (h.lt_size a ha).trans_le hgrows.size_le⟩

/-! ## The query object -/

/-- The trees of the fields of an object, and those of the nodes of a set `A`, lie side by side after the
object. -/
structure Graph.Laid (A : NodeId → Prop) (g : Graph) (object : NodeId) (ends : NodeId → Nat) :
    Prop where
  fields : ∀ k ∈ (g.node object).below, object.index < k.index ∧ Sprout g k (ends k)
  apart : ∀ j ∈ (g.node object).below, ∀ k ∈ (g.node object).below, j ≠ k →
    ends j ≤ k.index ∨ ends k ≤ j.index
  sprigs : ∀ a, A a → object.index < a.index ∧ (g.node a).Loose ∧ ∃ top, Sprout g a top ∧
    ∀ k ∈ (g.node object).below, ends k ≤ a.index ∨ top ≤ k.index

/-- The query object with its fields, before it is visited. -/
structure Context.Rooted (A : NodeId → Prop) (d : Document) (query : NodeId) (c : Context) :
    Prop where
  rest : c.AtRest A d (some query)
  budding : c.Budding query c.graph.size
  apart : ∀ a, A a → ¬Tree c.graph query a
  plain : ∀ j, Tree c.graph query j → ∀ slot arguments link,
    (c.graph.node j).body = .property slot arguments (some link) →
      slot.type = none ∧ ∀ a, some a ∈ arguments → A a
  laid : ∃ ends, c.graph.Laid A query ends

/-- A new object made by hand is not stored. -/
theorem Context.Sound.alloc {n : Node} (hs : c.Sound d none) (hn : n.body = .object) :
    ({ c with graph := (c.graph.alloc n).2 } : Context).Sound d (some (c.graph.alloc n).1) := by
  have hself := Graph.node_alloc_self c.graph n
  have hsize := Graph.size_alloc c.graph n
  -- a node of the new graph is an old one, the new one, or none at all
  have hcase : ∀ j : NodeId, j.index < c.graph.size ∧ (c.graph.alloc n).2.node j = c.graph.node j ∨
      j = (c.graph.alloc n).1 ∨ (c.graph.alloc n).2.node j = { body := .bare } := by
    intro j
    rcases Nat.lt_trichotomy j.index c.graph.size with hlt | he | hlt
    · exact .inl ⟨hlt, Graph.node_alloc_of_lt c.graph n hlt⟩
    · exact .inr (.inl (Graph.eq_of_index_eq he))
    · exact .inr (.inr (Graph.node_of_size_le (by rw [hsize]; exact hlt)))
  refine ⟨hs.types_eq, hs.distinct, fun ref j hj => ?_, fun j link t hlink ht => ?_,
    fun j hq hslot hname => ?_, fun j hj => ?_, hs.once, fun j hj => ?_⟩
  · obtain ⟨htext, hlt, -, hbuilt⟩ := hs.built ref j hj
    simp only [hsize, Graph.node_alloc_of_lt c.graph n hlt]
    refine ⟨htext, Nat.lt_succ_of_lt hlt, fun he => ?_, hbuilt⟩
    obtain rfl := Option.some.inj he
    exact hlt.false
  · simp only at hlink
    rcases hcase j with ⟨-, hnode⟩ | rfl | hnode
    · rw [hnode] at hlink
      exact hs.linked j link t hlink ht
    · rw [hself, hn] at hlink
      cases hlink
    · rw [hnode] at hlink
      cases hlink
  · simp only at hslot hname ⊢
    rcases hcase j with ⟨-, hnode⟩ | he | hnode
    · rw [hnode] at hslot hname ⊢
      exact hs.named j (by simp) hslot hname
    · exact absurd (congrArg some he.symm) hq
    · rw [hnode] at hname
      cases hname
  · simp only [hsize]
    exact Nat.lt_succ_of_lt (hs.entered_lt j hj)
  · cases hj
    simp only [hsize, hself]
    exact ⟨Nat.lt_succ_self _, hn⟩

theorem Context.AtRest.newQuery {config : Config} (h : c.AtRest (fun _ => False) d none)
    (hnew : Conversion.newQuery config c = .ok query c') : c'.Rooted (fun _ => False) d query := by
  let n : Node := { body := .object, name := config.queryType }
  obtain ⟨rfl, rfl⟩ : query = (c.graph.alloc n).1 ∧
      c' = { c with graph := (c.graph.alloc n).2 } := by
    cases hnew
    exact ⟨rfl, rfl⟩
  have hself : (c.graph.alloc n).2.node (c.graph.alloc n).1 = n := Graph.node_alloc_self c.graph n
  have hsize := Graph.size_alloc c.graph n
  have hbud : (c.graph.alloc n).2.Bud (c.graph.alloc n).1 := by
    refine ⟨?_, ?_, ?_, ?_, ?_, ?_, ?_, ?_, ?_⟩ <;> rw [hself] <;> try rfl
    · simp [n]
    · rintro _ ⟨⟩
    · exact fun _ => rfl
    · exact fun _ => rfl
    · rintro _ ⟨⟩
    · rintro _ ⟨⟩
  have hbelow : ((c.graph.alloc n).2.node (c.graph.alloc n).1).below = [] := by
    rw [hself]
    rfl
  have htree : ∀ j, Tree (c.graph.alloc n).2 (c.graph.alloc n).1 j → j = (c.graph.alloc n).1 := by
    intro j hj
    rcases tree_iff.1 hj with he | ⟨k, hk, -⟩
    · exact he
    · rw [hbelow] at hk
      cases hk
  have hvisited : ∀ j, Context.Visited { c with graph := (c.graph.alloc n).2 } j → c.Visited j := by
    intro j hj
    simp only [Visited] at hj
    rcases Nat.lt_trichotomy j.index c.graph.size with hlt | he | hlt
    · rwa [Graph.node_alloc_of_lt c.graph n hlt] at hj
    · obtain rfl : (c.graph.alloc n).1 = j := Graph.eq_of_index_eq he.symm
      rw [hself] at hj
      cases hj
    · rw [Graph.node_of_size_le (by rw [hsize]; exact hlt)] at hj
      cases hj
  refine ⟨⟨h.sound.alloc rfl, ?_, (by simp)⟩, ⟨?_, fun j hj _ hmem => ?_⟩, (by simp),
    fun j hj slot arguments link hbody => ?_, fun _ => 0, ?_, ?_, (by simp)⟩
  · exact h.whole.elsewhere (hsize ▸ Nat.le_succ _)
      (fun j hj => Graph.node_alloc_of_lt c.graph n hj.lt_size) hvisited (fun _ => rfl)
      (List.suffix_refl _) (by simp) (by simp)
  · exact .of_below_eq_nil (by simp only [hsize]; exact Nat.lt_succ_self _) le_rfl hbud hbelow
  · have hlt : j.index < c.graph.size := h.sound.entered_lt j hmem
    exact absurd hj (Nat.not_le.2 hlt)
  · rw [htree j hj] at hbody
    simp only [hself] at hbody
    cases hbody
  · rw [hbelow]
    simp
  · rw [hbelow]
    simp

/-- A field at the end of the graph becomes a property of the object. The arguments of a reference are no
part of its own tree. -/
theorem Graph.Laid.put {ends : NodeId → Nat} {s : String} (h : c.graph.Laid A query ends)
    (hobject : (c.graph.node query).body = .object) (hq : query.index < c.graph.size)
    (hsown : Sown c c' i) :
    ∃ ends', (c'.graph.update query fun n => n.putProperty (.text s) i).Laid
      (fun a => A a ∨ a ∈ (c'.graph.node i).spurned) query ends' := by
  have hindex := hsown.index
  have hsize := hsown.size_lt
  have hself := Graph.node_update_self c'.graph (hq.trans hsize) fun n => n.putProperty (.text s) i
  rw [hsown.node_eq query hq] at hself
  have hbelow : ∀ k ∈ ((c'.graph.update query fun n => n.putProperty (.text s) i).node query).below,
      k ∈ (c.graph.node query).below ∨ k = i := by
    intro k hk
    rw [hself, Node.below, Node.body_putProperty, hobject, Node.props_putProperty] at hk
    obtain ⟨e, he, rfl⟩ := List.mem_map.1 hk
    rcases mem_insert he with he | rfl | ⟨old, -, -, he⟩
    · exact .inl (by rw [Node.below, hobject]; exact List.mem_map_of_mem he)
    · exact .inr rfl
    · exact .inr he
  have hother : ∀ j, query.index < j.index →
      (c'.graph.update query fun n => n.putProperty (.text s) i).node j = c'.graph.node j :=
    fun j hj => Graph.node_update_of_ne c'.graph (fun he => by rw [he] at hj; exact hj.false) _
  have hkeep : ∀ {k : NodeId} {top : Nat}, query.index < k.index → Sprout c.graph k top →
      Sprout (c'.graph.update query fun n => n.putProperty (.text s) i) k top := by
    intro k top hk hsprout
    exact (hsprout.congr hsize.le fun j _ hj =>
      hsown.node_eq j (hj.trans_le hsprout.below_size)).update_of_lt hk _
  -- the end of the tree of the new field
  obtain ⟨last, hlast, hspurned⟩ : ∃ last, Sprout c'.graph i last ∧
      ∀ a ∈ (c'.graph.node i).spurned, last ≤ a.index := by
    by_cases hnone : (c'.graph.node i).spurned = []
    · exact ⟨_, hsown.sprout, by simp [hnone]⟩
    · obtain ⟨a, ha⟩ := List.exists_mem_of_ne_nil _ hnone
      obtain ⟨slot, arguments, link, hbody, -⟩ := Node.mem_spurned_iff.1 ha
      refine ⟨i.index + 1, .of_below_eq_nil (Nat.lt_succ_self _) (by omega) hsown.sprout.bud
        (by rw [Node.below, hbody]), fun a ha => ?_⟩
      have := (hsown.spurned a ha).1
      omega
  have hold : ∀ k ∈ (c.graph.node query).below, k ≠ i ∧ ends k ≤ c.graph.size := by
    intro k hk
    have := (h.fields k hk).2.lt_size
    exact ⟨fun he => by rw [he] at this; omega, (h.fields k hk).2.below_size⟩
  refine ⟨fun k => if k = i then last else ends k, fun k hk => ?_, fun j hj k hk hne => ?_,
    fun a ha => ?_⟩
  · rcases hbelow k hk with hk | rfl
    · obtain ⟨hafter, hsprout⟩ := h.fields k hk
      simp only [if_neg (hold k hk).1]
      exact ⟨hafter, hkeep hafter hsprout⟩
    · simp only [if_true]
      exact ⟨by omega, hlast.update_of_lt (by omega) _⟩
  · rcases hbelow j hj with hj' | rfl <;> rcases hbelow k hk with hk' | rfl
    · simp only [if_neg (hold j hj').1, if_neg (hold k hk').1]
      exact h.apart j hj' k hk' hne
    · have := (hold j hj').2
      simp only [if_neg (hold j hj').1, if_true]
      omega
    · have := (hold k hk').2
      simp only [if_neg (hold k hk').1, if_true]
      omega
    · exact absurd rfl hne
  · rcases ha with ha | ha
    · obtain ⟨hafter, hloose, top, hsprout, happart⟩ := h.sprigs a ha
      have hnode := hother a hafter
      rw [hsown.node_eq a hsprout.lt_size] at hnode
      refine ⟨hafter, by rwa [hnode], top, hkeep hafter hsprout, fun k hk => ?_⟩
      rcases hbelow k hk with hk | rfl
      · simp only [if_neg (hold k hk).1]
        exact happart k hk
      · have := hsprout.below_size
        omega
    · obtain ⟨top, hsprout⟩ := hsown.sprigs a ha
      have hafter := (hsown.spurned a ha).1
      refine ⟨by omega, by rw [hother a (by omega)]; exact hsown.loose a hafter, top,
        hsprout.update_of_lt (by omega) _, fun k hk => ?_⟩
      rcases hbelow k hk with hk | rfl
      · have := (hold k hk).2
        simp only [if_neg (hold k hk).1]
        omega
      · simp only [if_true]
        exact .inl (hspurned a ha)

/-- The field of one more operation becomes a property of the query object. -/
theorem Context.Rooted.add {op : Operation} (h : c.Rooted A d query)
    (hadd : (do Run.put query (← Conversion.operationField query op) : Run Unit) c = .ok () c') :
    ∃ B, c'.Rooted B d query := by
  obtain ⟨field, c₁, hfield, hput⟩ := bind_eq_ok_iff.1 hadd
  obtain ⟨hsown, -, hparent⟩ := sown_operationField hfield
  obtain ⟨s, hprop⟩ := hsown.property
  have hq := h.budding.sprout.lt_size
  have hqfield : query.index < field.index := by rw [hsown.index]; exact hq
  have hnot : ¬c.Visited query := by
    rw [Visited, h.budding.sprout.bud.unvisited]
    exact Bool.false_ne_true
  have hnot₁ : ¬c₁.Visited query := by
    rw [Visited, hsown.node_eq query hq]
    exact hnot
  obtain ⟨hrest, -⟩ := (h.rest.sown hsown).put hnot₁ hprop hput
  obtain ⟨ends, hlaid⟩ := h.laid
  have hlaid' := hlaid.put (s := s) (h.rest.sound.handmade query rfl).2 hq hsown
  have hsprout₁ : Sprout c₁.graph query c.graph.size :=
    h.budding.sprout.congr hsown.size_lt.le fun k _ hk => hsown.node_eq k hk
  have htree₁ : ∀ j, Tree c₁.graph query j ↔ Tree c.graph query j := fun j =>
    Tree.congr fun k hk => by rw [hsown.node_eq k (h.budding.sprout.tree_lt_size hk)]
  have hobject : (c₁.graph.node query).body = .object := (h.rest.sown hsown).sound.handmade query rfl |>.2
  rw [put_eq hprop.1] at hput
  cases hput
  have htree : ∀ j, Tree (c₁.graph.update query fun n => n.putProperty (.text s) field) query j →
      Tree c.graph query j ∨ Tree c₁.graph field j := fun j hj =>
    (hsprout₁.tree_put hobject hsown.sprout hsown.index.ge hj).imp_left (htree₁ j).1
  have hsprout := hsprout₁.put hobject hsown.sprout hsown.index.ge hprop hparent
  refine ⟨_, hrest, ⟨by simp only [Graph.size_update]; exact hsprout, fun j hj _ hmem => ?_⟩, ?_,
    fun j hj slot arguments link hbody => ?_, hlaid'⟩
  · have hmem : j ∈ c.entered := hsown.still.entered ▸ hmem
    exact h.budding.fresh j hj (h.rest.sound.entered_lt j hmem) hmem
  · rintro a (ha | ha) ht
    · rcases htree a ht with ht | ht
      · exact h.apart a ha ht
      · have := h.rest.lt_size a ha
        have := (hsown.sprout.tree_bounds ht).1
        have := hsown.index
        omega
    · rcases htree a ht with ht | ht
      · have := (h.budding.sprout.tree_bounds ht).2
        have := (hsown.spurned a ha).1
        omega
      · exact hsown.not_tree_of_spurned ha ht
  · have hne : j ≠ query := by
      rintro rfl
      simp only [Graph.node_update_self c₁.graph hsprout₁.lt_size, Node.body_putProperty,
        hobject] at hbody
      cases hbody
    simp only [Graph.node_update_of_ne c₁.graph hne] at hbody
    rcases htree j hj with ht | ht
    · rw [hsown.node_eq j (h.budding.sprout.tree_lt_size ht)] at hbody
      obtain ⟨htype, hargs⟩ := h.plain j ht slot arguments link hbody
      exact ⟨htype, fun a ha => .inl (hargs a ha)⟩
    · obtain ⟨htype, hargs⟩ := hsown.plain_of_tree ht hbody
      exact ⟨htype, fun a ha => .inr (hargs a ha)⟩

theorem Context.Rooted.addEach {operations : List Operation} (h : c.Rooted A d query)
    (hadd : (operations.forM fun op => do
      Run.put query (← Conversion.operationField query op) : Run Unit) c = .ok () c') :
    ∃ B, c'.Rooted B d query := by
  induction operations generalizing c A with
  | nil =>
    cases hadd
    exact ⟨A, h⟩
  | cons op rest ih =>
    obtain ⟨u, c₁, hop, hrest⟩ := bind_eq_ok_iff.1 hadd
    obtain ⟨B, hB⟩ := h.add hop
    exact ih hB hrest

theorem rooted_buildQuery {config : Config} {operations : List Operation}
    (h : c.AtRest (fun _ => False) d none)
    (hbuild : Conversion.buildQuery config operations c = .ok query c') :
    ∃ B, c'.Rooted B d query := by
  obtain ⟨query', c₁, hnew, hbuild⟩ := bind_eq_ok_iff.1 hbuild
  obtain ⟨u, c₂, heach, hbuild⟩ := bind_eq_ok_iff.1 hbuild
  cases hbuild
  exact (h.newQuery hnew).addEach heach

theorem Context.Rooted.visit (h : c.Rooted A d query)
    (hvisit : Visit.visit d query c = .ok () c') :
    c'.AtRest A d (some query) ∧ c'.Visited query :=
  (h.rest.visit h.budding h.apart h.plain hvisit).2

/-- A graph in which everything that was visited is what it was. -/
def Context.Spares (c : Context) (g : Graph) : Prop := ∀ j, c.Visited j → g.node j = c.graph.node j

/-- A state between visits in which the visit of the field of an operation is due. -/
structure Context.Due (A : NodeId → Prop) (d : Document) (query i : NodeId) (c : Context) : Prop where
  rest : c.AtRest A d (some query)
  unvisited : ¬c.Visited query
  budding : ∃ top, c.Budding i top ∧ query.index < i.index
  apart : ∀ a, A a → ¬Tree c.graph i a
  plain : ∀ j, Tree c.graph i j → ∀ slot arguments link,
    (c.graph.node j).body = .property slot arguments (some link) →
      slot.type = none ∧ ∀ a, some a ∈ arguments → A a
  property : ∃ name, (c.graph.node i).IsProperty name

/-- A field that was made and bound is not visited yet. What was visited before stays as it is. -/
theorem Context.AtRest.due {op : Operation} (h : c.AtRest A d (some query)) (hq : ¬c.Visited query)
    (hfield : Conversion.operationField query op c = .ok i c₁)
    (hput : Run.put query i c₁ = .ok () c₂) :
    (∃ B, c₂.Due B d query i) ∧ c.Spares c₂.graph := by
  obtain ⟨hsown, -⟩ := sown_operationField hfield
  obtain ⟨s, hprop⟩ := hsown.property
  have hlt := (h.sound.handmade query rfl).1
  have hqfield : query.index < i.index := by rw [hsown.index]; exact hlt
  have hq₁ : ¬c₁.Visited query := by
    rw [Visited, hsown.node_eq query hlt]
    exact hq
  obtain ⟨hrest, hq₂⟩ := (h.sown hsown).put hq₁ hprop hput
  have hbudding := hsown.budding h.sound
  rw [put_eq hprop.1] at hput
  cases hput
  have htree : ∀ j, Tree (c₁.graph.update query fun n => n.putProperty (.text s) i) i j →
      Tree c₁.graph i j := fun j => (hsown.sprout.tree_update_of_lt hqfield _).1
  refine ⟨⟨_, hrest, hq₂, ⟨c₁.graph.size, ⟨hsown.sprout.update_of_lt hqfield _, hbudding.fresh⟩, hqfield⟩,
    ?_, fun j hj slot arguments link hbody => ?_, s, ?_⟩, fun j hj => ?_⟩
  · rintro a (ha | ha) ht
    · have := h.lt_size a ha
      have := (hsown.sprout.tree_bounds (htree a ht)).1
      have := hsown.index
      omega
    · exact hsown.not_tree_of_spurned ha (htree a ht)
  · have hold := htree j hj
    have hne : j ≠ query := by
      rintro rfl
      have := (hsown.sprout.tree_bounds hold).1
      omega
    simp only [Graph.node_update_of_ne c₁.graph hne] at hbody
    obtain ⟨htype, hargs⟩ := hsown.plain_of_tree hold hbody
    exact ⟨htype, fun a ha => .inr (hargs a ha)⟩
  · have hne : i ≠ query := fun he => by rw [he] at hqfield; exact hqfield.false
    simp only [Graph.node_update_of_ne c₁.graph hne]
    exact hprop
  · have hne : j ≠ query := fun he => hq (he ▸ hj)
    simp only [Graph.node_update_of_ne c₁.graph hne]
    exact hsown.node_eq j hj.lt_size

/-- The visit of a field that is due. -/
theorem Context.Due.visit (h : c.Due A d query i) (hvisit : Visit.visit d i c = .ok () c') :
    c'.AtRest A d (some query) ∧ ¬c'.Visited query ∧ c'.Visited i ∧ c.Spares c'.graph ∧
      ∃ name, (c'.graph.node i).IsProperty name := by
  obtain ⟨top, hbudding, hlt⟩ := h.budding
  obtain ⟨hgrows, hrest, hvisited⟩ := h.rest.visit hbudding h.apart h.plain hvisit
  have hindex := hbudding.sprout.lt_size
  refine ⟨hrest, ?_, hvisited, fun j hj => ?_, ?_⟩
  · rw [Visited, (hgrows.spared query ⟨hlt.trans hindex, fun hin => hlt.not_ge hin.1⟩).1]
    exact h.unvisited
  · refine (hgrows.spared j ⟨hj.lt_size, ?_⟩).1
    rintro ⟨hle, htop⟩
    exact hbudding.fresh j hle htop (h.rest.whole.entered j hj)
  · obtain ⟨name, hprop⟩ := h.property
    exact ⟨name, hprop.kept (hgrows.kept i hindex)⟩

/-- The field of an operation is made, bound and visited. The query object is not visited, and what was
visited before stays as it is. -/
theorem Context.AtRest.visitOperation {op : Operation} (h : c.AtRest A d (some query))
    (hq : ¬c.Visited query) (hvisit : Conversion.visitOperation d query op c = .ok i c') :
    ∃ B, c'.AtRest B d (some query) ∧ ¬c'.Visited query ∧ c'.Visited i ∧ c.Spares c'.graph ∧
      ∃ name, (c'.graph.node i).IsProperty name := by
  obtain ⟨field, c₁, hfield, hvisit⟩ := bind_eq_ok_iff.1 hvisit
  obtain ⟨u, c₂, hput, hvisit⟩ := bind_eq_ok_iff.1 hvisit
  obtain ⟨u', c₃, hvisit, hreturn⟩ := bind_eq_ok_iff.1 hvisit
  cases hreturn
  obtain ⟨⟨B, hdue⟩, hspares⟩ := h.due hq hfield hput
  obtain ⟨hrest, hq', hvisited, hspares', hprop⟩ := hdue.visit hvisit
  refine ⟨B, hrest, hq', hvisited, fun j hj => ?_, hprop⟩
  have hj₂ := hspares j hj
  rw [hspares' j (by rwa [Visited, hj₂]), hj₂]

end ApiGraph
