import ApiGraph.Proofs.Depicting.Runs

/-!
# What fields of operations stand for

The field of an operation has its name, declares its answer, and takes an argument for each of its
parameters outside the body of a request. It does so wherever it is found, and for good.

* `Graph.Bears` — a slot and a link declare a schema;
* `Graph.Takes` — an argument stands for a parameter;
* `Graph.Serves` — a field stands for an operation;
* `Conversion.serving_operationField` — the field that is made for an operation does, in every graph that
  has it.
-/

namespace ApiGraph

open OrderedMap Context

/-- A slot and a link declare a schema: by a reference, or with a node that depicts it. -/
inductive Graph.Bears (g : Graph) (required schema : Json) : Slot → Option Link → Prop
  | reference {ref : Json} {target : Option NodeId} (written : schema.get? "$ref" = some ref) :
      g.Bears required schema ⟨required, schema, none⟩ (some ⟨ref, target⟩)
  | plain {t : NodeId} {s : Schema} (written : schema.get? "$ref" = none) (declares : schema.Declares s)
      (depicts : g.Depicts t s) : g.Bears required schema ⟨required, schema, some t⟩ none

/-- An argument stands for a parameter. -/
def Graph.Takes (g : Graph) (p : Json.Members) (a : NodeId) : Prop :=
  get? "name" p = some (g.node a).name ∧ ∃ t s,
    (g.node a).body =
      .parameter ⟨.bool (Document.field "required" p).truthy, parameterSchema p, some t⟩ ∧
    (parameterSchema p).Declares s ∧ g.Depicts t s

/-- A property with a name of its own takes an argument for each of some parameters. -/
structure Graph.Offers (g : Graph) (schema : Json) (parameters : List Json.Members) (i : NodeId) :
    Prop where
  body : ∃ slot arguments link, (g.node i).body = .property slot (arguments.map some) link ∧
    g.Bears (.bool false) schema slot link ∧ List.Forall₂ g.Takes parameters arguments

/-- A field stands for an operation. -/
structure Graph.Serves (g : Graph) (op : Operation) (i : NodeId) : Prop where
  name : ∃ s, Conversion.fieldNameOf op = .ok s ∧ (g.node i).name = .str s
  offers : g.Offers (op.response.orElse (.obj [])) op.listedParameters i

namespace Graph

variable {g g' : Graph} {i a : NodeId} {required schema : Json} {slot : Slot} {link : Option Link}
  {p : Json.Members} {parameters : List Json.Members} {op : Operation}

/-! ## Growth -/

section

variable {P : NodeId → Prop} (hP : g.Enclosed P)
  (hparameter : ∀ {a slot}, (g.node a).body = .parameter slot → P a)
  (hkept : ∀ j, P j → j.index < g.size → (g.node j).Kept (g'.node j))

include hP hparameter hkept

/-- An argument stands for its parameter as long as all nodes around it are kept. -/
theorem Takes.elsewhere (h : g.Takes p a) : g'.Takes p a := by
  obtain ⟨hname, t, s, hbody, hdeclares, hdepicts⟩ := h
  have ha := hparameter hbody
  have hk := hkept a ha (lt_size_of_body hbody (by simp))
  have ht := hP.below ha t (by simp [Node.below, hbody])
  refine ⟨by rw [hk.name, hname], t, s, ?_, hdeclares,
    Depicts.similar hP (fun j hj hlt => (hkept j hj hlt).similar) s t ht hdepicts⟩
  rw [hk.body_eq (by rw [hbody]; rfl), hbody]

theorem Offers.elsewhere (h : g.Offers schema parameters i) : g'.Offers schema parameters i := by
  obtain ⟨slot, arguments, link, hbody, hbears, htakes⟩ := h.body
  have hi := hP.field hbody
  have hk := hkept i hi (lt_size_of_body hbody (by simp))
  have htakes' := htakes.imp fun p a ha => ha.elsewhere hP hparameter hkept
  cases hbears with
  | @reference ref target hwritten =>
    obtain ⟨t, ⟨href, -⟩ | ⟨slot, as, hprop, hbody'⟩⟩ :=
      hk.similar.linked ⟨ref, target⟩ (by rw [hbody]; rfl)
    · rw [hbody] at href
      cases href
    · rw [hbody] at hprop
      cases hprop
      exact ⟨_, arguments, _, hbody', .reference hwritten, htakes'⟩
  | @plain t s hwritten hdeclares hdepicts =>
    have ht := hP.below hi t (by simp [Node.below, hbody])
    refine ⟨_, arguments, none, ?_, .plain hwritten hdeclares
      (Depicts.similar hP (fun j hj hlt => (hkept j hj hlt).similar) s t ht hdepicts), htakes'⟩
    rw [hk.body_eq (by rw [hbody]; rfl), hbody]

theorem Serves.elsewhere (h : g.Serves op i) : g'.Serves op i := by
  obtain ⟨s, hs, hname⟩ := h.name
  obtain ⟨slot, arguments, link, hbody, -⟩ := h.offers.body
  have hk := hkept i (hP.field hbody) (lt_size_of_body hbody (by simp))
  exact ⟨⟨s, hs, by rw [hk.name, hname]⟩, h.offers.elsewhere hP hparameter hkept⟩

end

theorem Offers.lt_size (h : g.Offers schema parameters i) : i.index < g.size := by
  obtain ⟨slot, arguments, link, hbody, -⟩ := h.body
  exact lt_size_of_body hbody (by simp)

theorem Serves.kept (h : g.Serves op i)
    (hkept : ∀ j, j.index < g.size → (g.node j).Kept (g'.node j)) : g'.Serves op i :=
  h.elsewhere (enclosed_true g) (fun _ => trivial) fun j _ => hkept j

end Graph

/-! ## New fields -/

variable {c c' c₁ : Context} {i a : NodeId} {name schema : Json}
  {parameters : List Json.Members} {op : Operation}

/-- What lies below a property with a name declares a schema and takes arguments in every graph that has
it, whatever becomes of the property itself and of the nodes before it. -/
def Context.Offering (c : Context) (name schema : Json) (parameters : List Json.Members) (i : NodeId) :
    Prop :=
  i.index < c.graph.size ∧ (c.graph.node i).name = name ∧ ∃ slot arguments link,
    (c.graph.node i).body = .property slot (arguments.map some) link ∧
    ∀ g : Graph, (∀ j, i.index < j.index → j.index < c.graph.size → g.node j = c.graph.node j) →
      g.Bears (.bool false) schema slot link ∧ List.Forall₂ g.Takes parameters arguments

theorem Context.Offering.offers (h : c.Offering name schema parameters i) :
    c.graph.Offers schema parameters i := by
  obtain ⟨-, -, slot, arguments, link, hbody, hsame⟩ := h
  exact ⟨slot, arguments, link, hbody, hsame c.graph fun _ _ _ => rfl⟩

/-- A new property takes no arguments yet. -/
theorem offering_fromProperty {parent : Option NodeId} {s : String}
    (h : Build.fromProperty parent (.str s) schema (.bool false) c = .ok i c') :
    c'.Offering (.str s) schema [] i := by
  have hname := (planted_fromProperty h).2.2.1
  rw [Build.fromProperty] at h
  cases hget : schema.get? "$ref" with
  | some ref =>
    simp only [hget] at h
    obtain ⟨hlt, hbody⟩ : i.index < c'.graph.size ∧
        (c'.graph.node i).body = .property ⟨.bool false, schema, none⟩ [] (some ⟨ref, none⟩) := by
      cases h
      refine ⟨?_, congrArg Node.body (Graph.node_alloc_self c.graph _)⟩
      exact (Nat.lt_succ_self c.graph.size).trans_eq (Graph.size_alloc c.graph _).symm
    exact ⟨hlt, hname, _, [], _, hbody, fun g _ => ⟨.reference hget, .nil⟩⟩
  | none =>
    simp only [hget] at h
    obtain ⟨j, c₁, halloc, h⟩ := bind_eq_ok_iff.1 h
    cases halloc
    obtain ⟨u, c₂, hfill, h⟩ := bind_eq_ok_iff.1 h
    cases h
    obtain ⟨type, hbody, hlt, hdepicts⟩ := depicts_fillSlot hfill
    refine ⟨hlt, hname, _, [], _, hbody, fun g hsame => ?_⟩
    obtain ⟨s, hdeclares, hs⟩ := hdepicts g hsame
    exact ⟨.plain hget hdeclares hs, .nil⟩

theorem planted_operationArgument {p : Json.Members}
    (h : Conversion.operationArgument i p c = .ok a c') : Planted c.graph c'.graph a := by
  obtain ⟨name, c₁, hname, h⟩ := bind_eq_ok_iff.1 h
  obtain ⟨-, rfl⟩ := Visit.eq_ok_of_lift hname
  exact (planted_fromParameter h).2.1

/-- A new argument stands for its parameter in every graph that has it. -/
theorem takes_operationArgument {p : Json.Members}
    (h : Conversion.operationArgument i p c = .ok a c') {g : Graph}
    (hsame : ∀ j, c.graph.size ≤ j.index → j.index < c'.graph.size → g.node j = c'.graph.node j) :
    g.Takes p a := by
  obtain ⟨name, c₁, hlift, h⟩ := bind_eq_ok_iff.1 h
  obtain ⟨hgiven, rfl⟩ := Visit.eq_ok_of_lift hlift
  obtain ⟨-, hplanted, hname', -⟩ := planted_fromParameter h
  have hindex := hplanted.index
  have hself : g.node a = c'.graph.node a := hsame a hindex.ge hplanted.sprout.inside
  obtain ⟨members, c₂, hmembers, h⟩ := bind_eq_ok_iff.1 h
  obtain ⟨-, rfl⟩ := Visit.eq_ok_of_lift hmembers
  obtain ⟨j, c₃, halloc, h⟩ := bind_eq_ok_iff.1 h
  cases halloc
  obtain ⟨u, c₄, hfill, h⟩ := bind_eq_ok_iff.1 h
  cases h
  obtain ⟨type, hbody, hlt, hdepicts⟩ := depicts_fillSlot hfill
  obtain ⟨s, hdeclares, hs⟩ := hdepicts g fun j hj => hsame j hj.le
  refine ⟨?_, type, s, ?_, hdeclares, hs⟩
  · rw [hself, hname']
    exact eq_some_of_expect hgiven
  · rw [hself]
    exact hbody

/-- One more argument. -/
theorem Context.Offering.addArgument {p : Json.Members} (h : c.Offering name schema parameters i)
    (hargument : Conversion.operationArgument i p c = .ok a c₁)
    (hadd : Run.update i (Node.addArgument (some a)) c₁ = .ok () c') :
    c'.Offering name schema (parameters ++ [p]) i := by
  have hplanted := planted_operationArgument hargument
  obtain ⟨hlt, hname, slot, arguments, link, hbody, hbelow⟩ := h
  have hsize : c.graph.size < c₁.graph.size := hplanted.index ▸ hplanted.sprout.lt_size
  cases hadd
  have hself := Graph.node_update_self c₁.graph (hlt.trans hsize) (Node.addArgument (some a))
  rw [hplanted.node_eq i hlt, Node.addArgument_of_property hbody] at hself
  refine ⟨(hlt.trans hsize).trans_eq (Graph.size_update _ _ _).symm, ?_, slot, arguments ++ [a], link, ?_,
    fun g hsame => ?_⟩
  · exact (congrArg Node.name hself).trans hname
  · rw [List.map_append]
    exact congrArg Node.body hself
  have hlater : ∀ j, i.index < j.index → j.index < c₁.graph.size → g.node j = c₁.graph.node j := by
    intro j hj hj'
    rw [hsame j hj (hj'.trans_eq (Graph.size_update _ _ _).symm), Graph.node_update_of_ne c₁.graph]
    rintro rfl
    exact hj.false
  obtain ⟨hbears, htakes⟩ := hbelow g fun j hj hj' =>
    (hlater j hj (hj'.trans hsize)).trans (hplanted.node_eq j hj')
  have hnew : g.Takes p a := takes_operationArgument hargument fun j hj => hlater j (hlt.trans_le hj)
  exact ⟨hbears, List.rel_append htakes (.cons hnew .nil)⟩

/-- The arguments for parameters, one by one. -/
theorem Context.Offering.addArguments {more : List Json.Members} (h : c.Offering name schema parameters i)
    (hadd : (more.forM fun parameter => do
      let argument ← Conversion.operationArgument i parameter
      Run.update i (Node.addArgument argument) : Run Unit) c = .ok () c') :
    c'.Offering name schema (parameters ++ more) i := by
  induction more generalizing c parameters with
  | nil =>
    cases hadd
    rwa [List.append_nil]
  | cons p rest ih =>
    obtain ⟨u, c₁, hone, hrest⟩ := bind_eq_ok_iff.1 hadd
    obtain ⟨a, c₂, hargument, hone⟩ := bind_eq_ok_iff.1 hone
    have hall := ih (h.addArgument hargument hone) hrest
    rwa [List.append_assoc] at hall

/-- A field stands for an operation in every graph that has it with all later nodes. -/
def Context.Serving (c : Context) (op : Operation) (i : NodeId) : Prop :=
  ∃ s, Conversion.fieldNameOf op = .ok s ∧
    c.Offering (.str s) (op.response.orElse (.obj [])) op.listedParameters i

namespace Context.Serving

theorem serves (h : c.Serving op i) : c.graph.Serves op i := by
  obtain ⟨s, hs, hoffering⟩ := h
  exact ⟨⟨s, hs, hoffering.2.1⟩, hoffering.offers⟩

theorem later (h : c.Serving op i) (hsize : c.graph.size ≤ c'.graph.size)
    (hsame : ∀ j, i.index ≤ j.index → j.index < c.graph.size → c'.graph.node j = c.graph.node j) :
    c'.Serving op i := by
  obtain ⟨s, hs, hlt, hname, slot, arguments, link, hbody, hbelow⟩ := h
  have hself := hsame i le_rfl hlt
  refine ⟨s, hs, hlt.trans_le hsize, by rw [hself, hname], slot, arguments, link, by rw [hself, hbody],
    fun g hg => hbelow g fun j hj hj' => ?_⟩
  rw [hg j hj (hj'.trans_le hsize), hsame j hj.le hj']

end Context.Serving

/-- The field that is made for an operation stands for it. -/
theorem Conversion.serving_operationField {query : NodeId}
    (h : operationField query op c = .ok i c') : c'.Serving op i := by
  obtain ⟨s, c₁, hlift, h⟩ := bind_eq_ok_iff.1 h
  obtain ⟨hs, rfl⟩ := Visit.eq_ok_of_lift hlift
  obtain ⟨field, c₂, hfield, h⟩ := bind_eq_ok_iff.1 h
  obtain ⟨u, c₃, hadd, h⟩ := bind_eq_ok_iff.1 h
  cases h
  have hoffering := (offering_fromProperty hfield).addArguments hadd
  rw [List.nil_append] at hoffering
  exact ⟨s, hs, hoffering⟩

/-- The field of an operation that was visited stands for it. -/
theorem Conversion.serves_visitOperation {A : NodeId → Prop} {d : Document} {query : NodeId}
    (h : c.AtRest A d (some query)) (hq : ¬c.Visited query)
    (hvisit : visitOperation d query op c = .ok i c') : c'.graph.Serves op i := by
  obtain ⟨field, c₁, hfield, hvisit⟩ := bind_eq_ok_iff.1 hvisit
  obtain ⟨u, c₂, hput, hvisit⟩ := bind_eq_ok_iff.1 hvisit
  obtain ⟨u', c₃, hvisit, hreturn⟩ := bind_eq_ok_iff.1 hvisit
  cases hreturn
  obtain ⟨⟨B, hdue⟩, -⟩ := h.due hq hfield hput
  obtain ⟨top, hbudding, hlt⟩ := hdue.budding
  obtain ⟨hgrows, -⟩ := hdue.rest.visit hbudding hdue.apart hdue.plain hvisit
  have hserving := serving_operationField hfield
  obtain ⟨s, -, hname⟩ := hserving.serves.name
  rw [put_eq hname] at hput
  cases hput
  refine Graph.Serves.kept (hserving.later (Graph.size_update _ _ _).ge fun j hj _ => ?_).serves hgrows.kept
  refine Graph.node_update_of_ne c₁.graph ?_ _
  rintro rfl
  exact hj.not_gt hlt

end ApiGraph
