import ApiGraph.Proofs.Drafting.Guarding
import ApiGraph.Proofs.Drafting.Order

/-!
# Kept shapes of stored choices

A stored choice gives its name to the node of its first member, before any type is written. So whatever
the order of the schemas, this is the name wherever the choice is spoken of, and the only one.

* `Graph.Keeps` — a choice keeps a node as its shape;
* `Context.Finished.keeps_of_oneOf` — a visited choice keeps a node that shows its first member;
* `Context.Finished.eq_of_variantOf` — a node is the shape of one stored choice at most;
* `Draft.Apart.given_shape` — a shape goes by the name of the choice;
* `Draft.Complete.type_of_way` — the type of a field whose value leads to a type with fields;
* `Conversion.choice_rendered` — the shape of a stored choice is written once and spoken of by one name.
-/

namespace ApiGraph

open OrderedMap Context Drafting

/-- What is mapped to a value is a single thing, if a list is mapped without repetition. -/
theorem filter_eq_singleton {α β : Type} [DecidableEq β] {f : α → β} {xs : List α} (h : (xs.map f).Nodup)
    {x : α} (hx : x ∈ xs) : xs.filter (f · = f x) = [x] := by
  classical
  have hcongr : xs.filter (f · = f x) = xs.filter (· = x) := by
    refine List.filter_congr fun y hy => ?_
    rw [decide_eq_decide]
    exact ⟨List.inj_on_of_nodup_map h hy hx, congrArg f⟩
  rw [hcongr, List.filter_eq, List.count_eq_one_of_mem h.of_map hx]
  rfl

/-! ## Shapes -/

/-- A choice keeps a node as its shape: it has a union of some declarations, and the node was made for the
first of them. -/
structure Graph.Keeps (g : Graph) (r : NodeId) (parts first : Json) (s : Schema) (v : NodeId) : Prop where
  elements : ∃ rest, parts.elements = .ok (first :: rest)
  variant : g.oneOfVariant r = .ok (some v)
  owner : ∃ u shapes, (g.node u).body = .union shapes ∧ g.Owns r u ∧ g.Owns u v
  declares : first.Declares s
  shows : g.Shows v s

namespace Context.Finished

variable {d : Document} {query : NodeId} {c : Context} {r r' v : NodeId} {parts : Option Json}

/-- A visited choice keeps a node that shows its first member. -/
theorem keeps_of_oneOf (h : c.Finished d query) (hr : c.Visited r)
    (hbody : (c.graph.node r).body = .composed .oneOf parts) :
    ∃ declared first s v, parts = some declared ∧ c.graph.Keeps r declared first s v := by
  obtain ⟨A, hw, -⟩ := h.whole
  obtain ⟨declared, shapes, u, rfl, helements, hchildren, -, -, hunion⟩ := (hw.ripe r hr).oneOf _ hbody
  have hu := hw.led_visited hr (k := u) (by simp [Node.followed, hchildren])
  obtain ⟨first, rest, v, rfl, hchildren', -⟩ := (hw.ripe u hu).union _ hunion
  have howns := (hw.ripe r hr).choice _ hbody u (by simp [hchildren])
  obtain ⟨hown, s, hdeclares, hshows⟩ := (hw.ripe u hu).shape _ _ hunion v (by simp [hchildren'])
  refine ⟨declared, first, s, v, rfl, ⟨rest, helements⟩, ?_, ⟨u, _, hunion, howns, hown⟩, hdeclares,
    hshows⟩
  simp [Graph.oneOfVariant, Graph.unionOf, Graph.unionVariant, hbody, hunion, Node.firstChild, hchildren,
    hchildren', expect, bind, Except.bind]

/-- The shape of a visited union or choice was made for the union. -/
theorem parent_of_variantOf (h : c.Finished d query) (hr : c.Visited r)
    (hv : variantOf c.graph r = .ok (some v)) : (c.graph.node v).parent = some r ∨
      ∃ u shapes, (c.graph.node u).body = .union shapes ∧ c.graph.Owns r u ∧ c.graph.Owns u v := by
  rw [variantOf] at hv
  split at hv
  · next parts hbody =>
    obtain ⟨declared, first, s, v', -, hkeeps⟩ := h.keeps_of_oneOf hr hbody
    cases hkeeps.variant.symm.trans hv
    exact .inr hkeeps.owner
  · next shapes hbody =>
    obtain ⟨A, hw, -⟩ := h.whole
    obtain ⟨first, rest, v', rfl, hchildren, -⟩ := (hw.ripe r hr).union _ hbody
    obtain ⟨hown, -⟩ := (hw.ripe r hr).shape _ _ hbody v' (by simp [hchildren])
    obtain rfl : v' = v := by
      simpa [Graph.unionVariant, hbody, Node.firstChild, hchildren, expect] using hv
    exact .inl hown.parent
  · cases hv

/-- A node is the shape of one stored choice at most: unions have no names, so that none of them is
stored, and every node was made for one other node. -/
theorem eq_of_variantOf (h : c.Finished d query) (hr : r ∈ c.roots) (hr' : r' ∈ c.roots)
    (hv : variantOf c.graph r = .ok (some v)) (hv' : variantOf c.graph r' = .ok (some v)) : r = r' := by
  have hunnamed : ∀ {k u shapes}, (c.graph.node u).body = .union shapes → c.graph.Owns k u →
      u ∉ c.roots := by
    intro k u shapes hunion hown hmem
    have hname := hown.unnamed (by rw [Node.slot?, hunion])
    rw [(h.root hmem).2.1] at hname
    cases hname
  rcases h.parent_of_variantOf (h.root hr).1 hv with hparent | ⟨u, shapes, hunion, hu, huv⟩ <;>
    rcases h.parent_of_variantOf (h.root hr').1 hv' with hparent' | ⟨u', shapes', hunion', hu', huv'⟩
  · exact Option.some.inj (hparent.symm.trans hparent')
  · obtain rfl : r = u' := Option.some.inj (hparent.symm.trans huv'.parent)
    exact absurd hr (hunnamed hunion' hu')
  · obtain rfl : r' = u := Option.some.inj (hparent'.symm.trans huv.parent)
    exact absurd hr' (hunnamed hunion hu)
  · obtain rfl : u = u' := Option.some.inj (huv.parent.symm.trans huv'.parent)
    exact Option.some.inj (hu.parent.symm.trans hu'.parent)

end Context.Finished

/-! ## Names of shapes -/

namespace Draft

variable {config : Config} {d : Document} {query : NodeId} {c : Context} {D : Draft} {r t : NodeId}

/-- The shape of a stored choice was given the name of the choice. -/
theorem Apart.given_shape (h : D.Apart config c query) (hc : c.Finished d query) (hr : r ∈ c.roots)
    (ht : variantOf c.graph r = .ok (some t)) (hanonymous : isAnonymous c.graph (some t) = true) :
    get? t D.inlineNames = some (some (c.rootName r)) := by
  obtain ⟨s, hs, r', hr', ht', hsimple⟩ := h.shapes t ⟨r, hr, ht⟩ hanonymous
  obtain rfl := hc.eq_of_variantOf hr hr' ht ht'
  rw [hs, Option.some.inj (Except.ok.inj (hsimple.symm.trans (hc.root hr).2.2.2))]

/-- The type of a field whose value leads to a type that was written: the name of this type, in a list
for each array on the way. -/
theorem Complete.type_of_way (h : D.Complete config c query) (hc : c.Finished d query)
    {passed : List NodeId} {called : NodeId → Json → Prop} {f : Field} (hf : f ∈ D.fields)
    (hdeclared : f.Declared config c.graph called)
    (hfields : c.graph.hasFields t = true)
    (hway : Graph.Way c.graph.inner? (c.graph.node f.node).valueType? passed (some t))
    (hnamed : ∀ fs, c.Named fs t) :
    ∃ name, f.type = (TypeExpr.named name).inLists (c.graph.arrays passed) ∧
      TypeBlock.Defines D.types t name := by
  obtain ⟨before, after, hsplit⟩ := List.append_of_mem hf
  have hstands := (h.rendered hc hsplit).type
  have hends := Graph.inner?_of_hasFields hfields
  have hdefined := (hstands.of_unwraps ⟨_, hway.landsIn hends⟩ hfields).1 (hnamed _)
  obtain ⟨E, E', hgraph, -, hexpr⟩ := hdeclared.type
  have hspoken : Graph.Way E.context.graph.spoken? (c.graph.node f.node).valueType? passed (some t) :=
    hgraph ▸ hway.imp fun _ _ => Graph.spoken?_of_inner?
  have hlast : Graph.Ends E.context.graph.spoken? (some t) := by
    rintro i ⟨⟩
    exact hgraph ▸ Graph.spoken?_of_hasFields hfields
  have hlength := hspoken.length_le_size Graph.lt_size_of_spoken? (hspoken.nodup hlast)
  have hexpr' : typeExprWithin config (E.context.graph.size + 2) [] _ E = .ok f.type E' := hexpr
  rw [typeExprWithin_of_way_of_ends hspoken hlast (by omega), map_eq_pure_bind, hgraph] at hexpr'
  obtain ⟨name, E₁, -, hreturn⟩ := bind_eq_ok_iff.1 hexpr'
  have htype : (TypeExpr.named name).inLists (c.graph.arrays passed) = f.type :=
    (EStateM.Result.ok.inj hreturn).1
  rw [← htype, TypeExpr.innermost_inLists] at hdefined
  exact ⟨name, htype.symm, hdefined⟩

end Draft

namespace Conversion

variable {d : Document} {config : Config} {oracle : Oracle} {defs : Definitions} {c' : Context}

/-- The name of a stored choice is the name of its shape, whatever the order of schemas and properties. A
choice that is stored under a reference keeps the node of its first member as its shape. If this is an
object or a composition by `allOf` with properties, then one type is written for it, with its properties
and under the simple name of the reference; and a field has a type by this name, in a list for each array
on the way, wherever its value leads to the choice through arrays, references and other choices. -/
theorem choice_rendered (h : definitions d config (start oracle) = .ok defs c') :
    ∃ query c, visitAll d config (start oracle) = .ok query c ∧
      ∀ ref r parts, (Key.text ref, some r) ∈ c.types →
        (c.graph.node r).body = .composed .oneOf parts →
          ∃ declared first s v, parts = some declared ∧ c.graph.Keeps r declared first s v ∧
            (c.graph.hasFields v = true →
              (∀ b ∈ defs.types, ∀ f ∈ b.fields, ∀ passed,
                Graph.Way c.graph.inner? (c.graph.node f.node).valueType? passed (some r) →
                  f.type = (TypeExpr.named (.str (typeName ref))).inLists (c.graph.arrays passed)) ∧
              ∃ b, defs.types.filter (·.node = v) = [b] ∧ b.name = .str (typeName ref) ∧
                b.Declared config c.graph (TypeBlock.Defines defs.types)) := by
  obtain ⟨query, c, D, hvisit, hc, hrun⟩ := exists_drafting_of_definitions h
  obtain ⟨hcomplete, htypes, -, -⟩ := complete_definitions hc hrun
  obtain ⟨hapart, -⟩ := apart_definitions hc hrun
  have hplaced := placed_of_definitions hc hrun
  refine ⟨query, c, hvisit, fun ref r parts hstored hbody => ?_⟩
  have hr : r ∈ c.roots := List.mem_filterMap.2 ⟨some r, List.mem_map_of_mem hstored, rfl⟩
  obtain ⟨declared, first, s, v, rfl, hkeeps⟩ := hc.keeps_of_oneOf (hc.root hr).1 hbody
  refine ⟨declared, first, s, v, rfl, hkeeps, fun hfields => ?_⟩
  have hvariant : variantOf c.graph r = .ok (some v) := by
    rw [variantOf, hbody]
    exact hkeeps.variant
  obtain ⟨u, shapes, -, -, hown⟩ := hkeeps.owner
  have hnull : (c.graph.node v).name.isNull = true := hown.unnamed (Graph.slot?_of_hasFields hfields)
  have hanonymous : isAnonymous c.graph (some v) = true := by rw [isAnonymous_some, hnull, hfields]; rfl
  have hgiven := hapart.given_shape hc hr hvariant hanonymous
  have hroot : c.rootName r = typeName ref := by
    obtain ⟨i, word, he, hname⟩ := hc.filed hstored
    cases he
    rw [rootName, hname]
    rfl
  rw [hroot] at hgiven
  -- the shape is written under the name that the choice gave it
  have hname : ∀ b ∈ defs.types, b.node = v → b.name = .str (typeName ref) := by
    rintro b hb rfl
    rw [htypes] at hb
    obtain ⟨-, -, ⟨-, hcalls⟩ | ⟨hquery, -⟩⟩ := hapart.titled b hb
    · exact hcalls.unique (.given (by rwa [hapart.graph]) hgiven)
    · exact absurd hquery (hc.visited_of_variantOf (hc.root hr).1 hvariant).2
  refine ⟨fun b hb f hf passed hway => ?_, ?_⟩
  · have hinner : c.graph.inner? r = some (some v) := by
      rw [Graph.inner?, hbody]
      exact congrArg Except.toOption hkeeps.variant
    have hf' : f ∈ D.fields := List.mem_flatMap.2 ⟨b, htypes ▸ hb, hf⟩
    obtain ⟨name, htype, b', hb', hnode, rfl⟩ := hcomplete.type_of_way hc hf'
      ((hplaced.declared b hb).fields f hf) hfields (hway.snoc hinner)
      fun fs => .inr (.inl ⟨r, hr, hvariant⟩)
    rw [htype, hname b' (htypes ▸ hb') hnode, Graph.arrays_append]
    simp [Graph.arrays, hbody]
  · have hmem : v ∈ defs.types.map TypeBlock.node :=
      (hplaced.written v).2 ⟨hfields, .inr (.inr (by simp [contains, hgiven]))⟩
    obtain ⟨b, hb, rfl⟩ := List.mem_map.1 hmem
    exact ⟨b, filter_eq_singleton hplaced.once hb, hname b hb rfl, hplaced.declared b hb⟩

/-- A document with a choice of which an order tells before it is declared: by a reference, and in an array
of references to another choice. -/
def paidOrders : Document :=
  ⟨.obj [("paths", .obj []), ("components", .obj [("schemas", .obj [
    ("Order", .obj [("type", .str "object"), ("properties", .obj [
      ("paid", .obj [("$ref", .str "#/components/schemas/Payment")]),
      ("tried", .obj [("type", .str "array"), ("items", .obj [
        ("$ref", .str "#/components/schemas/Attempt")])])])]),
    ("Attempt", .obj [("oneOf", .arr [.obj [("$ref", .str "#/components/schemas/Payment")],
      .obj [("type", .str "string")]])]),
    ("Payment", .obj [("oneOf", .arr [
      .obj [("type", .str "object"), ("properties", .obj [
        ("amount", .obj [("type", .str "number")]),
        ("refund", .obj [("$ref", .str "#/components/schemas/Payment")])])],
      .obj [("type", .str "object"), ("properties", .obj [
        ("card", .obj [("type", .str "string")])])]])])])])]⟩

/-- The shape of a payment is written after the order and is called a payment in both, and so it is where
the order tells of a list of attempts. -/
theorem choice_rendered_paidOrders :
    let c := after (visitAll paidOrders {}) (start Oracle.always)
    let payment := TypeExpr.named (.str "Payment")
    ∃ defs c', definitions paidOrders {} (start Oracle.always) = .ok defs c' ∧
      defs.types.map (fun b => (b.name.display, b.fields.map fun f => f.type.text)) =
        [("Order", ["Payment", "[Payment]"]), ("Payment", ["Float", "Payment"])] ∧
      (Key.text "#/components/schemas/Payment", some ⟨5⟩) ∈ c.types ∧
      c.graph.oneOfVariant ⟨5⟩ = .ok (some ⟨7⟩) ∧ c.graph.hasFields ⟨7⟩ = true ∧
      (∃ b ∈ defs.types, ∃ f ∈ b.fields, f.node = ⟨2⟩ ∧
        Graph.Way c.graph.inner? (c.graph.node f.node).valueType? [⟨3⟩, ⟨4⟩, ⟨14⟩, ⟨16⟩] (some ⟨5⟩) ∧
        f.type = payment.list) ∧
      ∃ b, defs.types.filter (·.node = ⟨7⟩) = [b] ∧ b.name = .str "Payment" := by
  intro c payment
  have hrun : visitAll paidOrders {} (start Oracle.always) = .ok ⟨18⟩ c :=
    eq_ok_of_toOption_outcome (by decide +kernel)
  -- what holds of the graph is found out at once
  obtain ⟨hget, hvariant, hfields, hcomposed, hinner, h₀, h₁, h₂, h₃, h₄, harrays⟩ :
      get? (.text "#/components/schemas/Payment") c.types = some (some ⟨5⟩) ∧
        (c.graph.oneOfVariant ⟨5⟩).toOption = some (some ⟨7⟩) ∧ c.graph.hasFields ⟨7⟩ = true ∧
        (c.graph.node ⟨5⟩).body.isComposed = true ∧ c.graph.inner? ⟨5⟩ = some (some ⟨7⟩) ∧
        (c.graph.node ⟨2⟩).valueType? = some ⟨3⟩ ∧ c.graph.inner? ⟨3⟩ = some (some ⟨4⟩) ∧
        c.graph.inner? ⟨4⟩ = some (some ⟨14⟩) ∧ c.graph.inner? ⟨14⟩ = some (some ⟨16⟩) ∧
        c.graph.inner? ⟨16⟩ = some (some ⟨5⟩) ∧ c.graph.arrays [⟨3⟩, ⟨4⟩, ⟨14⟩, ⟨16⟩] = 1 := by
    decide +kernel
  have hvariant := Attempt.eq_ok_of_toOption hvariant
  have hname : typeName "#/components/schemas/Payment" = "Payment" := by decide +kernel
  obtain ⟨defs, hdefs, hwritten⟩ : ∃ defs, definitions paidOrders {} (start Oracle.always) = .ok defs _ ∧
      (defs.types.map (fun b => (b.name.display, b.fields.map fun f => f.type.text)),
        (TypeBlock.allFields defs.types).map Field.node) =
        ([("Order", ["Payment", "[Payment]"]), ("Payment", ["Float", "Payment"])],
          [⟨1⟩, ⟨2⟩, ⟨8⟩, ⟨10⟩]) :=
    exists_eq_ok_of_map_outcome (by decide +kernel)
  clear_value c
  have hstored : (Key.text "#/components/schemas/Payment", some ⟨5⟩) ∈ c.types := by
    obtain ⟨key, hmem, hkey⟩ := exists_mem_of_get? hget
    rwa [Key.eq_text_of_beq hkey] at hmem
  obtain ⟨parts, hbody⟩ : ∃ parts, (c.graph.node ⟨5⟩).body = .composed .oneOf parts := by
    rcases hbody : (c.graph.node ⟨5⟩).body with _ | _ | _ | _ | _ | ⟨_ | _, parts⟩ | _ | _ | _ <;>
      simp [Graph.inner?, Body.isComposed, hbody] at hcomposed hinner ⊢
  have hway : Graph.Way c.graph.inner? (c.graph.node ⟨2⟩).valueType? [⟨3⟩, ⟨4⟩, ⟨14⟩, ⟨16⟩]
      (some ⟨5⟩) := by
    rw [h₀]
    exact .step h₁ (.step h₂ (.step h₃ (.step h₄ (.start _))))
  obtain ⟨htexts, hnodes⟩ := Prod.mk.inj hwritten
  obtain ⟨query, c₁, hvisit, hall⟩ := choice_rendered hdefs
  obtain rfl : c₁ = c := (EStateM.Result.ok.inj (hvisit.symm.trans hrun)).2
  obtain ⟨declared, first, s, v, rfl, hkeeps, hv⟩ := hall _ _ _ hstored hbody
  obtain rfl : v = ⟨7⟩ := Option.some.inj (Except.ok.inj (hkeeps.variant.symm.trans hvariant))
  obtain ⟨htypes, b, hb, hbname, -⟩ := hv hfields
  rw [hname] at hbname
  refine ⟨defs, _, hdefs, htexts, hstored, hvariant, hfields, ?_, b, hb, hbname⟩
  have hmem : ⟨2⟩ ∈ (TypeBlock.allFields defs.types).map Field.node := by simp [hnodes]
  obtain ⟨f, hf, hnode⟩ := List.mem_map.1 hmem
  obtain ⟨order, horder, hf⟩ := List.mem_flatMap.1 hf
  rw [← hnode] at hway
  have htype := htypes order horder f hf _ hway
  rw [hname, harrays] at htype
  exact ⟨order, horder, f, hf, hnode, hway, htype⟩

end Conversion

end ApiGraph
