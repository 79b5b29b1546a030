import ApiGraph.Proofs.Depicting.Faithful

/-!
# Outlines

What is left of a node, with everything that belongs to it, when nobody asks where in a graph it lies.

* `Graph.outline` — the outline of a node, down to a depth;
* `Graph.outline_eq_of_matching` — nodes that match, and below which nodes match, have the same outline;
* `Graph.Twins` — nodes of two graphs that depict the same;
* `Context.Exact` — a state in which nothing is owed, and the graph is faithful to the document;
* `Context.Exact.matching` — in such states, nodes that depict the same match.
-/

namespace ApiGraph

open OrderedMap Context

/-- A body without the nodes that it leads to. Its kind is left, the reference, and what a named member
says about its value. -/
def Body.isolated : Body → Body
  | .array _ => .array none
  | .ref link => .ref ⟨link.ref, none⟩
  | .property slot _ link =>
    .property ⟨slot.required, slot.declaration, none⟩ [] (link.map fun link => ⟨link.ref, none⟩)
  | .parameter slot => .parameter ⟨slot.required, slot.declaration, none⟩
  | body => body

/-- The nodes inside a node that are no properties. Where a reference leads is not inside. -/
def Node.inline (n : Node) : List (Option NodeId) :=
  match n.body with
  | .array items => [items]
  | .property slot arguments none => slot.type :: arguments
  | .property _ arguments (some _) => arguments
  | .parameter slot => [slot.type]
  | .composed _ _ => n.children
  | .union _ => n.children
  | _ => []

/-- A node with what is inside it, down to a depth where it is cut off. -/
inductive Outline where
  | cut
  | node (body : Body) (properties : List (Key × Outline)) (inline : List (Option Outline))
deriving Inhabited

/-- The outline of a node, down to a depth. It ends at references. -/
def Graph.outline (g : Graph) : Nat → NodeId → Outline
  | 0, _ => .cut
  | depth + 1, i =>
    .node (g.node i).body.isolated ((g.node i).props.map fun e => (e.1, g.outline depth e.2))
      ((g.node i).inline.map fun k => k.map (g.outline depth))

@[simp] theorem Body.kindName_isolated (b : Body) : b.isolated.kindName = b.kindName := by
  rcases b with _ | _ | _ | _ | _ | _ | _ | ⟨_, _, _ | _⟩ | _ <;> rfl

/-! ## Nodes that match -/

/-- Nodes that say the same, where nodes of a relation belong to. -/
structure Node.Matching (R : NodeId → NodeId → Prop) (n n' : Node) : Prop where
  body : n.body.isolated = n'.body.isolated
  props : Aligned R n.props n'.props
  inline : List.Forall₂ (Option.Rel R) n.inline n'.inline

variable {R : NodeId → NodeId → Prop} {g g' : Graph} {i i' : NodeId}

/-- Nodes that match, and below which nodes match, have the same outline. -/
theorem Graph.outline_eq_of_matching
    (hR : ∀ i i', R i i' → (g.node i).Matching R (g'.node i')) (depth : Nat) (h : R i i') :
    g.outline depth i = g'.outline depth i' := by
  induction depth generalizing i i' with
  | zero => rfl
  | succ depth ih =>
    have hmatching := hR i i' h
    rw [outline, outline, hmatching.body]
    congr 1
    · rw [← List.forall₂_eq_eq_eq, List.forall₂_map_left_iff, List.forall₂_map_right_iff]
      exact List.Forall₂.imp (fun e e' he => Prod.ext he.1 (ih he.2)) hmatching.props
    · rw [← List.forall₂_eq_eq_eq, List.forall₂_map_left_iff, List.forall₂_map_right_iff]
      refine hmatching.inline.imp fun k k' hk => ?_
      cases hk with
      | none => rfl
      | some hk => rw [Option.map_some, Option.map_some, ih hk]

/-! ## Twins -/

/-- Nodes of two graphs that depict the same declaration or the same property, or choose between the
same shapes. -/
inductive Graph.Twins (g g' : Graph) (i i' : NodeId) : Prop
  | declaration {s : Schema} (depicts : g.Depicts i s) (depicts' : g'.Depicts i' s)
  | property {p : PropertyOf Schema} (depicts : g.DepictsProperty i p)
      (depicts' : g'.DepictsProperty i' p)
  | choice {shapes : List Json} (body : (g.node i).body = .union shapes)
      (body' : (g'.node i').body = .union shapes)

namespace OrderedMap

variable {κ α β γ : Type} {R : α → γ → Prop} {S : β → γ → Prop} {m : OrderedMap κ α}
  {m' : OrderedMap κ β} {x : OrderedMap κ γ}

/-- What holds of all values of a map holds beside the values that belong to them. -/
theorem Aligned.and {Q : α → Prop} (h : Aligned R m x) (hQ : ∀ a ∈ values m, Q a) :
    Aligned (fun a c => Q a ∧ R a c) m x := by
  induction h with
  | nil => exact .nil
  | cons he _ ih =>
    obtain ⟨hfirst, hrest⟩ := List.forall_mem_cons.1 hQ
    exact .cons ⟨he.1, hfirst, he.2⟩ (ih hrest)

/-- Maps beside the same map are beside each other. -/
theorem Aligned.join (h : Aligned R m x) (h' : Aligned S m' x) :
    Aligned (fun a b => ∃ c, R a c ∧ S b c) m m' := by
  induction h generalizing m' with
  | nil =>
    cases h'
    exact .nil
  | cons he _ ih =>
    cases h' with
    | cons he' hrest' => exact .cons ⟨he.1.trans he'.1.symm, _, he.2, he'.2⟩ (ih hrest')

/-- The values of maps side by side are side by side. -/
theorem Aligned.values {R : α → β → Prop} (h : Aligned R m m') :
    List.Forall₂ (Option.Rel R) ((values m).map some) ((values m').map some) := by
  rw [List.forall₂_map_left_iff, List.forall₂_map_right_iff]
  exact h.forall₂_values.imp fun _ _ => .some

end OrderedMap

/-- A state between visits: nothing is owed, and the graph is faithful to the document. -/
structure Context.Exact (A : NodeId → Prop) (d : Document) (c : Context) : Prop where
  whole : Whole A (fun _ => False) c
  faithful : c.Faithful d

variable {A A' : NodeId → Prop} {d : Document} {c c' : Context} {s : Schema}

namespace Context

theorem Exact.visited_of_followed (h : c.Exact A d) (hi : c.Visited i) {k : NodeId}
    (hk : k ∈ (c.graph.node i).followed) : c.Visited k :=
  (h.whole.led i hi k hk).resolve_right id

/-- Nodes that were visited, and that depict the same. -/
def Paired (c c' : Context) (i i' : NodeId) : Prop :=
  c.Visited i ∧ c'.Visited i' ∧ c.graph.Twins c'.graph i i'

/-- Maps of properties that were visited, and that depict the same properties. -/
theorem aligned_paired {m m' : OrderedMap Key NodeId} {x : OrderedMap Key (PropertyOf Schema)}
    (h : Aligned c.graph.DepictsProperty m x) (h' : Aligned c'.graph.DepictsProperty m' x)
    (hvisited : ∀ k ∈ values m, c.Visited k) (hvisited' : ∀ k ∈ values m', c'.Visited k) :
    Aligned (Paired c c') m m' := by
  refine ((h.and hvisited).join (h'.and hvisited')).imp ?_
  rintro k k' ⟨p, ⟨hk, hp⟩, hk', hp'⟩
  exact ⟨hk, hk', .property hp hp'⟩

variable (h : c.Exact A d) (h' : c'.Exact A' d) (hi : c.Visited i) (hi' : c'.Visited i')

include h h' hi hi'

/-- Nodes that gather nothing match when what is inside them does. -/
theorem Exact.matching_plain
    (hbody : (c.graph.node i).body.isolated = (c'.graph.node i').body.isolated)
    (hplain : (c.graph.node i).body.isComposed = false ∧ (c.graph.node i).body ≠ .object)
    (hplain' : (c'.graph.node i').body.isComposed = false ∧ (c'.graph.node i').body ≠ .object)
    (hinline : List.Forall₂ (Option.Rel (Paired c c')) (c.graph.node i).inline
      (c'.graph.node i').inline) :
    (c.graph.node i).Matching (Paired c c') (c'.graph.node i') := by
  refine ⟨hbody, ?_, hinline⟩
  rw [(h.faithful.drawn i hi).bare hplain.1 hplain.2,
    (h'.faithful.drawn i' hi').bare hplain'.1 hplain'.2]
  exact .nil

theorem Exact.matching_composed {kind : Composition} {parts : Json}
    (hbody : (c.graph.node i).body = .composed kind (some parts))
    (hbody' : (c'.graph.node i').body = .composed kind (some parts)) :
    (c.graph.node i).Matching (Paired c c') (c'.graph.node i') := by
  have hfollowed := fun k => h.visited_of_followed hi (k := k)
  have hfollowed' := fun k => h'.visited_of_followed hi' (k := k)
  obtain ⟨m, hbrings, haligned⟩ := (h.faithful.drawn i hi).composed kind parts hbody
  obtain ⟨m', hbrings', haligned'⟩ := (h'.faithful.drawn i' hi').composed kind parts hbody'
  cases hbrings.unique hbrings'
  have hprops : Aligned (Paired c c') (c.graph.node i).props (c'.graph.node i').props :=
    aligned_paired haligned haligned' (fun k hk => hfollowed k (by simp [Node.followed, hk]))
      fun k hk => hfollowed' k (by simp [Node.followed, hk])
  refine ⟨by rw [hbody, hbody'], hprops, ?_⟩
  rw [Node.inline, Node.inline, hbody, hbody']
  cases kind with
  | allOf =>
    simp only [(h.whole.ripe i hi).allOf _ hbody, (h'.whole.ripe i' hi').allOf _ hbody']
    exact hprops.values
  | oneOf =>
    obtain ⟨declared, shapes, u, hparts, helements, hchildren, -, -, hunion⟩ :=
      (h.whole.ripe i hi).oneOf _ hbody
    obtain ⟨declared', shapes', u', hparts', helements', hchildren', -, -, hunion'⟩ :=
      (h'.whole.ripe i' hi').oneOf _ hbody'
    cases hparts
    cases hparts'
    rw [helements] at helements'
    cases helements'
    have hu := hfollowed u (by simp [Node.followed, hchildren])
    have hu' := hfollowed' u' (by simp [Node.followed, hchildren'])
    simp only [hchildren, hchildren']
    exact .cons (.some ⟨hu, hu', .choice hunion hunion'⟩) .nil

theorem Exact.matching_declaration (hdepicts : c.graph.Depicts i s)
    (hdepicts' : c'.graph.Depicts i' s) :
    (c.graph.node i).Matching (Paired c c') (c'.graph.node i') := by
  have hfollowed := fun k => h.visited_of_followed hi (k := k)
  have hfollowed' := fun k => h'.visited_of_followed hi' (k := k)
  have hplain := h.matching_plain h' hi hi'
  cases s with
  | ref ref =>
    rw [Graph.Depicts] at hdepicts hdepicts'
    obtain ⟨t, hbody⟩ := hdepicts
    obtain ⟨t', hbody'⟩ := hdepicts'
    rw [hbody, hbody'] at hplain
    refine hplain rfl ⟨rfl, (by simp)⟩ ⟨rfl, (by simp)⟩ ?_
    rw [Node.inline, Node.inline, hbody, hbody']
    exact .nil
  | scalar type =>
    rw [Graph.Depicts] at hdepicts hdepicts'
    rw [hdepicts, hdepicts'] at hplain
    refine hplain rfl ⟨rfl, (by simp)⟩ ⟨rfl, (by simp)⟩ ?_
    rw [Node.inline, Node.inline, hdepicts, hdepicts']
    exact .nil
  | array items =>
    rw [Graph.Depicts] at hdepicts hdepicts'
    obtain ⟨k, hbody, hk⟩ := hdepicts
    obtain ⟨k', hbody', hk'⟩ := hdepicts'
    rw [hbody, hbody'] at hplain
    refine hplain rfl ⟨rfl, (by simp)⟩ ⟨rfl, (by simp)⟩ ?_
    have hvisited := hfollowed k (by simp [Node.followed, Node.items?, hbody])
    have hvisited' := hfollowed' k' (by simp [Node.followed, Node.items?, hbody'])
    rw [Node.inline, Node.inline, hbody, hbody']
    exact .cons (.some ⟨hvisited, hvisited', .declaration hk hk'⟩) .nil
  | object properties =>
    have hprops := aligned_paired hdepicts.aligned hdepicts'.aligned
      (fun k hk => hfollowed k (by simp [Node.followed, hk]))
      fun k hk => hfollowed' k (by simp [Node.followed, hk])
    rw [Graph.Depicts] at hdepicts hdepicts'
    refine ⟨by rw [hdepicts.1, hdepicts'.1], hprops, ?_⟩
    rw [Node.inline, Node.inline, hdepicts.1, hdepicts'.1]
    exact .nil
  | composed kind parts =>
    rw [Graph.Depicts] at hdepicts hdepicts'
    exact h.matching_composed h' hi hi' hdepicts hdepicts'

theorem Exact.matching_property {p : PropertyOf Schema} (hdepicts : c.graph.DepictsProperty i p)
    (hdepicts' : c'.graph.DepictsProperty i' p) :
    (c.graph.node i).Matching (Paired c c') (c'.graph.node i') := by
  have hplain := h.matching_plain h' hi hi'
  obtain ⟨name, required, declaration, type⟩ := p
  by_cases href : ∃ target, type = .ref target
  · obtain ⟨target, rfl⟩ := href
    rw [Graph.depictsProperty_ref] at hdepicts hdepicts'
    obtain ⟨t, hbody⟩ := hdepicts
    obtain ⟨t', hbody'⟩ := hdepicts'
    rw [hbody, hbody'] at hplain
    refine hplain rfl ⟨rfl, (by simp)⟩ ⟨rfl, (by simp)⟩ ?_
    rw [Node.inline, Node.inline, hbody, hbody']
    exact .nil
  · have hnone : ∀ target, type ≠ .ref target := fun target he => href ⟨target, he⟩
    rw [Graph.depictsProperty_plain hnone] at hdepicts hdepicts'
    obtain ⟨t, hbody, ht⟩ := hdepicts
    obtain ⟨t', hbody', ht'⟩ := hdepicts'
    rw [hbody, hbody'] at hplain
    refine hplain rfl ⟨rfl, (by simp)⟩ ⟨rfl, (by simp)⟩ ?_
    have hvisited := h.visited_of_followed hi (k := t)
      (by simp [Node.followed, Node.type?, Node.slot?, hbody])
    have hvisited' := h'.visited_of_followed hi' (k := t')
      (by simp [Node.followed, Node.type?, Node.slot?, hbody'])
    rw [Node.inline, Node.inline, hbody, hbody']
    exact .cons (.some ⟨hvisited, hvisited', .declaration ht ht'⟩) .nil

theorem Exact.matching_choice {shapes : List Json}
    (hbody : (c.graph.node i).body = .union shapes)
    (hbody' : (c'.graph.node i').body = .union shapes) :
    (c.graph.node i).Matching (Paired c c') (c'.graph.node i') := by
  have hplain := h.matching_plain h' hi hi'
  obtain ⟨first, rest, -, rfl, -⟩ := (h.whole.ripe i hi).union shapes hbody
  obtain ⟨v, s, hv, hdeclares, hdepicts, -⟩ := (h.faithful.drawn i hi).union first rest hbody
  obtain ⟨v', s', hv', hdeclares', hdepicts', -⟩ := (h'.faithful.drawn i' hi').union first rest hbody'
  cases hdeclares.unique hdeclares'
  rw [hbody, hbody'] at hplain
  refine hplain rfl ⟨rfl, (by simp)⟩ ⟨rfl, (by simp)⟩ ?_
  have hvisited := h.visited_of_followed hi (k := v) (by simp [Node.followed, hv])
  have hvisited' := h'.visited_of_followed hi' (k := v') (by simp [Node.followed, hv'])
  rw [Node.inline, Node.inline, hbody, hbody']
  simp only [hv, hv']
  exact .cons (.some ⟨hvisited, hvisited', .declaration hdepicts hdepicts'⟩) .nil

omit hi hi' in
/-- In exact graphs, nodes that depict the same match. -/
theorem Exact.matching (hpaired : Paired c c' i i') :
    (c.graph.node i).Matching (Paired c c') (c'.graph.node i') := by
  obtain ⟨hi, hi', htwins⟩ := hpaired
  cases htwins with
  | declaration hdepicts hdepicts' => exact h.matching_declaration h' hi hi' hdepicts hdepicts'
  | property hdepicts hdepicts' => exact h.matching_property h' hi hi' hdepicts hdepicts'
  | choice hbody hbody' => exact h.matching_choice h' hi hi' hbody hbody'

omit hi hi' in
/-- What two runs have stored under a reference depicts the same. -/
theorem Exact.paired {ref : Json} (hstored : c.stored? ref = some i)
    (hstored' : c'.stored? ref = some i') : Paired c c' i i' := by
  obtain ⟨s, hdeclares, hdepicts⟩ := h.faithful.stored ref i hstored
  obtain ⟨s', hdeclares', hdepicts'⟩ := h'.faithful.stored ref i' hstored'
  cases hdeclares.unique hdeclares'
  exact ⟨(h.whole.stored ref i hstored).resolve_right id,
    (h'.whole.stored ref i' hstored').resolve_right id, .declaration hdepicts hdepicts'⟩

omit hi hi' in
/-- Nodes of exact graphs that depict the same have the same outline. -/
theorem Exact.outline_eq (hpaired : Paired c c' i i') (depth : Nat) :
    c.graph.outline depth i = c'.graph.outline depth i' :=
  Graph.outline_eq_of_matching (fun _ _ => h.matching h') depth hpaired

end Context

end ApiGraph
