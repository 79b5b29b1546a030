import ApiGraph.Proofs.Depicting.Outlines
import ApiGraph.Proofs.Drafting.Unwrapping

/-!
# Declarations that can be read

What one run has read, every other one can read as well.

* `Document.Readable` — declarations that can be read, with all that they lead to;
* `Context.Read` — the declarations that were read in a run;
* `Context.Exact.readable` — those can be read;
* `Context.Sketched.exists_propertiesOf` — the properties of a member are found.
-/

namespace ApiGraph

open OrderedMap Context

/-- Declarations that can be read, with all that they lead to. -/
structure Document.Readable (d : Document) (K : Schema → Prop) : Prop where
  target : ∀ {ref}, K (.ref ref) → ∃ s, d.Declares ref s ∧ K s
  items : ∀ {s}, K (.array s) → K s
  property : ∀ {properties p}, K (.object properties) → p ∈ values (Document.declared properties) →
    K p.type
  members : ∀ {kind parts}, K (.composed kind parts) → ∃ elements, parts.elements = .ok elements ∧
    ∀ v ∈ elements, ∃ s, v.Declares s ∧ K s
  shape : ∀ {parts}, K (.composed .oneOf parts) → parts.elements ≠ .ok []
  brings : ∀ {parts}, K (.composed .allOf parts) → ∃ m, d.Brings (.composed .allOf parts) m

/-- The declarations that were read in a run: those of nodes that were visited, and references that were
resolved. -/
inductive Context.Read (c : Context) : Schema → Prop
  | node {i : NodeId} {s : Schema} (visited : c.Visited i) (depicts : c.graph.Depicts i s) : c.Read s
  | reference {ref : Json} {t : NodeId} (stored : c.stored? ref = some t) : c.Read (.ref ref)

variable {A : NodeId → Prop} {d : Document} {q : Option NodeId} {X : NodeId → Prop} {S : Schema → Prop}
  {c : Context} {i : NodeId} {ref : Json} {s : Schema}

namespace Context

/-! ## What was read -/

theorem Exact.read_of_stored (h : c.Exact A d) {t : NodeId} (hstored : c.stored? ref = some t) :
    ∃ s, d.Declares ref s ∧ c.Read s := by
  obtain ⟨s, hdeclares, hdepicts⟩ := h.faithful.stored ref t hstored
  exact ⟨s, hdeclares, .node ((h.whole.stored ref t hstored).resolve_right id) hdepicts⟩

theorem Exact.read_target (h : c.Exact A d) (hread : c.Read (.ref ref)) :
    ∃ s, d.Declares ref s ∧ c.Read s := by
  cases hread with
  | reference hstored => exact h.read_of_stored hstored
  | @node i _ hi hdepicts =>
    rw [Graph.Depicts] at hdepicts
    obtain ⟨t, hbody⟩ := hdepicts
    obtain ⟨t', -, hstored⟩ := (h.whole.ripe i hi).target ⟨ref, t⟩ (by rw [hbody]; rfl)
    exact h.read_of_stored hstored

theorem Exact.read_property (h : c.Exact A d) {properties : List (PropertyOf Schema)}
    (hread : c.Read (.object properties)) {p : PropertyOf Schema}
    (hp : p ∈ values (Document.declared properties)) : c.Read p.type := by
  cases hread with
  | @node i _ hi hdepicts =>
    obtain ⟨k, hk, hproperty⟩ := hdepicts.aligned.exists_left hp
    have hvisited : c.Visited k := h.visited_of_followed hi (by simp [Node.followed, hk])
    obtain ⟨name, required, declaration, type⟩ := p
    by_cases href : ∃ target, type = .ref target
    · obtain ⟨target, rfl⟩ := href
      rw [Graph.depictsProperty_ref] at hproperty
      obtain ⟨t, hbody⟩ := hproperty
      obtain ⟨t', -, hstored⟩ := (h.whole.ripe k hvisited).target ⟨target, t⟩ (by rw [hbody]; rfl)
      exact .reference hstored
    · rw [Graph.depictsProperty_plain fun target he => href ⟨target, he⟩] at hproperty
      obtain ⟨t, hbody, ht⟩ := hproperty
      exact .node (h.visited_of_followed hvisited (by simp [Node.followed, Node.type?, Node.slot?, hbody])) ht

/-- The shapes of a choice were read, and there is one. -/
theorem Exact.read_shapes (h : c.Exact A d) {parts : Json} (hread : c.Read (.composed .oneOf parts)) :
    ∃ first rest, parts.elements = .ok (first :: rest) ∧
      ∀ v ∈ first :: rest, ∃ s, v.Declares s ∧ c.Read s := by
  cases hread with
  | @node i _ hi hdepicts =>
    rw [Graph.Depicts] at hdepicts
    obtain ⟨_, shapes, u, ⟨⟩, helements, hchildren, -, -, hunion⟩ := (h.whole.ripe i hi).oneOf _ hdepicts
    have hu : c.Visited u := h.visited_of_followed hi (by simp [Node.followed, hchildren])
    obtain ⟨first, rest, -, rfl, -⟩ := (h.whole.ripe u hu).union shapes hunion
    refine ⟨first, rest, helements, fun v hv => ?_⟩
    obtain ⟨k, s, hdeclares, hdepicts, hk⟩ := (h.faithful.drawn u hu).shapes _ hunion v hv
    exact ⟨s, hdeclares, .node hk hdepicts⟩

/-- The members of a composition were read. -/
theorem Exact.read_members (h : c.Exact A d) {parts : Json} (hread : c.Read (.composed .allOf parts)) :
    ∃ elements, parts.elements = .ok elements ∧ ∀ v ∈ elements, ∃ s, v.Declares s ∧ c.Read s := by
  cases hread with
  | @node i _ hi hdepicts =>
    rw [Graph.Depicts] at hdepicts
    obtain ⟨_, elements, held, ⟨⟩, helements, hgathered, -⟩ :=
      (h.faithful.drawn i hi).merged _ hdepicts
    refine ⟨elements, helements, fun v hv => ?_⟩
    obtain ⟨e, -, he⟩ := exists_of_forall₂_left hgathered.contributes hv
    obtain ⟨s, hdeclares, hmember⟩ := he.member
    exact ⟨s, hdeclares, .node he.visited hmember⟩

/-- What was read can be read. -/
theorem Exact.readable (h : c.Exact A d) : d.Readable c.Read where
  target := h.read_target
  items := by
    rintro s ⟨hi, hdepicts⟩
    rw [Graph.Depicts] at hdepicts
    obtain ⟨k, hbody, hk⟩ := hdepicts
    exact .node (h.visited_of_followed hi (by simp [Node.followed, Node.items?, hbody])) hk
  property := fun hread hp => h.read_property hread hp
  members := by
    rintro (_ | _) parts hread
    · exact h.read_members hread
    · obtain ⟨first, rest, helements, hshapes⟩ := h.read_shapes hread
      exact ⟨_, helements, hshapes⟩
  shape := by
    intro parts hread hnone
    obtain ⟨first, rest, helements, -⟩ := h.read_shapes hread
    rw [hnone] at helements
    cases helements
  brings := by
    rintro parts ⟨hi, hdepicts⟩
    rw [Graph.Depicts] at hdepicts
    obtain ⟨m, hbrings, -⟩ := (h.faithful.drawn _ hi).composed _ _ hdepicts
    exact ⟨m, hbrings⟩

end Context

/-! ## Properties of members -/

namespace Graph

variable {g : Graph} {m : OrderedMap Key NodeId} {steps : Nat}

/-- The node that a reference was resolved to. -/
def referred? (g : Graph) (i : NodeId) : Option (Option NodeId) :=
  match (g.node i).body with
  | .ref ⟨_, some t⟩ => some (some t)
  | _ => none

theorem lt_size_of_referred? {v : Option NodeId} (h : g.referred? i = some v) : i.index < g.size := by
  refine Nat.lt_of_not_le fun hle => ?_
  rw [referred?, node_of_size_le hle] at h
  cases h

/-- The properties of a node are found at the end of a way of references. -/
theorem exists_lands_of_propertiesWithin (h : g.propertiesWithin steps i = .ok m) :
    ∃ n t, LandsIn g.referred? n (some i) t ∧ ∀ more, n < more → g.propertiesWithin more i = .ok m := by
  induction steps generalizing i with
  | zero => cases h
  | succ steps ih =>
    rw [propertiesWithin] at h
    by_cases href : ∃ ref t, (g.node i).body = .ref ⟨ref, some t⟩
    · obtain ⟨ref, t, hbody⟩ := href
      simp only [hbody] at h
      obtain ⟨n, t', hway, hfound⟩ := ih h
      refine ⟨n + 1, t', .step (by rw [referred?, hbody]) hway, fun more hmore => ?_⟩
      obtain ⟨more, rfl⟩ : ∃ k, more = k + 1 := ⟨more - 1, by omega⟩
      rw [propertiesWithin]
      simp only [hbody]
      exact hfound more (by omega)
    · refine ⟨0, i, .last ?_, fun more hmore => ?_⟩
      · rw [referred?]
        split
        · next ref t hbody => exact absurd ⟨ref, t, hbody⟩ href
        · rfl
      · obtain ⟨more, rfl⟩ : ∃ k, more = k + 1 := ⟨more - 1, by omega⟩
        rw [propertiesWithin]
        split at h
        · next ref t hbody => exact absurd ⟨ref, t, hbody⟩ href
        all_goals exact h

/-- The number of nodes is enough for every way of references that comes to an end. -/
theorem propertiesOf_of_propertiesWithin (h : g.propertiesWithin steps i = .ok m) :
    g.propertiesOf i = .ok m := by
  obtain ⟨n, t, hway, hfound⟩ := exists_lands_of_propertiesWithin h
  have hlength := hway.add_length_le (fun _ _ => lt_size_of_referred?) List.nodup_nil (by simp) (by simp)
  exact hfound _ (Nat.lt_succ_of_le hlength)

/-- Other nodes than resolved references bring what they have. -/
theorem exists_propertiesWithin (h : ∀ ref t, (g.node i).body ≠ .ref ⟨ref, some t⟩) :
    ∃ steps props, g.propertiesWithin steps i = .ok props := by
  refine ⟨1, ?_⟩
  rw [propertiesWithin]
  split
  · next ref t hbody => exact absurd hbody (h ref t)
  all_goals exact ⟨_, rfl⟩

end Graph

namespace Context.Sketched

theorem exists_propertiesWithin (h : c.Sketched A d q X S) (hs : S s) {s' : Schema}
    {m : OrderedMap Key (PropertyOf Schema)} {i : NodeId} (hbrings : d.Brings s' m) (hi : c.Visited i)
    (hdepicts : c.graph.Depicts i s') (hfree : ∀ ref, s' = .ref ref → ¬d.Reaches (.ref ref) s) :
    ∃ steps props, c.graph.propertiesWithin steps i = .ok props := by
  have hplain : ∀ {s' i}, (∀ ref, s' ≠ .ref ref) → c.graph.Depicts i s' →
      ∃ steps props, c.graph.propertiesWithin steps i = .ok props := by
    intro s' i hs' hdepicts
    refine Graph.exists_propertiesWithin fun ref t hbody => ?_
    cases s' with
    | ref ref => exact hs' ref rfl
    | _ => simp [Graph.Depicts, hbody] at hdepicts
  revert i
  -- only a reference has its properties from somewhere else
  refine @Document.Brings.rec d (fun s' _ _ => (∀ ref, s' = .ref ref → ¬d.Reaches (.ref ref) s) →
      ∀ {i}, c.Visited i → c.graph.Depicts i s' →
        ∃ steps props, c.graph.propertiesWithin steps i = .ok props) (fun _ _ _ _ => True)
    (fun _ _ _ _ => hplain (by simp)) (fun _ _ _ _ => hplain (by simp)) (fun _ _ _ _ => hplain (by simp))
    (fun _ _ _ _ => hplain (by simp)) (fun _ _ _ _ _ _ => hplain (by simp)) ?_ (fun _ => trivial)
    (fun _ _ _ _ _ => trivial) s' m hbrings hfree
  intro ref s' m hdeclares _ ih hfree i hi hdepicts
  obtain ⟨t, s'', hbody, ht, hdeclares', hdepicts', hfree'⟩ := h.target hi hdepicts hs (hfree _ rfl)
  cases hdeclares.unique hdeclares'
  obtain ⟨steps, props, hprops⟩ := ih hfree' ht hdepicts'
  refine ⟨steps + 1, props, ?_⟩
  rw [Graph.propertiesWithin]
  simp only [hbody]
  exact hprops

/-- A node that was visited has properties to bring when its declaration has, unless it is a reference
that leads to the composition. -/
theorem exists_propertiesOf (h : c.Sketched A d q X S) (hi : c.Visited i) {s' : Schema}
    (hdepicts : c.graph.Depicts i s') (hs : S s) (hfree : ∀ ref, s' = .ref ref → ¬d.Reaches (.ref ref) s)
    {m : OrderedMap Key (PropertyOf Schema)} (hbrings : d.Brings s' m) :
    ∃ props, c.graph.propertiesOf i = .ok props := by
  obtain ⟨steps, props, hprops⟩ := h.exists_propertiesWithin hs hbrings hi hdepicts hfree
  exact ⟨props, Graph.propertiesOf_of_propertiesWithin hprops⟩

end Context.Sketched

end ApiGraph
