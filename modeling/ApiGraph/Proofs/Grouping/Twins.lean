import ApiGraph.Proofs.Graph.Tidy

/-!
# Nodes under other places

Two nodes that say the same and speak of the same nodes, which are at different places.

* `OrderedMap.mapValues` — a map with other values under the same keys;
* `Node.ids`, `Body.rename` — the nodes that a node speaks of, and a body with these under other places;
* `Node.Twin` — two nodes that say the same under different places;
* `Node.Twin.addChild`, `Node.Twin.putProperty` — they stay twins when the same is done to both.
-/

namespace ApiGraph

open OrderedMap

/-! ## Maps with other values -/

namespace OrderedMap

variable {κ α β : Type}

/-- The same keys with other values. -/
def mapValues (f : α → β) (m : OrderedMap κ α) : OrderedMap κ β := m.map (Prod.map id f)

variable {f f' : α → β}

theorem mapValues_congr {m : OrderedMap κ α} (h : ∀ a ∈ values m, f a = f' a) :
    mapValues f m = mapValues f' m :=
  List.map_congr_left fun e he => Prod.ext rfl (h e.2 (List.mem_map_of_mem he))

theorem values_mapValues (f : α → β) (m : OrderedMap κ α) :
    values (mapValues f m) = (values m).map f := by
  simp [values, mapValues]

theorem keys_mapValues (f : α → β) (m : OrderedMap κ α) : keys (mapValues f m) = keys m := by
  simp [keys, mapValues]

variable [BEq κ]

theorem get?_mapValues (key : κ) (m : OrderedMap κ α) :
    get? key (mapValues f m) = (get? key m).map f := by
  induction m with
  | nil => rfl
  | cons e rest ih =>
    obtain ⟨k, a⟩ := e
    show (if k == key then some (f a) else get? key (mapValues f rest)) = _
    rw [get?_cons, ih]
    split <;> rfl

theorem insert_mapValues (key : κ) (a : α) (m : OrderedMap κ α) :
    insert key (f a) (mapValues f m) = mapValues f (insert key a m) := by
  induction m with
  | nil => rfl
  | cons e rest ih =>
    obtain ⟨k, b⟩ := e
    show (if k == key then (k, f a) :: mapValues f rest
      else (k, f b) :: insert key (f a) (mapValues f rest)) = _
    rw [ih, insert]
    split <;> rfl

theorem insertAll_mapValues (m more : OrderedMap κ α) :
    insertAll (mapValues f m) (mapValues f more) = mapValues f (insertAll m more) := by
  induction more generalizing m with
  | nil => rfl
  | cons e rest ih =>
    show insertAll (insert e.1 (f e.2) (mapValues f m)) (mapValues f rest) = _
    rw [insert_mapValues, ih]
    rfl

end OrderedMap

/-! ## Renaming -/

/-- A link to where its target is under other places. -/
def Link.rename (σ : NodeId → NodeId) (link : Link) : Link := { link with target := link.target.map σ }

/-- A slot with its type under other places. -/
def Slot.rename (σ : NodeId → NodeId) (slot : Slot) : Slot := { slot with type := slot.type.map σ }

namespace Body

/-- The nodes that a body speaks of. -/
def ids : Body → List NodeId
  | .array items => items.toList
  | .ref link => link.target.toList
  | .property slot arguments link =>
    slot.type.toList ++ arguments.filterMap id ++ (link.bind Link.target).toList
  | .parameter slot => slot.type.toList
  | _ => []

/-- A body with its nodes under other places. -/
def rename (σ : NodeId → NodeId) : Body → Body
  | .array items => .array (items.map σ)
  | .ref link => .ref (link.rename σ)
  | .property slot arguments link =>
    .property (slot.rename σ) (arguments.map (Option.map σ)) (link.map (Link.rename σ))
  | .parameter slot => .parameter (slot.rename σ)
  | body => body

/-- A composition by `allOf`, whatever its members are. -/
def IsAllOf (b : Body) : Prop := ∃ members, b = .composed .allOf members

end Body

/-- The nodes that a node speaks of, besides the one that it was made for. -/
def Node.ids (n : Node) : List NodeId :=
  n.body.ids ++ values n.props ++ n.children.filterMap id ++ n.attached.join.toList

section

variable {σ τ : NodeId → NodeId} {n n' : Node} {odd : Prop}

theorem map_congr_of_mem_toList {o : Option NodeId} (h : ∀ k ∈ o.toList, σ k = τ k) :
    o.map σ = o.map τ := by
  cases o with
  | none => rfl
  | some k => exact congrArg some (h k List.mem_cons_self)

theorem map_map_congr_of_mem_filterMap {ks : List (Option NodeId)}
    (h : ∀ k ∈ ks.filterMap id, σ k = τ k) : ks.map (Option.map σ) = ks.map (Option.map τ) :=
  List.map_congr_left fun o ho => map_congr_of_mem_toList fun k hk =>
    h k (List.mem_filterMap.2 ⟨o, ho, Option.mem_toList.1 hk⟩)

theorem Link.rename_congr {link : Link} (h : ∀ k ∈ link.target.toList, σ k = τ k) :
    link.rename σ = link.rename τ := by
  rw [rename, rename, map_congr_of_mem_toList h]

theorem Slot.rename_congr {slot : Slot} (h : ∀ k ∈ slot.type.toList, σ k = τ k) :
    slot.rename σ = slot.rename τ := by
  rw [rename, rename, map_congr_of_mem_toList h]

/-- Only the nodes that a body speaks of matter. -/
theorem Body.rename_congr {b : Body} (h : ∀ k ∈ b.ids, σ k = τ k) : b.rename σ = b.rename τ := by
  cases b with
  | array items => exact congrArg Body.array (map_congr_of_mem_toList h)
  | ref link => exact congrArg Body.ref (Link.rename_congr h)
  | parameter slot => exact congrArg Body.parameter (Slot.rename_congr h)
  | property slot arguments link =>
    simp only [ids, List.mem_append, or_imp, forall_and] at h
    obtain ⟨⟨hslot, harguments⟩, hlink⟩ := h
    rw [rename, rename, Slot.rename_congr hslot, map_map_congr_of_mem_filterMap harguments]
    cases link with
    | none => rfl
    | some link =>
      rw [Option.map_some, Option.map_some, Link.rename_congr hlink]
  | _ => rfl

theorem Body.rename_id (b : Body) : b.rename id = b := by
  have hlink : ∀ link : Link, link.rename id = link := fun link => by simp [Link.rename]
  rcases b with _ | _ | _ | _ | _ | _ | _ | ⟨_, _, _ | _⟩ | _ <;>
    simp [rename, Slot.rename, hlink]

theorem Body.isComposed_rename (b : Body) : (b.rename σ).isComposed = b.isComposed := by
  cases b <;> rfl

/-! ## Twins -/

/-- Two nodes that say the same, with their links to the same nodes under different places. What the
members of a composition are does not matter for an odd one. -/
structure Node.Twin (σ : NodeId → NodeId) (odd : Prop) (n n' : Node) : Prop where
  body : n'.body = n.body.rename σ ∨ odd ∧ n.body.IsAllOf ∧ n'.body.IsAllOf
  name : n'.name = n.name
  visited : n'.visited = n.visited
  props : n'.props = mapValues σ n.props
  children : n'.children = n.children.map (Option.map σ)
  attached : n'.attached = n.attached.map (Option.map σ)

namespace Node

theorem mem_ids {k : NodeId} : k ∈ n.ids ↔ k ∈ n.body.ids ∨ k ∈ values n.props ∨ some k ∈ n.children ∨
    n.attached = some (some k) := by
  rcases h : n.attached with _ | _ | a <;>
    simp [ids, h, eq_comm]

/-- A node that says the same as itself under other places. -/
theorem twin_of_ids (h : ∀ k ∈ n.ids, σ k = k) (odd : Prop) : n.Twin σ odd n := by
  have hbody : ∀ k ∈ n.body.ids, σ k = id k := fun k hk => h k (mem_ids.2 (.inl hk))
  have hprops : ∀ k ∈ values n.props, σ k = id k := fun k hk => h k (mem_ids.2 (.inr (.inl hk)))
  have hchildren : ∀ k ∈ n.children.filterMap id, σ k = id k := fun k hk =>
    h k (mem_ids.2 (.inr (.inr (.inl (by simpa using hk)))))
  refine ⟨.inl ?_, rfl, rfl, ?_, ?_, ?_⟩
  · rw [Body.rename_congr hbody, Body.rename_id]
  · rw [mapValues_congr hprops]
    exact (List.map_id _).symm
  · rw [map_map_congr_of_mem_filterMap hchildren, Option.map_id, List.map_id]
  · rcases hattached : n.attached with _ | _ | k
    · rfl
    · rfl
    · rw [Option.map_some, Option.map_some, h k (mem_ids.2 (.inr (.inr (.inr hattached))))]

namespace Twin

theorem congr (h : n.Twin σ odd n') (hids : ∀ k ∈ n.ids, σ k = τ k) : n.Twin τ odd n' := by
  obtain ⟨hbody, hname, hvisited, hprops, hchildren, hattached⟩ := h
  refine ⟨?_, hname, hvisited, ?_, ?_, ?_⟩
  · rwa [← Body.rename_congr fun k hk => hids k (mem_ids.2 (.inl hk))]
  · rwa [← mapValues_congr fun k hk => hids k (mem_ids.2 (.inr (.inl hk)))]
  · rwa [← map_map_congr_of_mem_filterMap fun k hk =>
      hids k (mem_ids.2 (.inr (.inr (.inl (by simpa using hk)))))]
  · rw [hattached]
    rcases hn : n.attached with _ | _ | k
    · rfl
    · rfl
    · rw [Option.map_some, Option.map_some, Option.map_some, Option.map_some,
        hids k (mem_ids.2 (.inr (.inr (.inr hn))))]

theorem isComposed (h : n.Twin σ odd n') : n'.body.isComposed = n.body.isComposed := by
  rcases h.body with hbody | ⟨-, ⟨_, hbody⟩, ⟨_, hbody'⟩⟩
  · rw [hbody, Body.isComposed_rename]
  · rw [hbody, hbody']
    rfl

/-- The body of an even one is the same. -/
theorem body_eq (h : n.Twin σ odd n') (heven : ¬odd) : n'.body = n.body.rename σ :=
  h.body.resolve_right fun hodd => heven hodd.1

theorem setBody (h : n.Twin σ odd n') (b : Body) :
    Node.Twin σ odd { n with body := b } { n' with body := b.rename σ } :=
  ⟨.inl rfl, h.name, h.visited, h.props, h.children, h.attached⟩

theorem setChildren (h : n.Twin σ odd n') (ks : List (Option NodeId)) :
    Node.Twin σ odd { n with children := ks } { n' with children := ks.map (Option.map σ) } :=
  ⟨h.body, h.name, h.visited, h.props, rfl, h.attached⟩

theorem setName (h : n.Twin σ odd n') (name : Json) :
    Node.Twin σ odd { n with name := name } { n' with name := name } :=
  ⟨h.body, rfl, h.visited, h.props, h.children, h.attached⟩

theorem visit (h : n.Twin σ odd n') :
    Node.Twin σ odd { n with visited := true } { n' with visited := true } :=
  ⟨h.body, h.name, rfl, h.props, h.children, h.attached⟩

variable (hσ : Function.Injective σ)

include hσ

theorem mem_children_iff (h : n.Twin σ odd n') (k : Option NodeId) :
    k.map σ ∈ n'.children ↔ k ∈ n.children := by
  rw [h.children]
  exact List.mem_map_of_injective (Option.map_injective hσ)

theorem addChild (h : n.Twin σ odd n') (k : Option NodeId) :
    (n.addChild k).Twin σ odd (n'.addChild (k.map σ)) := by
  unfold Node.addChild
  by_cases hk : k ∈ n.children
  · rwa [if_pos hk, if_pos ((h.mem_children_iff hσ k).2 hk)]
  · rw [if_neg hk, if_neg (mt (h.mem_children_iff hσ k).1 hk)]
    refine ⟨h.body, h.name, h.visited, h.props, ?_, h.attached⟩
    simp [h.children]

theorem replaceFirst_map (old new : NodeId) (ks : List (Option NodeId)) :
    putProperty.replaceFirst (σ old) (σ new) (ks.map (Option.map σ)) =
      (putProperty.replaceFirst old new ks).map (Option.map σ) := by
  induction ks with
  | nil => rfl
  | cons k rest ih =>
    have hiff : k.map σ = some (σ old) ↔ k = some old :=
      (Option.map_injective hσ).eq_iff (b := some old)
    simp only [List.map_cons, putProperty.replaceFirst, hiff, ih]
    split <;> rfl

theorem putProperty (h : n.Twin σ odd n') (key : Key) (prop : NodeId) :
    (n.putProperty key prop).Twin σ odd (n'.putProperty key (σ prop)) := by
  have hprops : insert key (σ prop) n'.props = mapValues σ (insert key prop n.props) := by
    rw [h.props, insert_mapValues]
  have hbound : Node.Twin σ odd { n with props := insert key prop n.props }
      { n' with props := insert key (σ prop) n'.props } :=
    ⟨h.body, h.name, h.visited, hprops, h.children, h.attached⟩
  have hget : get? key n'.props = (get? key n.props).map σ := by rw [h.props, get?_mapValues]
  unfold Node.putProperty
  dsimp only
  rw [hget]
  cases get? key n.props with
  | none => exact hbound.addChild hσ (some prop)
  | some previous =>
    have hmem := h.mem_children_iff hσ (some previous)
    dsimp only [Option.map_some] at hmem ⊢
    by_cases hprevious : some previous ∈ n.children
    · rw [if_pos hprevious, if_pos (hmem.2 hprevious)]
      refine ⟨h.body, h.name, h.visited, hprops, ?_, h.attached⟩
      dsimp only
      rw [h.children, replaceFirst_map hσ]
    · rw [if_neg hprevious, if_neg (mt hmem.1 hprevious)]
      exact hbound.addChild hσ (some prop)

end Twin

/-! ### Changed nodes -/

theorem name_addChild (n : Node) (child : Option NodeId) : (n.addChild child).name = n.name := by
  unfold addChild
  split <;> rfl

theorem parent_addChild (n : Node) (child : Option NodeId) : (n.addChild child).parent = n.parent := by
  unfold addChild
  split <;> rfl

theorem mem_ids_addChild {k : NodeId} {child : Option NodeId} (h : k ∈ (n.addChild child).ids) :
    k ∈ n.ids ∨ child = some k := by
  unfold addChild at h
  split at h
  · exact .inl h
  · rcases mem_ids.1 h with h | h | h | h
    · exact .inl (mem_ids.2 (.inl h))
    · exact .inl (mem_ids.2 (.inr (.inl h)))
    · rcases List.mem_append.1 h with h | h
      · exact .inl (mem_ids.2 (.inr (.inr (.inl h))))
      · exact .inr (List.mem_singleton.1 h).symm
    · exact .inl (mem_ids.2 (.inr (.inr (.inr h))))

theorem mem_replaceFirst {old new k : NodeId} {ks : List (Option NodeId)}
    (h : some k ∈ putProperty.replaceFirst old new ks) : some k ∈ ks ∨ k = new := by
  induction ks with
  | nil => cases h
  | cons x rest ih =>
    rw [putProperty.replaceFirst] at h
    split at h
    · rcases List.mem_cons.1 h with h | h
      · exact .inr (Option.some.inj h)
      · exact .inl (List.mem_cons_of_mem _ h)
    · rcases List.mem_cons.1 h with h | h
      · exact .inl (h ▸ List.mem_cons_self)
      · exact (ih h).imp_left (List.mem_cons_of_mem _)

theorem mem_ids_putProperty {k prop : NodeId} {key : Key} (h : k ∈ (n.putProperty key prop).ids) :
    k ∈ n.ids ∨ k = prop := by
  have hbound : k ∈ ({ n with props := insert key prop n.props } : Node).ids → k ∈ n.ids ∨ k = prop := by
    intro h
    rcases mem_ids.1 h with h | h | h
    · exact .inl (mem_ids.2 (.inl h))
    · exact (mem_values_insert h).symm.imp_left fun h => mem_ids.2 (.inr (.inl h))
    · exact .inl (mem_ids.2 (.inr (.inr h)))
  have hadded : k ∈ (({ n with props := insert key prop n.props } : Node).addChild prop).ids →
      k ∈ n.ids ∨ k = prop := fun h =>
    (mem_ids_addChild h).elim hbound fun h => .inr (Option.some.inj h).symm
  unfold putProperty at h
  dsimp only at h
  split at h
  · split at h
    · rcases mem_ids.1 h with h | h | h | h
      · exact .inl (mem_ids.2 (.inl h))
      · exact (mem_values_insert h).symm.imp_left fun h => mem_ids.2 (.inr (.inl h))
      · exact (mem_replaceFirst h).imp_left fun h => mem_ids.2 (.inr (.inr (.inl h)))
      · exact .inl (mem_ids.2 (.inr (.inr (.inr h))))
    · exact hadded h
  · exact hadded h

end Node

end

end ApiGraph
