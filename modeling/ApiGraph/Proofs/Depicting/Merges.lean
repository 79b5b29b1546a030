import ApiGraph.Proofs.Depicting.Nodes

/-!
# Properties of members

A composition by `allOf` takes over what its members hold, node by node. What a node holds does not
change any more once all references on the way to it were visited.

* `Graph.Refers` — from a reference to what it was resolved to;
* `Graph.Holds` — what a node brings into a composition, for good;
* `Graph.Contributes`, `Graph.Gathered` — what a member of a composition brings into it, and all of them;
* `Graph.Gathered` — the members of a composition, with what they hold;
* `OrderedMap.keys_mergeAll`, `OrderedMap.get?_mergeAll` — the properties of all members together.
-/

namespace ApiGraph

open OrderedMap

/-! ## Maps one after the other -/

namespace OrderedMap

variable {κ α : Type} [BEq κ]

/-- The entries of maps, bound one map after the other. -/
def mergeAll (maps : List (OrderedMap κ α)) : OrderedMap κ α := maps.foldl insertAll []

theorem foldl_insertAll (m : OrderedMap κ α) (maps : List (OrderedMap κ α)) :
    maps.foldl insertAll m = insertAll m maps.flatten := by
  induction maps generalizing m with
  | nil => rfl
  | cons first rest ih =>
    rw [List.foldl_cons, ih, List.flatten_cons, insertAll, insertAll, insertAll, List.foldl_append]

/-- Each key once, where it comes first. -/
theorem keys_mergeAll [EquivBEq κ] (maps : List (OrderedMap κ α)) :
    keys (mergeAll maps) = (maps.flatMap keys).eraseDups := by
  have hflat : keys maps.flatten = maps.flatMap keys := by
    rw [keys, List.map_flatten, List.flatMap_def]
    rfl
  have hnew : (keys maps.flatten).filter (fun k => !contains k ([] : OrderedMap κ α)) =
      keys maps.flatten := List.filter_eq_self.2 fun _ _ => rfl
  rw [mergeAll, foldl_insertAll, keys_insertAll, hnew, hflat]
  rfl

/-- The value of a key is that of the last map that binds it. -/
theorem get?_foldl_insertAll [EquivBEq κ] (key : κ) (m : OrderedMap κ α) {maps : List (OrderedMap κ α)}
    (h : ∀ more ∈ maps, Distinct (keys more)) :
    get? key (maps.foldl insertAll m) = (maps.reverse.findSome? (get? key)).or (get? key m) := by
  induction maps generalizing m with
  | nil => rfl
  | cons first rest ih =>
    obtain ⟨hfirst, hrest⟩ := List.forall_mem_cons.1 h
    rw [List.foldl_cons, ih _ hrest, get?_insertAll key m hfirst, List.reverse_cons,
      List.findSome?_append, List.findSome?_singleton, Option.or_assoc]

theorem get?_mergeAll [EquivBEq κ] (key : κ) {maps : List (OrderedMap κ α)}
    (h : ∀ more ∈ maps, Distinct (keys more)) :
    get? key (mergeAll maps) = maps.reverse.findSome? (get? key) := by
  rw [mergeAll, get?_foldl_insertAll key [] h, get?_nil, Option.or_none]

end OrderedMap

/-! ## What nodes hold -/

variable {g g' : Graph} {i j k : NodeId} {v : Json} {m : OrderedMap Key NodeId}

namespace Graph

/-- From a reference to what it was resolved to. -/
def Refers (g : Graph) (i j : NodeId) : Prop := ∃ ref, (g.node i).body = .ref ⟨ref, some j⟩

theorem propertiesWithin_mono {steps more : Nat} (h : g.propertiesWithin steps i = .ok m)
    (hle : steps ≤ more) : g.propertiesWithin more i = .ok m := by
  induction steps generalizing i more with
  | zero => cases h
  | succ steps ih =>
    obtain ⟨more, rfl⟩ : ∃ n, more = n + 1 := ⟨more - 1, by omega⟩
    rw [propertiesWithin] at h ⊢
    split at h
    · exact ih h (Nat.le_of_succ_le_succ hle)
    all_goals exact h

/-- References that lead the same way lead to the same properties. -/
theorem propertiesWithin_congr
    (h : ∀ j, Relation.ReflTransGen g.Refers i j → g'.node j = g.node j) (steps : Nat) :
    g'.propertiesWithin steps i = g.propertiesWithin steps i := by
  induction steps generalizing i with
  | zero => rfl
  | succ steps ih =>
    rw [propertiesWithin, propertiesWithin, h i .refl]
    split
    · next ref t hbody => exact ih fun j hj => h j (.head ⟨ref, hbody⟩ hj)
    all_goals rfl

/-- A node brings properties into a composition, and all references on the way to them were visited. -/
structure Holds (g : Graph) (i : NodeId) (m : OrderedMap Key NodeId) : Prop where
  visited : ∀ j, Relation.ReflTransGen g.Refers i j → (g.node j).visited = true
  properties : g.propertiesOf i = .ok m

/-- What is held is held for good. -/
theorem Holds.congr (h : g.Holds i m) (hsize : g.size ≤ g'.size)
    (hsame : ∀ j, (g.node j).visited = true → g'.node j = g.node j) : g'.Holds i m := by
  have hway : ∀ j, Relation.ReflTransGen g'.Refers i j → Relation.ReflTransGen g.Refers i j := by
    intro j hj
    induction hj with
    | refl => exact .refl
    | @tail j k _ hk ih =>
      obtain ⟨ref, hbody⟩ := hk
      rw [hsame j (h.visited j ih)] at hbody
      exact ih.tail ⟨ref, hbody⟩
  refine ⟨fun j hj => ?_, ?_⟩
  · have hvisited := h.visited j (hway j hj)
    rwa [hsame j hvisited]
  · rw [propertiesOf, propertiesWithin_congr fun j hj => hsame j (h.visited j hj)]
    exact propertiesWithin_mono h.properties (Nat.succ_le_succ hsize)

/-- What a member of a composition brings into it, for good, and each name once. -/
structure Contributes (g : Graph) (v : Json) (k : NodeId) (m : OrderedMap Key NodeId) : Prop where
  member : ∃ s, v.Declares s ∧ g.Depicts k s
  holds : g.Holds k m
  distinct : Distinct (keys m)

theorem Contributes.visited (h : g.Contributes v k m) : (g.node k).visited = true :=
  h.holds.visited k .refl

theorem Contributes.congr (h : g.Contributes v k m) (hsize : g.size ≤ g'.size)
    (hkept : ∀ j, j.index < g.size → (g.node j).Kept (g'.node j))
    (hsame : ∀ j, (g.node j).visited = true → g'.node j = g.node j) : g'.Contributes v k m := by
  obtain ⟨s, hdeclares, hdepicts⟩ := h.member
  exact ⟨⟨s, hdeclares, hdepicts.kept hkept⟩, h.holds.congr hsize hsame, h.distinct⟩

/-- The members of a composition, which are nodes of its own, and what they hold. -/
structure Gathered (g : Graph) (i : NodeId) (elements : List Json)
    (held : List (NodeId × OrderedMap Key NodeId)) : Prop where
  contributes : List.Forall₂ (fun v e => g.Contributes v e.1 e.2) elements held
  owns : ∀ e ∈ held, g.Owns i e.1
  nodup : (held.map Prod.fst).Nodup

theorem Gathered.congr {elements : List Json} {held : List (NodeId × OrderedMap Key NodeId)}
    (h : g.Gathered i elements held) (hsize : g.size ≤ g'.size)
    (hkept : ∀ j, j.index < g.size → (g.node j).Kept (g'.node j))
    (hsame : ∀ j, (g.node j).visited = true → g'.node j = g.node j) : g'.Gathered i elements held :=
  ⟨h.contributes.imp fun _ _ he => he.congr hsize hkept hsame,
    fun e he => (h.owns e he).kept (hkept e.1 (h.owns e he).lt_size), h.nodup⟩

end Graph

end ApiGraph
