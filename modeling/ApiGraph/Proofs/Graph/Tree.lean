import Mathlib.Logic.Relation
import ApiGraph.Proofs.Graph.Sprout

/-!
# Trees of nodes

The nodes that a visit of a node goes on to, and those that the visits of these go on to.

* `Tree` — the nodes of the tree below a node, itself included;
* `Sprout.of_tree` — each of them is the root of a sprout of its own;
* `tree_iff_of_kept` — the tree stays the same as long as its nodes are kept;
* `Sprout.tree_put` — an object with one more property.
-/

namespace ApiGraph

open OrderedMap

/-- The nodes of the tree below a node. -/
def Tree (g : Graph) (i j : NodeId) : Prop :=
  Relation.ReflTransGen (fun a b => b ∈ (g.node a).below) i j

variable {g g' : Graph} {i j k : NodeId} {top : Nat}

theorem Tree.refl (g : Graph) (i : NodeId) : Tree g i i := Relation.ReflTransGen.refl

theorem Tree.head (hk : k ∈ (g.node i).below) (h : Tree g k j) : Tree g i j :=
  Relation.ReflTransGen.head hk h

theorem Tree.tail (h : Tree g i j) (hk : k ∈ (g.node j).below) : Tree g i k :=
  Relation.ReflTransGen.tail h hk

/-- A tree is its root and the trees of the nodes below. -/
theorem tree_iff : Tree g i j ↔ j = i ∨ ∃ k ∈ (g.node i).below, Tree g k j := by
  rw [Tree, Relation.ReflTransGen.cases_head_iff, eq_comm]
  rfl

/-- A tree stays the same as long as the same nodes are below its nodes. -/
theorem Tree.congr (h : ∀ j, Tree g i j → (g'.node j).below = (g.node j).below) :
    Tree g' i j ↔ Tree g i j := by
  constructor
  · intro ht
    induction ht with
    | refl => exact Tree.refl g i
    | tail _ hk ih =>
      rw [h _ ih] at hk
      exact ih.tail hk
  · intro ht
    induction ht with
    | refl => exact Tree.refl g' i
    | tail ht hk ih =>
      rw [← h _ ht] at hk
      exact ih.tail hk

/-- Each node of a tree is the root of a sprout inside the whole one. -/
theorem Sprout.of_tree (h : Sprout g i top) (ht : Tree g i j) :
    ∃ top', Sprout g j top' ∧ i.index ≤ j.index ∧ top' ≤ top := by
  induction ht with
  | refl => exact ⟨top, h, le_rfl, le_rfl⟩
  | tail _ hk ih =>
    obtain ⟨top', hsprout, hij, hle⟩ := ih
    obtain ⟨ends, -, -, -, order, -, sprouts⟩ := hsprout
    obtain ⟨hjk, htop⟩ := order _ hk
    exact ⟨ends _, sprouts _ hk, by omega, by omega⟩

theorem Sprout.tree_bounds (h : Sprout g i top) (ht : Tree g i j) :
    i.index ≤ j.index ∧ j.index < top := by
  obtain ⟨top', hsprout, hij, hle⟩ := h.of_tree ht
  have := hsprout.inside
  exact ⟨hij, by omega⟩

theorem Sprout.tree_lt_size (h : Sprout g i top) (ht : Tree g i j) : j.index < g.size := by
  have := h.below_size
  have := (h.tree_bounds ht).2
  omega

/-- A tree stays the same as long as its nodes are kept. -/
theorem tree_iff_of_kept (hkept : ∀ j, Tree g i j → (g.node j).Kept (g'.node j)) :
    Tree g' i j ↔ Tree g i j :=
  Tree.congr fun j hj => (hkept j hj).below

/-- The properties of a node of a tree are in the tree. -/
theorem Sprout.tree_of_props (h : Sprout g i top) (ht : Tree g i j)
    (hk : k ∈ values (g.node j).props) : Tree g i k := by
  obtain ⟨top', hsprout, -⟩ := h.of_tree ht
  obtain ⟨e, he, rfl⟩ := List.mem_map.1 hk
  exact ht.tail (hsprout.bud.mem_below he)

/-- The tree of a sprout stays the same when a node before it changes. -/
theorem Sprout.tree_update_of_lt (h : Sprout g i top) (hk : k.index < i.index) (f : Node → Node) :
    Tree (g.update k f) i j ↔ Tree g i j := by
  refine Tree.congr fun m hm => ?_
  have := (h.tree_bounds hm).1
  rw [Graph.node_update_of_ne g (by rintro rfl; omega)]

/-- An object with one more property has got the tree of the property, apart from what was there. -/
theorem Sprout.tree_put {p : NodeId} {top' : Nat} {key : Key} (h : Sprout g i top)
    (hobject : (g.node i).body = .object) (hp : Sprout g p top') (hafter : top ≤ p.index)
    (ht : Tree (g.update i fun n => n.putProperty key p) i j) : Tree g i j ∨ Tree g p j := by
  have hself := Graph.node_update_self g h.lt_size fun n => n.putProperty key p
  have hinside := h.inside
  rcases tree_iff.1 ht with rfl | ⟨k, hk, htree⟩
  · exact .inl (Tree.refl g j)
  · simp only [hself, Node.below, Node.body_putProperty, hobject, Node.props_putProperty] at hk
    obtain ⟨e, he, rfl⟩ := List.mem_map.1 hk
    have hcase : e.2 = p ∨ e.2 ∈ (g.node i).below := by
      simp only [Node.below, hobject]
      rcases mem_insert he with he | rfl | ⟨-, -, -, hvalue⟩
      · exact .inr (List.mem_map_of_mem he)
      · exact .inl rfl
      · exact .inl hvalue
    rcases hcase with hcase | hcase
    · rw [hcase] at htree
      exact .inr ((hp.tree_update_of_lt (by omega) _).1 htree)
    · obtain ⟨ends, -, -, -, order, -, sprouts⟩ := h
      have htree := ((sprouts _ hcase).tree_update_of_lt (order _ hcase).1 _).1 htree
      exact .inl (htree.head hcase)

end ApiGraph
