import Mathlib.Data.Nat.Basic
import Mathlib.Order.Basic
import ApiGraph.Proofs.Graph.Links

/-!
# Sprouts

The nodes that a declaration adds to a graph form a tree, in places that follow one another.

* `Graph.Bud` — a node as it is before it is visited;
* `Sprout` — a tree of such nodes in an interval of places;
* `Sprout.congr` — what happens at other places leaves a sprout as it is;
* `Sprout.put` — an object with one more property;
* `Graph.planted_plant` — planting a declaration gives a sprout and changes no other node.
-/

namespace ApiGraph

open OrderedMap

/-- A node that neither leads anywhere nor was visited, and has no name unless it has a slot. -/
structure Node.Loose (n : Node) : Prop where
  unvisited : n.visited = false
  target : n.target? = none
  unnamed : n.slot? = none → n.name.isNull = true
  untyped : ∀ slot arguments link, n.body = .property slot arguments (some link) → slot.type = none
  arguments : n.arguments = []

theorem Node.Loose.unlinked {n : Node} (h : n.Loose) :
    n.target? = none ∧ (n.slot? = none → n.name.isNull = true) := ⟨h.target, h.unnamed⟩

theorem Node.Loose.plain {n : Node} (h : n.Loose) (slot : Slot) (arguments : List (Option NodeId))
    (link : Link) (hbody : n.body = .property slot arguments (some link)) :
    slot.type = none ∧ arguments = [] := by
  have harguments := h.arguments
  rw [Node.arguments, hbody] at harguments
  exact ⟨h.untyped slot arguments link hbody, harguments⟩

/-- A node that was made for another one. It has no name unless it has a slot. -/
structure Graph.Owns (g : Graph) (i k : NodeId) : Prop where
  parent : (g.node k).parent = some i
  unnamed : (g.node k).slot? = none → (g.node k).name.isNull = true

/-- A node as it is before it is visited. -/
structure Graph.Bud (g : Graph) (i : NodeId) : Prop where
  kind : (g.node i).body ≠ .bare
  unvisited : (g.node i).visited = false
  target : (g.node i).target? = none
  attached : (g.node i).attached = none
  children : ∀ k ∈ (g.node i).children, ∃ j ∈ (g.node i).below, k = some j
  gathered : (g.node i).body = .object →
    (g.node i).children = (values (g.node i).props).map some
  bare : (g.node i).body ≠ .object → (g.node i).props = []
  entries : ∀ e ∈ (g.node i).props, ∃ s, e.1 = .text s ∧ (g.node e.2).IsProperty s
  owns : ∀ k ∈ (g.node i).below, g.Owns i k

theorem Graph.Owns.congr {g g' : Graph} {i k : NodeId} (h : g.Owns i k) (hk : g'.node k = g.node k) :
    g'.Owns i k := by
  constructor <;> rw [hk]
  · exact h.parent
  · exact h.unnamed

theorem Graph.Owns.kept {g g' : Graph} {i k : NodeId} (h : g.Owns i k)
    (hk : (g.node k).Kept (g'.node k)) : g'.Owns i k := by
  refine ⟨hk.parent.trans h.parent, fun hslot => ?_⟩
  rw [hk.slot?] at hslot
  rw [hk.name]
  exact h.unnamed hslot

/-- A node without a name is owned by its parent. -/
theorem Graph.owns_of_name_eq_null {g : Graph} {i k : NodeId} (hname : (g.node k).name = .null)
    (hparent : (g.node k).parent = some i) : g.Owns i k :=
  ⟨hparent, fun _ => by rw [hname]; rfl⟩

/-- A property is owned by its parent. -/
theorem Graph.owns_of_isProperty {g : Graph} {i k : NodeId} {s : String}
    (hparent : (g.node k).parent = some i) (hk : (g.node k).IsProperty s) : g.Owns i k := by
  refine ⟨hparent, fun hslot => ?_⟩
  obtain ⟨-, slot, arguments, link, hbody⟩ := hk
  rw [Node.slot?, hbody] at hslot
  cases hslot

/-- A tree of nodes that are not visited, in the places from its root up to an end. -/
inductive Sprout (g : Graph) : NodeId → Nat → Prop
  | intro {i : NodeId} {top : Nat} (ends : NodeId → Nat) (inside : i.index < top)
      (below_size : top ≤ g.size) (bud : g.Bud i)
      (order : ∀ j ∈ (g.node i).below, i.index < j.index ∧ ends j ≤ top)
      (apart : (g.node i).below.Pairwise fun j k => ends j ≤ k.index ∨ ends k ≤ j.index)
      (sprouts : ∀ j ∈ (g.node i).below, Sprout g j (ends j)) : Sprout g i top

namespace Sprout

variable {g g' : Graph} {i : NodeId} {top : Nat}

theorem inside (h : Sprout g i top) : i.index < top := by
  obtain ⟨_, hinside⟩ := h
  exact hinside

theorem below_size (h : Sprout g i top) : top ≤ g.size := by
  obtain ⟨_, _, hsize⟩ := h
  exact hsize

theorem bud (h : Sprout g i top) : g.Bud i := by
  obtain ⟨_, _, _, hbud⟩ := h
  exact hbud

theorem lt_size (h : Sprout g i top) : i.index < g.size := h.inside.trans_le h.below_size

end Sprout

theorem Graph.Bud.mem_below {g : Graph} {i : NodeId} (h : g.Bud i) {e : Key × NodeId}
    (he : e ∈ (g.node i).props) : e.2 ∈ (g.node i).below := by
  by_cases hbody : (g.node i).body = .object
  · rw [Node.below, hbody]
    exact List.mem_map_of_mem he
  · rw [h.bare hbody] at he
    cases he

/-- What a node leads to before it is visited is below it, unless it is a reference. -/
theorem Graph.Bud.mem_below_of_followed {g : Graph} {i k : NodeId} (h : g.Bud i)
    (hlink : (g.node i).body.link? = none) (hk : k ∈ (g.node i).followed) :
    k ∈ (g.node i).below := by
  have hprops : k ∈ values (g.node i).props → k ∈ (g.node i).below := by
    intro hmem
    obtain ⟨e, he, rfl⟩ := List.mem_map.1 hmem
    exact h.mem_below he
  have hchildren : some k ∈ (g.node i).children → k ∈ (g.node i).below := by
    intro hmem
    obtain ⟨j, hj, he⟩ := h.children (some k) hmem
    cases he
    exact hj
  have htarget := h.target
  have hattached := h.attached
  simp only [Node.followed, List.mem_append, List.mem_filterMap, id_eq, exists_eq_right] at hk
  rcases hk with ((((hk | hk) | hk) | hk) | hk) | hk
  · exact hprops hk
  · exact hchildren hk
  all_goals
    rcases hb : (g.node i).body with _ | _ | _ | items | _ | _ | _ | ⟨slot, arguments, _ | _⟩ | slot <;>
      simp [hb, Node.items?, Node.type?, Node.slot?, Node.arguments, Node.target?, Body.link?,
        hattached] at hk hlink <;> simp [Node.below, hb, hk]

/-- A node with nothing below it has no children yet. -/
theorem Graph.Bud.children_eq_nil {g : Graph} {i : NodeId} (h : g.Bud i)
    (hbelow : (g.node i).below = []) : (g.node i).children = [] := by
  refine List.eq_nil_iff_forall_not_mem.2 fun k hk => ?_
  obtain ⟨j, hj, -⟩ := h.children k hk
  rw [hbelow] at hj
  cases hj

theorem Graph.Bud.congr {g g' : Graph} {i : NodeId} (h : g.Bud i)
    (hi : g'.node i = g.node i) (hbelow : ∀ j ∈ (g.node i).below, g'.node j = g.node j) :
    g'.Bud i := by
  refine ⟨?_, ?_, ?_, ?_, ?_, ?_, ?_, ?_, ?_⟩ <;> rw [hi]
  · exact h.kind
  · exact h.unvisited
  · exact h.target
  · exact h.attached
  · exact h.children
  · exact h.gathered
  · exact h.bare
  · intro e he
    obtain ⟨s, hkey, hprop⟩ := h.entries e he
    exact ⟨s, hkey, by rwa [hbelow _ (h.mem_below he)]⟩
  · exact fun k hk => (h.owns k hk).congr (hbelow k hk)

namespace Sprout

variable {g g' : Graph} {i : NodeId} {top : Nat}

/-- A sprout stays one as long as its nodes stay as they are. -/
theorem congr (h : Sprout g i top) (hsize : g.size ≤ g'.size)
    (hnode : ∀ k, i.index ≤ k.index → k.index < top → g'.node k = g.node k) :
    Sprout g' i top := by
  induction h with
  | @intro i top ends inside below_size bud order apart sprouts ih =>
    have hi : g'.node i = g.node i := hnode i le_rfl inside
    have hbelow : ∀ j ∈ (g.node i).below, g'.node j = g.node j := fun j hj =>
      hnode j (order j hj).1.le ((sprouts j hj).inside.trans_le (order j hj).2)
    refine .intro ends inside (below_size.trans hsize) (bud.congr hi hbelow) ?_ ?_ ?_
    · rwa [hi]
    · rwa [hi]
    · rw [hi]
      intro j hj
      obtain ⟨hlt, hle⟩ := order j hj
      exact ih j hj fun k hjk hk => hnode k (hlt.le.trans hjk) (hk.trans_le hle)

/-- The nodes below are others than the root. -/
theorem ne_of_mem_below {k : NodeId} (h : Sprout g i top) (hk : k ∈ (g.node i).below) : k ≠ i := by
  obtain ⟨ends, -, -, -, order, -, -⟩ := h
  exact fun he => (order k hk).1.ne (by rw [he])

/-- The nodes below are different ones. -/
theorem nodup_below (h : Sprout g i top) : (g.node i).below.Nodup := by
  obtain ⟨ends, -, -, -, -, apart, sprouts⟩ := h
  refine apart.imp_of_mem fun {j k} hj hk hjk he => ?_
  subst he
  have hinside := (sprouts j hj).inside
  omega

theorem update_of_lt (h : Sprout g i top) {j : NodeId} (hj : j.index < i.index)
    (f : Node → Node) : Sprout (g.update j f) i top := by
  refine h.congr (by rw [Graph.size_update]) fun k hik _ => Graph.node_update_of_ne g ?_ f
  rintro rfl
  omega

/-- The name of the root does not matter. -/
theorem rename (h : Sprout g i top) (name : Json) :
    Sprout (g.update i fun n => { n with name := name }) i top := by
  obtain ⟨ends, inside, below_size, bud, order, apart, sprouts⟩ := h
  have hself := Graph.node_update_self g (inside.trans_le below_size) fun n => { n with name := name }
  have hbelow : ((g.update i fun n => { n with name := name }).node i).below =
      (g.node i).below := by
    rw [hself]
    rfl
  have hother : ∀ j ∈ (g.node i).below,
      (g.update i fun n => { n with name := name }).node j = g.node j := fun j hj =>
    Graph.node_update_of_ne g (fun hi => (order j hj).1.ne (by rw [hi])) _
  refine .intro ends inside (below_size.trans (Graph.size_update g i _).ge) ?_ ?_ ?_ ?_
  · refine ⟨?_, ?_, ?_, ?_, ?_, ?_, ?_, ?_, ?_⟩ <;> rw [hself]
    · exact bud.kind
    · exact bud.unvisited
    · exact bud.target
    · exact bud.attached
    · exact bud.children
    · exact bud.gathered
    · exact bud.bare
    · intro e he
      obtain ⟨s, hkey, hprop⟩ := bud.entries e he
      exact ⟨s, hkey, by rwa [hother _ (bud.mem_below he)]⟩
    · exact fun k hk => (bud.owns k hk).congr (hother k hk)
  · rwa [hbelow]
  · rwa [hbelow]
  · rw [hbelow]
    exact fun j hj => (sprouts j hj).update_of_lt (order j hj).1 _

/-- A node with nothing below it is a sprout, whatever comes after it. -/
theorem of_below_eq_nil (inside : i.index < top) (below_size : top ≤ g.size) (bud : g.Bud i)
    (hbelow : (g.node i).below = []) : Sprout g i top := by
  refine .intro (fun _ => 0) inside below_size bud ?_ ?_ ?_ <;> rw [hbelow]
  · exact fun _ hj => absurd hj List.not_mem_nil
  · exact List.Pairwise.nil
  · exact fun _ hj => absurd hj List.not_mem_nil

/-- A node that gets one more node below it, which comes after all others, is a sprout again. It may
lose others. -/
theorem graft {p : NodeId} {top' : Nat} {f : Node → Node} (h : Sprout g i top)
    (hp : Sprout g p top') (hafter : top ≤ p.index) {xs ys : List NodeId}
    (hsub : (xs ++ ys).Sublist (g.node i).below)
    (hbelow : (f (g.node i)).below = xs ++ p :: ys) (hbud : (g.update i f).Bud i) :
    Sprout (g.update i f) i top' := by
  obtain ⟨ends, inside, below_size, -, order, apart, sprouts⟩ := h
  have hself := Graph.node_update_self g (inside.trans_le below_size) f
  have hinside := hp.inside
  have hnew : p ∉ (g.node i).below := by
    intro hmem
    have := (sprouts p hmem).inside
    have := (order p hmem).2
    omega
  have hcase : ∀ j ∈ xs ++ p :: ys, j = p ∨ j ∈ (g.node i).below := by
    intro j hj
    rcases List.mem_append.1 hj with hj | hj
    · exact .inr (hsub.subset (List.mem_append_left _ hj))
    · rcases List.mem_cons.1 hj with rfl | hj
      · exact .inl rfl
      · exact .inr (hsub.subset (List.mem_append_right _ hj))
  have hends : ∀ j ∈ (g.node i).below, (if j = p then top' else ends j) = ends j := fun j hj =>
    if_neg fun he => hnew (by rwa [← he])
  refine .intro (fun j => if j = p then top' else ends j) ?_ ?_ hbud ?_ ?_ ?_
  · omega
  · rw [Graph.size_update]
    exact hp.below_size
  all_goals rw [hself, hbelow]
  · intro j hj
    rcases hcase j hj with rfl | hj
    · simp only [if_true]
      omega
    · obtain ⟨hlt, hle⟩ := order j hj
      rw [hends j hj]
      omega
  · rw [List.pairwise_middle fun h => h.symm, List.pairwise_cons]
    refine ⟨fun j hj => ?_, ?_⟩
    · have hj := hsub.subset hj
      obtain ⟨-, hle⟩ := order j hj
      rw [hends j hj]
      omega
    · refine (apart.sublist hsub).imp_of_mem fun {j k} hj hk hjk => ?_
      rwa [hends j (hsub.subset hj), hends k (hsub.subset hk)]
  · intro j hj
    rcases hcase j hj with rfl | hj
    · rw [if_pos rfl]
      exact hp.update_of_lt (by omega) _
    · rw [hends j hj]
      exact (sprouts j hj).update_of_lt (order j hj).1 _

/-- An object with one more property, which comes after all others, is a sprout again. -/
theorem put {object p : NodeId} {top' : Nat} {name : String} (h : Sprout g object top)
    (hobject : (g.node object).body = .object) (hp : Sprout g p top') (hafter : top ≤ p.index)
    (hprop : (g.node p).IsProperty name) (hparent : (g.node p).parent = some object) :
    Sprout (g.update object fun n => n.putProperty (.text name) p) object top' := by
  have hnodup := h.nodup_below
  have hroot := h
  obtain ⟨ends, inside, below_size, bud, order, -, sprouts⟩ := h
  have hbelow : (g.node object).below = values (g.node object).props := by
    rw [Node.below, hobject]
  rw [hbelow] at hnodup order sprouts
  have hnew : p ∉ values (g.node object).props := by
    intro hmem
    have := (sprouts p hmem).inside
    have := (order p hmem).2
    omega
  have hself : (g.update object fun n => n.putProperty (.text name) p).node object =
      (g.node object).putProperty (.text name) p :=
    Graph.node_update_self g (inside.trans_le below_size) _
  have hother : ∀ j, object.index < j.index →
      (g.update object fun n => n.putProperty (.text name) p).node j = g.node j := fun j hj =>
    Graph.node_update_of_ne g (fun he => by rw [he] at hj; exact hj.false) _
  have hbody : ((g.node object).putProperty (.text name) p).body = .object := by
    rw [Node.body_putProperty, hobject]
  have hprops := Node.props_putProperty (g.node object) (.text name) p
  have hchildren := Node.children_putProperty (bud.gathered hobject) hnodup
    fun _ : get? (.text name) (g.node object).props = none => hnew
  obtain ⟨xs, ys, hvalues, hsub⟩ := exists_values_insert_sublist (.text name) p (g.node object).props
  have hbelow' : ((g.node object).putProperty (.text name) p).below = xs ++ p :: ys := by
    rw [Node.below, hbody, hprops, hvalues]
  have hp' : object.index < p.index := by omega
  refine hroot.graft hp hafter (by rwa [hbelow]) hbelow' ⟨?_, ?_, ?_, ?_, ?_, ?_, ?_, ?_, ?_⟩ <;>
    rw [hself]
  · rw [hbody]
    rintro ⟨⟩
  · rw [Node.visited_putProperty, bud.unvisited]
  · rw [Node.target?, hbody]
    rfl
  · rw [Node.attached_putProperty, bud.attached]
  · rw [hbelow', hchildren, hvalues]
    intro k hk
    obtain ⟨j, hj, rfl⟩ := List.mem_map.1 hk
    exact ⟨j, hj, rfl⟩
  · rw [hchildren, hprops]
    exact fun _ => rfl
  · exact fun hne => absurd hbody hne
  · rw [hprops]
    intro e he
    rcases mem_insert he with he | rfl | ⟨old, he, hkey, hvalue⟩
    · obtain ⟨s, hs, hprop⟩ := bud.entries e he
      exact ⟨s, hs, by rwa [hother _ (order _ (List.mem_map_of_mem he)).1]⟩
    · exact ⟨name, rfl, by rwa [hother p hp']⟩
    · obtain ⟨s, hs, -⟩ := bud.entries _ he
      simp only at hs
      rw [hs, Key.text_beq_text, beq_iff_eq] at hkey
      exact ⟨s, hs, by rwa [hvalue, hother p hp', hkey]⟩
  · rw [hbelow']
    intro k hk
    obtain rfl | hk : k = p ∨ k ∈ (g.node object).below := by
      rcases List.mem_append.1 hk with hk | hk
      · exact .inr (hbelow ▸ hsub.subset (List.mem_append_left _ hk))
      · rcases List.mem_cons.1 hk with rfl | hk
        · exact .inl rfl
        · exact .inr (hbelow ▸ hsub.subset (List.mem_append_right _ hk))
    · exact (Graph.owns_of_isProperty hparent hprop).congr (hother _ hp')
    · exact (bud.owns k hk).congr (hother k (order k (hbelow ▸ hk)).1)

/-- A property that takes one more argument, which comes after all others, is a sprout again. -/
theorem addArgument {a : NodeId} {top' : Nat} {slot : Slot} {arguments : List (Option NodeId)}
    {link : Option Link} (h : Sprout g i top)
    (hbody : (g.node i).body = .property slot arguments link) (ha : Sprout g a top')
    (hafter : top ≤ a.index) (hown : g.Owns i a) :
    Sprout (g.update i (Node.addArgument (some a))) i top' := by
  have hself := Graph.node_update_self g h.lt_size (Node.addArgument (some a))
  have hmore := Node.addArgument_of_property hbody (some a)
  rw [hmore] at hself
  have hin := h.inside
  have hin' := ha.inside
  have hsize := ha.below_size
  have hbud := h.bud
  have hprops := hbud.bare (by simp [hbody])
  have htarget := hbud.target
  simp only [Node.target?, hbody] at htarget
  have hbud' : (g.update i (Node.addArgument (some a))).Bud i := by
    refine ⟨?_, ?_, ?_, ?_, ?_, ?_, ?_, ?_, ?_⟩ <;> rw [hself]
    · rintro ⟨⟩
    · exact hbud.unvisited
    · exact htarget
    · exact hbud.attached
    · intro k hk
      obtain ⟨j, hj, he⟩ := hbud.children k hk
      refine ⟨j, ?_, he⟩
      rw [Node.below, hbody] at hj
      cases link with
      | some link => exact absurd hj List.not_mem_nil
      | none =>
        simp only [Node.below, List.filterMap_append, List.mem_append] at hj ⊢
        exact hj.imp .inl id
    · simp
    · exact fun _ => hprops
    · rw [hprops]
      simp
    · intro k hk
      obtain rfl | hk : k = a ∨ k ∈ (g.node i).below := by
        rw [Node.below, hbody]
        cases link with
        | some link => exact absurd hk List.not_mem_nil
        | none =>
          simp only [Node.below, List.filterMap_append, List.mem_append] at hk ⊢
          rcases hk with (hk | hk) | hk
          · exact .inr (.inl hk)
          · exact .inl (by simpa using hk)
          · exact .inr (.inr hk)
      · exact hown.congr (Graph.node_update_of_ne g (by rintro rfl; omega) _)
      · exact (hbud.owns k hk).congr (Graph.node_update_of_ne g (h.ne_of_mem_below hk) _)
  cases link with
  | some link =>
    refine of_below_eq_nil (by omega) (by rwa [Graph.size_update]) hbud' ?_
    rw [hself]
    rfl
  | none =>
    have hsub : (arguments.filterMap id ++ slot.type.toList).Sublist (g.node i).below := by
      simp only [Node.below, hbody, List.Sublist.refl]
    refine h.graft ha hafter hsub ?_ hbud'
    rw [hmore]
    simp [Node.below]

end Sprout

/-! ## Planting -/

/-- Nodes from a place on have only such nodes below them. -/
def Graph.ClosedFrom (g : Graph) (n : Nat) : Prop := ∀ j, n ≤ j.index → ∀ k ∈ (g.node j).below, n ≤ k.index

/-- A graph with a new sprout at its end, in which no other node has changed. -/
structure Planted (g g' : Graph) (i : NodeId) : Prop where
  index : i.index = g.size
  node_eq : ∀ j, j.index < g.size → g'.node j = g.node j
  sprout : Sprout g' i g'.size
  loose : ∀ j, g.size ≤ j.index → (g'.node j).Loose
  closed : g'.ClosedFrom g.size

namespace Graph

theorem node_of_size_le {g : Graph} {i : NodeId} (h : g.size ≤ i.index) :
    g.node i = { body := .bare } := by
  simp only [size] at h
  simp [node, Array.getD, Nat.not_lt.2 h]

theorem Owns.lt_size {g : Graph} {i k : NodeId} (h : g.Owns i k) : k.index < g.size := by
  refine Nat.lt_of_not_le fun hle => ?_
  have hparent := h.parent
  rw [node_of_size_le hle] at hparent
  cases hparent

/-- There are no nodes beyond the end of a graph. -/
theorem closedFrom_of_size_le {g : Graph} {n : Nat} (h : g.size ≤ n) : g.ClosedFrom n := by
  intro j hj k hk
  rw [node_of_size_le (h.trans hj)] at hk
  cases hk

/-- A graph stays closed while it grows by nodes that have only each other below them. -/
theorem ClosedFrom.kept {g g' : Graph} {n : Nat} (h : g.ClosedFrom n) (hn : n ≤ g.size)
    (hkept : ∀ j, j.index < g.size → (g.node j).Kept (g'.node j)) (hnew : g'.ClosedFrom g.size) :
    g'.ClosedFrom n := by
  intro j hj k hk
  by_cases hlt : j.index < g.size
  · rw [(hkept j hlt).below] at hk
    exact h j hj k hk
  · exact hn.trans (hnew j (Nat.not_lt.1 hlt) k hk)

/-- A change shows at its place, if there is a node. -/
theorem node_update_eq (g : Graph) (i j : NodeId) (f : Node → Node) :
    (g.update i f).node j = if j = i ∧ i.index < g.size then f (g.node i) else g.node j := by
  split
  · next h =>
    obtain ⟨rfl, hlt⟩ := h
    exact node_update_self g hlt f
  · next h =>
    by_cases hj : j = i
    · have hle : g.size ≤ j.index := Nat.not_lt.1 fun hlt => h ⟨hj, hj ▸ hlt⟩
      rw [node_of_size_le hle, node_of_size_le (by rwa [size_update])]
    · exact node_update_of_ne g hj f

theorem loose_of_size_le {g : Graph} {i : NodeId} (h : g.size ≤ i.index) : (g.node i).Loose := by
  rw [node_of_size_le h]
  exact ⟨rfl, rfl, fun _ => rfl, (by simp), rfl⟩

theorem arguments_of_size_le {g : Graph} {i : NodeId} (h : g.size ≤ i.index) :
    (g.node i).arguments = [] :=
  (loose_of_size_le h).arguments

theorem eq_of_index_eq {i j : NodeId} (h : i.index = j.index) : i = j := by
  cases i
  cases j
  simpa using h

theorem loose_alloc {g : Graph} {n : Node} (h : n.Loose) {j : NodeId} (hj : g.size ≤ j.index) :
    ((g.alloc n).2.node j).Loose := by
  rcases Nat.eq_or_lt_of_le hj with he | hlt
  · rw [← eq_of_index_eq (i := (g.alloc n).1) he, node_alloc_self]
    exact h
  · exact loose_of_size_le (by rw [size_alloc]; exact hlt)

theorem closedFrom_alloc {g : Graph} {n : Node} (h : n.below = []) : (g.alloc n).2.ClosedFrom g.size := by
  intro j hj k hk
  rcases Nat.eq_or_lt_of_le hj with he | hlt
  · rw [← eq_of_index_eq (i := (g.alloc n).1) he, node_alloc_self, h] at hk
    cases hk
  · rw [node_of_size_le (by rw [size_alloc]; exact hlt)] at hk
    cases hk

/-- A node with nothing below it. -/
theorem planted_alloc (g : Graph) {n : Node} (h : n.Loose) (hkind : n.body ≠ .bare)
    (hbelow : n.below = []) (hprops : n.props = []) (hchildren : n.children = [])
    (hattached : n.attached = none) :
    Planted g (g.alloc n).2 (g.alloc n).1 := by
  refine ⟨rfl, fun j hj => node_alloc_of_lt g n hj, ?_, fun j hj => loose_alloc h hj, closedFrom_alloc hbelow⟩
  refine .of_below_eq_nil ?_ le_rfl ?_ (by rwa [node_alloc_self])
  · rw [size_alloc]
    exact Nat.lt_succ_self _
  · refine ⟨?_, ?_, ?_, ?_, ?_, ?_, ?_, ?_, ?_⟩ <;> rw [node_alloc_self]
    · exact hkind
    · exact h.unvisited
    · exact h.target
    · exact hattached
    · rw [hchildren]
      exact fun _ hk => absurd hk List.not_mem_nil
    · rw [hchildren, hprops]
      exact fun _ => rfl
    · exact fun _ => hprops
    · rw [hprops]
      exact fun _ he => absurd he List.not_mem_nil
    · rw [hbelow]
      exact fun _ hk => absurd hk List.not_mem_nil

/-- A node with one node below it, which is planted after it and linked then, is a sprout. -/
theorem sprout_update {g g' : Graph} {n : Node} {j : NodeId} {f : Node → Node}
    (hj : Planted (g.alloc n).2 g' j) (hunvisited : (f n).visited = false)
    (htarget : (f n).target? = none) (hbelow : (f n).below = [j])
    (hbody : (f n).body ≠ .object) (hprops : (f n).props = [])
    (hchildren : (f n).children = [some j]) (hattached : (f n).attached = none)
    (hown : g'.Owns (g.alloc n).1 j) :
    (g'.update (g.alloc n).1 f).node (g.alloc n).1 = f n ∧
      (∀ k, k.index < g.size → (g'.update (g.alloc n).1 f).node k = g.node k) ∧
      Sprout (g'.update (g.alloc n).1 f) (g.alloc n).1 (g'.update (g.alloc n).1 f).size ∧
      ∀ k, g.size < k.index → ((g'.update (g.alloc n).1 f).node k).Loose := by
  obtain ⟨hindex, hnode, hsprout, hothers, -⟩ := hj
  rw [size_alloc] at hindex hnode hothers
  have hself : (g'.update (g.alloc n).1 f).node (g.alloc n).1 = f n := by
    have hlt : (g.alloc n).1.index < g'.size := by
      have := hsprout.lt_size
      show g.size < _
      omega
    have halloc : g'.node (g.alloc n).1 = n := by
      rw [hnode (g.alloc n).1 (Nat.lt_succ_self g.size), node_alloc_self]
    rw [node_update_self g' hlt, halloc]
  have hother : ∀ k, k.index ≠ g.size → (g'.update (g.alloc n).1 f).node k = g'.node k := by
    intro k hk
    exact node_update_of_ne g' (by rintro rfl; exact hk rfl) f
  refine ⟨hself, fun k hk => ?_, ?_, fun k hk => ?_⟩
  · rw [hother k (Nat.ne_of_lt hk), hnode k (Nat.lt_succ_of_lt hk), node_alloc_of_lt g n hk]
  · rw [size_update]
    refine .intro (fun _ => g'.size) ?_ (by rw [size_update]) ?_ ?_ ?_ ?_
    · have := hsprout.lt_size
      show g.size < _
      omega
    · refine ⟨?_, ?_, ?_, ?_, ?_, ?_, ?_, ?_, ?_⟩ <;> rw [hself]
      · intro hbare
        rw [Node.below, hbare] at hbelow
        cases hbelow
      · exact hunvisited
      · exact htarget
      · exact hattached
      · rw [hchildren, hbelow]
        intro k hk
        exact ⟨j, List.mem_singleton_self j, List.mem_singleton.1 hk⟩
      · exact fun he => absurd he hbody
      · exact fun _ => hprops
      · rw [hprops]
        exact fun _ he => absurd he List.not_mem_nil
      · rw [hbelow]
        intro k hk
        rw [List.mem_singleton.1 hk]
        exact hown.congr (hother j (by omega))
    all_goals rw [hself, hbelow]
    · intro k hk
      rw [List.mem_singleton.1 hk]
      refine ⟨?_, le_rfl⟩
      show g.size < _
      omega
    · exact List.pairwise_singleton _ _
    · intro k hk
      rw [List.mem_singleton.1 hk]
      exact hsprout.update_of_lt (by rw [hindex]; exact Nat.lt_succ_self _) f
  · rw [hother k (Nat.ne_of_gt hk)]
    exact hothers k hk

/-- The same for a node that is loose itself: everything new is planted. -/
theorem planted_update {g g' : Graph} {n : Node} {j : NodeId} {f : Node → Node}
    (hj : Planted (g.alloc n).2 g' j) (hloose : (f n).Loose) (hbelow : (f n).below = [j])
    (hbody : (f n).body ≠ .object) (hprops : (f n).props = [])
    (hchildren : (f n).children = [some j]) (hattached : (f n).attached = none)
    (hown : g'.Owns (g.alloc n).1 j) :
    Planted g (g'.update (g.alloc n).1 f) (g.alloc n).1 ∧
      (g'.update (g.alloc n).1 f).node (g.alloc n).1 = f n := by
  obtain ⟨hself, hnode, hsprout, hothers⟩ := sprout_update hj hloose.unvisited hloose.target hbelow
    hbody hprops hchildren hattached hown
  refine ⟨⟨rfl, hnode, hsprout, fun k hk => ?_, fun k hk l hl => ?_⟩, hself⟩
  · rcases Nat.eq_or_lt_of_le hk with he | hlt
    · rw [← eq_of_index_eq (i := (g.alloc n).1) he, hself]
      exact hloose
    · exact hothers k hlt
  · have hsize := size_alloc g n
    rcases Nat.eq_or_lt_of_le hk with he | hlt
    · rw [← eq_of_index_eq (i := (g.alloc n).1) he, hself, hbelow] at hl
      have := hj.index
      rw [List.mem_singleton.1 hl]
      omega
    · rw [node_update_of_ne g' (by rintro rfl; exact hlt.false)] at hl
      have := hj.closed k (by omega) l hl
      omega

/-- A graph in which an object has got more properties, all from new places. -/
structure Extended (g g' : Graph) (object : NodeId) : Prop where
  size_le : g.size ≤ g'.size
  node_eq : ∀ j, j.index < g.size → j ≠ object → g'.node j = g.node j
  body : (g'.node object).body = .object
  name : (g'.node object).name = (g.node object).name
  parent : (g'.node object).parent = (g.node object).parent
  sprout : Sprout g' object g'.size
  loose : ∀ j, g.size ≤ j.index → (g'.node j).Loose
  closed : g'.ClosedFrom g.size
  below : ∀ k ∈ (g'.node object).below, k ∈ (g.node object).below ∨ g.size ≤ k.index

theorem Extended.trans {g g' g'' : Graph} {object : NodeId} (h : Extended g g' object)
    (h' : Extended g' g'' object) (hlt : object.index < g.size) : Extended g g'' object where
  size_le := h.size_le.trans h'.size_le
  node_eq j hj hne := (h'.node_eq j (hj.trans_le h.size_le) hne).trans (h.node_eq j hj hne)
  body := h'.body
  name := h'.name.trans h.name
  parent := h'.parent.trans h.parent
  sprout := h'.sprout
  loose j hj := by
    by_cases hj' : j.index < g'.size
    · rw [h'.node_eq j hj' (by rintro rfl; exact absurd hj (Nat.not_le.2 hlt))]
      exact h.loose j hj
    · exact h'.loose j (Nat.not_lt.1 hj')
  closed j hj k hk := by
    by_cases hj' : j.index < g'.size
    · rw [h'.node_eq j hj' (by rintro rfl; exact absurd hj (Nat.not_le.2 hlt))] at hk
      exact h.closed j hj k hk
    · exact h.size_le.trans (h'.closed j (Nat.not_lt.1 hj') k hk)
  below k hk := (h'.below k hk).elim (h.below k) fun hle => .inr (h.size_le.trans hle)

/-- An object with a property that was planted after it. -/
theorem extended_put {g g' : Graph} {object p : NodeId} {name : String}
    (h : Sprout g object g.size) (hobject : (g.node object).body = .object) (hp : Planted g g' p)
    (hprop : (g'.node p).IsProperty name) (hparent : (g'.node p).parent = some object) :
    Extended g (g'.update object fun n => n.putProperty (.text name) p) object := by
  have hlt : object.index < g.size := h.lt_size
  have hsize : g.size < g'.size := by
    have := hp.sprout.inside
    have := hp.index
    omega
  have hsame : g'.node object = g.node object := hp.node_eq object hlt
  have hsprout : Sprout g' object g.size :=
    h.congr hsize.le fun k _ hk => hp.node_eq k hk
  have hself := node_update_self g' (hlt.trans hsize) fun n => n.putProperty (.text name) p
  have hbody : (g'.node object).body = .object := by rw [hsame, hobject]
  refine ⟨?_, fun j hj hne => ?_, ?_, ?_, ?_, ?_, fun j hj => ?_, fun j hj k hk => ?_, fun k hk => ?_⟩
  · rw [size_update]
    exact hsize.le
  · rw [node_update_of_ne g' hne, hp.node_eq j hj]
  · rw [hself, Node.body_putProperty, hbody]
  · rw [hself, Node.name_putProperty, hsame]
  · rw [hself, Node.parent_putProperty, hsame]
  · rw [size_update]
    exact hsprout.put hbody hp.sprout hp.index.ge hprop hparent
  · rw [node_update_of_ne g' (by rintro rfl; exact absurd hj (Nat.not_le.2 hlt))]
    exact hp.loose j hj
  · rw [node_update_of_ne g' (by rintro rfl; exact absurd hj (Nat.not_le.2 hlt))] at hk
    exact hp.closed j hj k hk
  · rw [hself, hsame, Node.below, Node.body_putProperty, hobject, Node.props_putProperty] at hk
    rw [Node.below, hobject]
    rcases mem_values_insert hk with rfl | hk
    · exact .inr hp.index.ge
    · exact .inl hk

theorem loose_of_body {b : Body} {parent : Option NodeId} (h : b.link?.bind Link.target = none)
    (hplain : ∀ slot arguments link, b ≠ .property slot arguments link) :
    ({ body := b, parent := parent } : Node).Loose := by
  refine ⟨rfl, h, fun _ => rfl, fun slot arguments link hbody =>
    absurd hbody (hplain slot arguments (some link)), ?_⟩
  cases b <;> first | rfl | exact absurd rfl (hplain _ _ _)

theorem loose_property {slot : Slot} {name : String} {parent : Option NodeId} {link : Option Link}
    {children : List (Option NodeId)} (h : link.bind Link.target = none)
    (hplain : link.isSome = true → slot.type = none) :
    ({ body := .property slot [] link, name := .str name, parent := parent,
       children := children } : Node).Loose :=
  ⟨rfl, h, nofun, by rintro _ _ _ ⟨⟩; exact hplain rfl, rfl⟩

/-- Gives the node of a property the node of its type. -/
def plainProperty (required : Bool) (declaration : Json) (t : NodeId) (n : Node) : Node :=
  { n with
    body := .property ⟨.bool required, declaration, some t⟩ [] none
    children := [some t] }

/-- A property is there before its type, unless the type is a reference. -/
theorem plantProperty_plain (parent : Option NodeId) (g : Graph) (name : String) (required : Bool)
    (declaration : Json) {type : Schema} (htype : ∀ target, type ≠ .ref target) :
    let n : Node :=
      { body := .property ⟨.bool required, declaration, none⟩ [] none
        name := .str name
        parent := parent }
    let t := plant (some (g.alloc n).1) (g.alloc n).2 type
    g.plantProperty parent ⟨name, required, declaration, type⟩ =
      ((g.alloc n).1, t.2.update (g.alloc n).1 (plainProperty required declaration t.1)) := by
  rw [plantProperty]
  · rfl
  · exact htype

/-- A property whose type is no reference. -/
theorem planted_plain (parent : Option NodeId) (g : Graph) (name : String) (required : Bool)
    (declaration : Json) (type : Schema) (htype : ∀ target, type ≠ .ref target)
    (hplant : ∀ (g : Graph) (i : NodeId), Planted g (g.plant (some i) type).2 (g.plant (some i) type).1 ∧
      ((g.plant (some i) type).2.node (g.plant (some i) type).1).name = .null ∧
      ((g.plant (some i) type).2.node (g.plant (some i) type).1).parent = some i) :
    Planted g (g.plantProperty parent ⟨name, required, declaration, type⟩).2
        (g.plantProperty parent ⟨name, required, declaration, type⟩).1 ∧
      ((g.plantProperty parent ⟨name, required, declaration, type⟩).2.node
        (g.plantProperty parent ⟨name, required, declaration, type⟩).1).IsProperty name ∧
      ((g.plantProperty parent ⟨name, required, declaration, type⟩).2.node
        (g.plantProperty parent ⟨name, required, declaration, type⟩).1).parent = parent := by
  rw [plantProperty_plain parent g name required declaration htype]
  obtain ⟨hplanted, hnode⟩ := planted_update
    (f := plainProperty required declaration _)
    (n := { body := .property ⟨.bool required, declaration, none⟩ [] none
            name := .str name
            parent := parent })
    (hplant _ _).1 (loose_property rfl (by simp)) rfl (by simp [plainProperty]) rfl rfl rfl
    (owns_of_name_eq_null (hplant _ _).2.1 (hplant _ _).2.2)
  refine ⟨hplanted, ?_⟩
  rw [hnode]
  exact ⟨⟨rfl, _, _, _, rfl⟩, rfl⟩

mutual

/-- Planting a declaration gives a sprout and changes no other node. -/
theorem planted_plant (parent : Option NodeId) (g : Graph) : ∀ schema : Schema,
    Planted g (g.plant parent schema).2 (g.plant parent schema).1 ∧
      ((g.plant parent schema).2.node (g.plant parent schema).1).name = .null ∧
      ((g.plant parent schema).2.node (g.plant parent schema).1).parent = parent ∧
      ((g.plant parent schema).2.node (g.plant parent schema).1).slot? = none ∧
      ∀ link, ((g.plant parent schema).2.node (g.plant parent schema).1).body = .ref link →
        schema = .ref link.ref
  | .ref target => by
    rw [plant, node_alloc_self]
    refine ⟨planted_alloc g (loose_of_body rfl (by simp)) (by simp) rfl rfl rfl rfl, rfl, rfl, rfl, ?_⟩
    rintro link ⟨⟩
    rfl
  | .composed kind members => by
    rw [plant, node_alloc_self]
    exact ⟨planted_alloc g (loose_of_body rfl (by simp)) (by simp) rfl rfl rfl rfl, rfl, rfl, rfl, (by simp)⟩
  | .scalar type => by
    rw [plant, node_alloc_self]
    exact ⟨planted_alloc g (loose_of_body rfl (by simp)) (by simp) rfl rfl rfl rfl, rfl, rfl, rfl, (by simp)⟩
  | .array items => by
    obtain ⟨hitem, hname, hparent, -⟩ :=
      planted_plant (some (g.alloc { body := .array none, parent := parent }).1)
        (g.alloc { body := .array none, parent := parent }).2 items
    rw [plant]
    obtain ⟨hplanted, hnode⟩ := planted_update
      (f := fun n => { n with
        body := .array (some (plant (some (g.alloc { body := .array none, parent := parent }).1)
          (g.alloc { body := .array none, parent := parent }).2 items).1)
        children := [some (plant (some (g.alloc { body := .array none, parent := parent }).1)
          (g.alloc { body := .array none, parent := parent }).2 items).1] })
      hitem ⟨rfl, rfl, fun _ => rfl, (by simp), rfl⟩ rfl (by simp) rfl rfl rfl
      (owns_of_name_eq_null hname hparent)
    rw [hnode]
    exact ⟨hplanted, rfl, rfl, rfl, (by simp)⟩
  | .object properties => by
    have halloc := planted_alloc g (n := { body := .object, parent := parent })
      (loose_of_body rfl (by simp)) (by simp) rfl rfl rfl rfl
    have hbody : ((g.alloc { body := .object, parent := parent }).2.node
        (g.alloc { body := .object, parent := parent }).1).body = .object := by
      rw [node_alloc_self]
    have hmore := extended_plantEach (g.alloc { body := .object, parent := parent }).1
      (g.alloc { body := .object, parent := parent }).2 properties halloc.sprout hbody
    rw [plant]
    have hnew : ∀ j : NodeId, j.index < g.size →
        j ≠ (g.alloc { body := .object, parent := parent }).1 := by
      rintro j hj rfl
      exact hj.false
    refine ⟨⟨rfl, fun j hj => ?_, hmore.sprout, fun j hj => ?_, fun j hj k hk => ?_⟩, ?_, ?_, ?_, ?_⟩
    · rw [hmore.node_eq j (by rw [size_alloc]; omega) (hnew j hj), halloc.node_eq j hj]
    · rcases Nat.eq_or_lt_of_le hj with he | hlt
      · obtain rfl := eq_of_index_eq (i := (g.alloc { body := .object, parent := parent }).1) he
        refine ⟨hmore.sprout.bud.unvisited, hmore.sprout.bud.target, fun _ => ?_,
          fun slot arguments link hlink => ?_, ?_⟩
        · rw [hmore.name, node_alloc_self]
          rfl
        · rw [hmore.body] at hlink
          cases hlink
        · rw [Node.arguments, hmore.body]
      · exact hmore.loose j (by rw [size_alloc]; exact hlt)
    · have hsize := size_alloc g { body := .object, parent := parent }
      rcases Nat.eq_or_lt_of_le hj with he | hlt
      · obtain rfl := eq_of_index_eq (i := (g.alloc { body := .object, parent := parent }).1) he
        rcases hmore.below k hk with hk | hk
        · rw [node_alloc_self] at hk
          cases hk
        · omega
      · have := hmore.closed j (by omega) k hk
        omega
    · rw [hmore.name, node_alloc_self]
    · rw [hmore.parent, node_alloc_self]
    · rw [Node.slot?, hmore.body]
    · rw [hmore.body]
      simp

theorem planted_plantProperty (parent : Option NodeId) (g : Graph) : ∀ p : PropertyOf Schema,
    Planted g (g.plantProperty parent p).2 (g.plantProperty parent p).1 ∧
      ((g.plantProperty parent p).2.node (g.plantProperty parent p).1).IsProperty p.name ∧
      ((g.plantProperty parent p).2.node (g.plantProperty parent p).1).parent = parent
  | ⟨name, required, declaration, .ref target⟩ => by
    rw [plantProperty, node_alloc_self]
    exact ⟨planted_alloc g (loose_property rfl fun _ => rfl) (by simp) rfl rfl rfl rfl,
      ⟨rfl, _, _, _, rfl⟩, rfl⟩
  | ⟨name, required, declaration, .composed kind members⟩ =>
    planted_plain parent g name required declaration _ (by simp) fun g i =>
      (planted_plant (some i) g _).imp_right fun h => ⟨h.1, h.2.1⟩
  | ⟨name, required, declaration, .scalar type⟩ =>
    planted_plain parent g name required declaration _ (by simp) fun g i =>
      (planted_plant (some i) g _).imp_right fun h => ⟨h.1, h.2.1⟩
  | ⟨name, required, declaration, .array items⟩ =>
    planted_plain parent g name required declaration _ (by simp) fun g i =>
      (planted_plant (some i) g _).imp_right fun h => ⟨h.1, h.2.1⟩
  | ⟨name, required, declaration, .object properties⟩ =>
    planted_plain parent g name required declaration _ (by simp) fun g i =>
      (planted_plant (some i) g _).imp_right fun h => ⟨h.1, h.2.1⟩

theorem extended_plantEach (object : NodeId) (g : Graph) : ∀ properties : List (PropertyOf Schema),
    Sprout g object g.size → (g.node object).body = .object →
      Extended g (g.plantEach object properties) object
  | [], h, hobject => ⟨le_rfl, fun _ _ _ => rfl, hobject, rfl, rfl, h, fun _ hj => loose_of_size_le hj,
      closedFrom_of_size_le le_rfl, fun _ => .inl⟩
  | p :: rest, h, hobject => by
    obtain ⟨hplanted, hprop, hparent⟩ := planted_plantProperty (some object) g p
    have hfirst := extended_put h hobject hplanted hprop hparent
    rw [plantEach]
    exact hfirst.trans (extended_plantEach object _ rest hfirst.sprout hfirst.body) h.lt_size

end

/-- The root of a planted declaration is owned by the node that it was planted for. -/
theorem owns_plant (g : Graph) (i : NodeId) (schema : Schema) :
    (g.plant (some i) schema).2.Owns i (g.plant (some i) schema).1 :=
  have h := planted_plant (some i) g schema
  owns_of_name_eq_null h.2.1 h.2.2.1

end Graph

end ApiGraph
