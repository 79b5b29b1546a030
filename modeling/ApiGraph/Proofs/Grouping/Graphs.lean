import Mathlib.Order.WellFounded
import ApiGraph.Proofs.Grouping.Twins
import ApiGraph.Proofs.Visiting.Termination

/-!
# Graphs beside one another

Two graphs that hold the same nodes, of which one has got some nodes more in between.

* `Graph.Elder`, `Graph.Kempt` — nodes are made for older ones, links lead to nodes that are there, and
  properties are bound under their names;
* `Graph.Rises` — the way up through nodes that only one of the graphs has;
* `Graph.Beside` — two graphs with the same nodes, and what the one has more;
* `Graph.Beside.update`, `Graph.Beside.plant` — the same is done in both;
* `Graph.Beside.insert` — one of them gets a node more.
-/

namespace ApiGraph

open OrderedMap

namespace Graph

/-! ## Graphs in order -/

/-- Nodes are made for older ones. -/
def Elder (g : Graph) : Prop := ∀ j p, (g.node j).parent = some p → p.index < j.index

/-- A property is bound under its name, which is a text. -/
def Labelled (g : Graph) (e : Key × NodeId) : Prop := ∃ s, e.1 = .text s ∧ (g.node e.2).name = .str s

/-- Nodes speak of nodes that are there and are made for older ones. All properties are bound under their
names, but for those of an object that was made by hand. -/
structure Kempt (q : Option NodeId) (g : Graph) : Prop where
  closed : ∀ j, ∀ k ∈ (g.node j).ids, k.index < g.size
  elder : g.Elder
  labelled : ∀ j, q ≠ some j → ∀ e ∈ (g.node j).props, g.Labelled e

section

variable {q : Option NodeId} {g : Graph} {j : NodeId} {n : Node} {f : Node → Node}

theorem node_alloc_eq (g : Graph) (n : Node) (j : NodeId) :
    (g.alloc n).2.node j = if j.index = g.size then n else g.node j := by
  split
  · next h => rw [← eq_of_index_eq (i := (g.alloc n).1) h.symm, node_alloc_self]
  · next h =>
    rcases Nat.lt_or_ge j.index g.size with hlt | hge
    · exact node_alloc_of_lt g n hlt
    · rw [node_of_size_le hge, node_of_size_le (by rw [size_alloc]; omega)]

theorem lt_size_alloc (g : Graph) (n : Node) : (g.alloc n).1.index < (g.alloc n).2.size := by
  rw [size_alloc]
  exact Nat.lt_succ_self _

theorem Labelled.alloc {e : Key × NodeId} (h : g.Labelled e) (n : Node) : (g.alloc n).2.Labelled e := by
  obtain ⟨s, hkey, hname⟩ := h
  exact ⟨s, hkey, by rw [node_alloc_of_lt g n (lt_size_of_name hname), hname]⟩

theorem Labelled.update {e : Key × NodeId} (h : g.Labelled e)
    (hname : (f (g.node j)).name = (g.node j).name) : (g.update j f).Labelled e := by
  obtain ⟨s, hkey, he⟩ := h
  refine ⟨s, hkey, ?_⟩
  rw [node_update_eq]
  split
  · next hj => rw [hname, ← hj.1, he]
  · exact he

theorem Labelled.lt_size {e : Key × NodeId} (h : g.Labelled e) : e.2.index < g.size := by
  obtain ⟨s, -, hname⟩ := h
  exact lt_size_of_name hname

/-- A property that is bound under an equal key is bound under its name as well. -/
theorem Labelled.of_mem_insert {e e' : Key × NodeId} (h : g.Labelled e) {m : OrderedMap Key NodeId}
    (he' : e' ∈ OrderedMap.insert e.1 e.2 m) : e' ∈ m ∨ g.Labelled e' := by
  rcases mem_insert he' with he' | rfl | ⟨old, -, hkey, hvalue⟩
  · exact .inl he'
  · exact .inr h
  · obtain ⟨s, hs, hname⟩ := h
    rw [hs] at hkey
    exact .inr ⟨s, Key.eq_text_of_beq hkey, by rw [hvalue, hname]⟩

theorem labelled_insertAll {m more : OrderedMap Key NodeId} (hm : ∀ e ∈ m, g.Labelled e)
    (hmore : ∀ e ∈ more, g.Labelled e) : ∀ e ∈ insertAll m more, g.Labelled e := by
  induction more generalizing m with
  | nil => exact hm
  | cons e rest ih =>
    obtain ⟨he, hrest⟩ := List.forall_mem_cons.1 hmore
    exact ih (fun e' he' => (he.of_mem_insert he').elim (hm e') id) hrest

theorem Elder.alloc (h : g.Elder) (hparent : ∀ p, n.parent = some p → p.index < g.size) :
    (g.alloc n).2.Elder := by
  intro j p hp
  rw [node_alloc_eq] at hp
  split at hp
  · next hj => exact hj ▸ hparent p hp
  · exact h j p hp

theorem Elder.update (h : g.Elder) (hparent : (f (g.node j)).parent = (g.node j).parent) :
    (g.update j f).Elder := by
  intro k p hp
  rw [node_update_eq] at hp
  split at hp
  · next hk =>
    rw [hk.1]
    exact h j p (hparent ▸ hp)
  · exact h k p hp

theorem Kempt.alloc (h : g.Kempt q) (hids : ∀ k ∈ n.ids, k.index < g.size)
    (hparent : ∀ p, n.parent = some p → p.index < g.size) (hprops : n.props = []) :
    (g.alloc n).2.Kempt q := by
  refine ⟨fun j k hk => ?_, h.elder.alloc hparent, fun j hj e he => ?_⟩
  · rw [node_alloc_eq] at hk
    rw [size_alloc]
    refine Nat.lt_succ_of_lt ?_
    split at hk
    · exact hids k hk
    · exact h.closed j k hk
  · rw [node_alloc_eq] at he
    split at he
    · rw [hprops] at he
      cases he
    · exact (h.labelled j hj e he).alloc n

/-- A node is changed that keeps its name and gets only properties under their names. -/
theorem Kempt.update (h : g.Kempt q) (hids : ∀ k ∈ (f (g.node j)).ids, k ∈ (g.node j).ids ∨ k.index < g.size)
    (hparent : (f (g.node j)).parent = (g.node j).parent)
    (hname : (f (g.node j)).name = (g.node j).name)
    (hprops : ∀ e ∈ (f (g.node j)).props, e ∈ (g.node j).props ∨ g.Labelled e) :
    (g.update j f).Kempt q := by
  refine ⟨fun m k hk => ?_, h.elder.update hparent, fun m hm e he => ?_⟩
  · rw [node_update_eq] at hk
    rw [size_update]
    split at hk
    · exact (hids k hk).elim (h.closed j k) id
    · exact h.closed m k hk
  · rw [node_update_eq] at he
    split at he
    · next hj =>
      rcases hprops e he with he | he
      · exact (h.labelled m hm e (hj.1 ▸ he)).update hname
      · exact he.update hname
    · exact (h.labelled m hm e he).update hname

/-- A node without a name, which is bound nowhere, gets one. -/
theorem Kempt.rename (h : g.Kempt q) (hunnamed : (g.node j).name = .null) (name : Json) :
    (g.update j fun n => { n with name := name }).Kempt q := by
  refine ⟨fun m k hk => ?_, h.elder.update rfl, fun m hm e he => ?_⟩
  · rw [node_update_eq] at hk
    rw [size_update]
    split at hk
    · exact h.closed j k hk
    · exact h.closed m k hk
  · have hold : e ∈ (g.node m).props := by
      rw [node_update_eq] at he
      split at he
      · next hj => exact hj.1 ▸ he
      · exact he
    obtain ⟨s, hkey, hname⟩ := h.labelled m hm e hold
    refine ⟨s, hkey, ?_⟩
    rw [node_update_of_ne g ?_, hname]
    intro he
    rw [he, hunnamed] at hname
    cases hname

end

/-! ## Ways up -/

/-- The way up from a node, through nodes without names that are not among those at some places. -/
inductive Rises (g : Graph) (σ : NodeId → NodeId) : Option NodeId → Option NodeId → Prop
  | refl (p : Option NodeId) : Rises g σ p p
  | step {k : NodeId} {p : Option NodeId} (hlt : k.index < g.size) (hspare : ∀ j, σ j ≠ k)
      (hname : (g.node k).name = .null) (h : Rises g σ (g.node k).parent p) : Rises g σ (some k) p

section

variable {σ τ : NodeId → NodeId} {g g' : Graph} {p p' : Option NodeId} {n : Node} {k : NodeId}

theorem rises_of_eq {a b : NodeId} (h : b = σ a) : g.Rises σ (some b) ((some a).map σ) := by
  rw [h]
  exact .refl _

/-- The way up is the same in a graph in which the nodes on it are the same. -/
theorem Rises.congr (h : g.Rises σ p' p) (hsize : g.size ≤ g'.size)
    (hsame : ∀ k : NodeId, k.index < g.size → (∀ j, σ j ≠ k) →
      (∀ j, τ j ≠ k) ∧ (g'.node k).name = (g.node k).name ∧ (g'.node k).parent = (g.node k).parent) :
    g'.Rises τ p' p := by
  induction h with
  | refl p => exact .refl p
  | step hlt hspare hname _ ih =>
    obtain ⟨hspare', hname', hparent'⟩ := hsame _ hlt hspare
    refine .step (hlt.trans_le hsize) hspare' (hname'.trans hname) ?_
    rwa [hparent']

theorem Rises.lt_size (h : g.Rises σ p' p) (hp : ∀ k, p = some k → k.index < g.size) :
    ∀ k, p' = some k → k.index < g.size := by
  cases h with
  | refl _ => exact hp
  | step hlt _ _ _ =>
    rintro _ ⟨⟩
    exact hlt

end

/-! ## Names on the way up -/

/-- A way up among older and older nodes comes to an end within the place that it starts at. -/
theorem ownerNameWithin_eq {g : Graph} (h : g.Elder) {steps steps' : Nat} {i : NodeId}
    (hsteps : i.index < steps) (hsteps' : i.index < steps') :
    g.ownerNameWithin steps (some i) = g.ownerNameWithin steps' (some i) := by
  induction steps generalizing steps' i with
  | zero => exact absurd hsteps (Nat.not_lt_zero _)
  | succ steps ih =>
    obtain ⟨steps', rfl⟩ : ∃ m, steps' = m + 1 := ⟨steps' - 1, by omega⟩
    simp only [ownerNameWithin]
    split
    · cases hparent : (g.node i).parent with
      | none => cases steps <;> cases steps' <;> rfl
      | some p =>
        have := h i p hparent
        exact ih (by omega) (by omega)
    · rfl

/-- A node with a name is its own owner, and one without has the owner of the node that it was made
for. -/
theorem ownerName?_some {g : Graph} (h : g.Elder) {i : NodeId} (hi : i.index < g.size) :
    g.ownerName? (some i) =
      if (g.node i).name.isNull then g.ownerName? (g.node i).parent else some (g.node i).name := by
  show g.ownerNameWithin (g.size + 1) (some i) = _
  rw [ownerNameWithin]
  split
  · cases hparent : (g.node i).parent with
    | none => cases g.size <;> rfl
    | some p =>
      have := h i p hparent
      exact ownerNameWithin_eq h (by omega) (by omega)
  · rfl

/-- The nodes on the way up through spare ones have the same owner. -/
theorem Rises.ownerName? {σ : NodeId → NodeId} {g : Graph} {p p' : Option NodeId} (h : g.Rises σ p' p)
    (helder : g.Elder) : g.ownerName? p' = g.ownerName? p := by
  induction h with
  | refl => rfl
  | step hlt _ hname _ ih =>
    rw [ownerName?_some helder hlt, hname]
    exact ih

/-! ## Ways of references -/

theorem propertiesWithin_succ {g : Graph} {steps : Nat} {i : NodeId}
    (h : g.propertiesWithin steps i ≠ .error .endless) :
    g.propertiesWithin (steps + 1) i = g.propertiesWithin steps i := by
  induction steps generalizing i with
  | zero => exact absurd rfl h
  | succ steps ih =>
    rw [propertiesWithin] at h
    rw [propertiesWithin, propertiesWithin]
    split
    · next hbody =>
      simp only [hbody] at h
      exact ih h
    all_goals rfl

/-- A way that comes to an end has no node twice, so it does within as many steps as there are nodes
besides those that were seen and are not on it. -/
theorem propertiesWithin_of_seen {g : Graph} {steps fuel : Nat} {i : NodeId} (seen : List NodeId)
    (hnodup : seen.Nodup) (hlt : ∀ j ∈ seen, j.index < g.size)
    (hseen : ∀ j ∈ seen, g.propertiesWithin steps j = .error .endless)
    (hfuel : g.size < fuel + seen.length) (h : g.propertiesWithin steps i ≠ .error .endless) :
    g.propertiesWithin fuel i = g.propertiesWithin steps i := by
  induction steps generalizing fuel i seen with
  | zero => exact absurd rfl h
  | succ steps ih =>
    have hseen' : ∀ j ∈ seen, g.propertiesWithin steps j = .error .endless := fun j hj => by
      by_contra hne
      exact hne ((propertiesWithin_succ hne).symm.trans (hseen j hj))
    -- Either this node needs all of the steps, and is none of those that were seen, or one less will do.
    by_cases hi : g.propertiesWithin steps i = .error .endless
    · have hnew : i ∉ seen := fun hmem => h (hseen i hmem)
      cases fuel with
      | zero =>
        have := length_le_size hnodup hlt
        omega
      | succ fuel =>
        rw [propertiesWithin] at h
        rw [propertiesWithin, propertiesWithin]
        split
        · next hbody =>
          simp only [hbody] at h
          have hthere : i.index < g.size := by
            refine Nat.lt_of_not_le fun hle => ?_
            rw [node_of_size_le hle] at hbody
            cases hbody
          refine ih (i :: seen) (List.nodup_cons.2 ⟨hnew, hnodup⟩) (List.forall_mem_cons.2 ⟨hthere, hlt⟩)
            (List.forall_mem_cons.2 ⟨hi, hseen'⟩) ?_ h
          rw [List.length_cons]
          omega
        all_goals rfl
    · rw [propertiesWithin_succ hi]
      exact ih seen hnodup hlt hseen' hfuel hi

/-- More steps than there are nodes are all the same. -/
theorem propertiesWithin_of_size_lt {g : Graph} {steps steps' : Nat} (i : NodeId)
    (h : g.size < steps) (h' : g.size < steps') :
    g.propertiesWithin steps i = g.propertiesWithin steps' i := by
  have hseen : ∀ {steps steps' : Nat}, g.size < steps → g.propertiesWithin steps' i ≠ .error .endless →
      g.propertiesWithin steps i = g.propertiesWithin steps' i := fun h =>
    propertiesWithin_of_seen [] List.nodup_nil (by simp) (by simp) h
  by_cases hne : g.propertiesWithin steps' i = .error .endless
  · by_cases hne' : g.propertiesWithin steps i = .error .endless
    · rw [hne, hne']
    · exact (hseen h' hne').symm
  · exact hseen h hne

/-! ## Graphs beside one another -/

/-- Two graphs with the same nodes, at places in the same order. What the second one has more are nodes
without names, and some of them are as they were noted. What the members of the odd ones are may differ. -/
structure Beside (q : Option NodeId) (odd : NodeId → Prop) (spare : List (NodeId × Node)) (σ : NodeId → NodeId)
    (g g' : Graph) : Prop where
  kempt : g.Kempt q
  mono : ∀ j k : NodeId, j.index < k.index → (σ j).index < (σ k).index
  fresh : ∀ n, σ ⟨g.size + n⟩ = ⟨g'.size + n⟩
  twins : ∀ j, (g.node j).Twin σ (odd j) (g'.node (σ j))
  risen : ∀ j, g'.Rises σ (g'.node (σ j)).parent ((g.node j).parent.map σ)
  elder : g'.Elder
  spared : ∀ e ∈ spare, e.1.index < g'.size ∧ (∀ j, σ j ≠ e.1) ∧ g'.node e.1 = e.2

namespace Beside

variable {q : Option NodeId} {odd : NodeId → Prop} {spare : List (NodeId × Node)} {σ : NodeId → NodeId}
  {g g' : Graph} {j k : NodeId} {n n' : Node} {f f' : Node → Node} {p p' : Option NodeId}

theorem injective (h : Beside q odd spare σ g g') : Function.Injective σ := by
  intro j k he
  rcases Nat.lt_trichotomy j.index k.index with hlt | heq | hlt
  · have := h.mono j k hlt
    rw [he] at this
    exact absurd this (Nat.lt_irrefl _)
  · exact eq_of_index_eq heq
  · have := h.mono k j hlt
    rw [he] at this
    exact absurd this (Nat.lt_irrefl _)

/-- New nodes are made side by side. -/
theorem map_size (h : Beside q odd spare σ g g') : σ ⟨g.size⟩ = ⟨g'.size⟩ := h.fresh 0

theorem lt_size_iff (h : Beside q odd spare σ g g') (j : NodeId) :
    (σ j).index < g'.size ↔ j.index < g.size := by
  have hsize : (σ ⟨g.size⟩).index = g'.size := by rw [h.map_size]
  constructor
  · intro hlt
    refine Nat.lt_of_not_le fun hle => ?_
    rcases Nat.eq_or_lt_of_le hle with heq | hgt
    · rw [eq_of_index_eq (j := ⟨g.size⟩) heq.symm] at hlt
      omega
    · have := h.mono ⟨g.size⟩ j hgt
      omega
  · intro hlt
    have := h.mono j ⟨g.size⟩ hlt
    omega

/-- No place is before the one that it stands beside. -/
theorem le_index (h : Beside q odd spare σ g g') (j : NodeId) : j.index ≤ (σ j).index :=
  StrictMono.le_apply (f := fun n => (σ ⟨n⟩).index) fun m n hmn => h.mono ⟨m⟩ ⟨n⟩ hmn

theorem size_le (h : Beside q odd spare σ g g') : g.size ≤ g'.size := by
  have := h.le_index ⟨g.size⟩
  rwa [h.map_size] at this

theorem map_lt_size (h : Beside q odd spare σ g g') (hp : ∀ k, p = some k → k.index < g.size) :
    ∀ k, p.map σ = some k → k.index < g'.size := by
  intro k hk
  obtain ⟨a, rfl, rfl⟩ := Option.map_eq_some_iff.1 hk
  exact (h.lt_size_iff a).2 (hp a rfl)

/-- A node is made in both graphs, at the next places. -/
theorem alloc (h : Beside q odd spare σ g g') (htwin : n.Twin σ (odd ⟨g.size⟩) n')
    (hids : ∀ k ∈ n.ids, k.index < g.size) (hparent : ∀ p, n.parent = some p → p.index < g.size)
    (hprops : n.props = []) (hrises : g'.Rises σ n'.parent (n.parent.map σ)) :
    Beside q odd spare σ (g.alloc n).2 (g'.alloc n').2 ∧ (g'.alloc n').1 = σ (g.alloc n).1 := by
  have hrises' : ∀ {p p'}, g'.Rises σ p' p → (g'.alloc n').2.Rises σ p' p := fun hup =>
    hup.congr (by rw [size_alloc]; omega) fun k hk hspare => by
      rw [node_alloc_of_lt g' n' hk]
      exact ⟨hspare, rfl, rfl⟩
  have hsame : ∀ j : NodeId, j.index ≠ g.size → (σ j).index ≠ g'.size := by
    intro j hj he
    have hsize : σ j = σ ⟨g.size⟩ := by
      rw [h.map_size]
      exact eq_of_index_eq he
    exact hj (congrArg NodeId.index (h.injective hsize))
  refine ⟨⟨h.kempt.alloc hids hparent hprops, h.mono, fun m => ?_, fun j => ?_, fun j => ?_,
    h.elder.alloc (hrises.lt_size (h.map_lt_size hparent)), fun e he => ?_⟩, h.map_size.symm⟩
  · have := h.fresh (m + 1)
    rwa [size_alloc, size_alloc, Nat.add_right_comm, Nat.add_right_comm g'.size]
  · rw [node_alloc_eq, node_alloc_eq]
    by_cases hj : j.index = g.size
    · obtain rfl : j = ⟨g.size⟩ := eq_of_index_eq hj
      rw [if_pos rfl, h.map_size, if_pos rfl]
      exact htwin
    · rw [if_neg hj, if_neg (hsame j hj)]
      exact h.twins j
  · rw [node_alloc_eq, node_alloc_eq]
    by_cases hj : j.index = g.size
    · obtain rfl : j = ⟨g.size⟩ := eq_of_index_eq hj
      rw [if_pos rfl, h.map_size, if_pos rfl]
      exact hrises' hrises
    · rw [if_neg hj, if_neg (hsame j hj)]
      exact hrises' (h.risen j)
  · obtain ⟨hlt, hspare, hnode⟩ := h.spared e he
    refine ⟨by rw [size_alloc]; omega, hspare, ?_⟩
    rw [node_alloc_of_lt g' n' hlt, hnode]

/-- A node is changed in both graphs. -/
theorem update (h : Beside q odd spare σ g g')
    (htwin : (f (g.node j)).Twin σ (odd j) (f' (g'.node (σ j))))
    (hparent : (f (g.node j)).parent = (g.node j).parent)
    (hparent' : (f' (g'.node (σ j))).parent = (g'.node (σ j)).parent)
    (hkempt : (g.update j f).Kempt q) : Beside q odd spare σ (g.update j f) (g'.update (σ j) f') := by
  have hrises : ∀ {p p'}, g'.Rises σ p' p → (g'.update (σ j) f').Rises σ p' p := fun hup =>
    hup.congr (size_update _ _ _).ge fun k _ hspare => by
      rw [node_update_of_ne g' fun he => hspare j he.symm]
      exact ⟨hspare, rfl, rfl⟩
  have hnodes : ∀ m, (g'.update (σ j) f').node (σ m) =
      if m = j ∧ j.index < g.size then f' (g'.node (σ j)) else g'.node (σ m) := fun m => by
    rw [node_update_eq]
    simp only [h.injective.eq_iff, h.lt_size_iff]
  refine ⟨hkempt, h.mono, fun m => ?_, fun m => ?_, fun m => ?_, h.elder.update hparent', fun e he => ?_⟩
  · rw [size_update, size_update]
    exact h.fresh m
  · rw [hnodes, node_update_eq]
    split
    · next hm => exact hm.1 ▸ htwin
    · exact h.twins m
  · rw [hnodes, node_update_eq]
    split
    · next hm =>
      rw [hparent, hparent']
      exact hrises (h.risen j)
    · exact hrises (h.risen m)
  · obtain ⟨hlt, hspare, hnode⟩ := h.spared e he
    refine ⟨by rwa [size_update], hspare, ?_⟩
    rw [node_update_of_ne g' fun he => hspare j he.symm, hnode]

/-! ### Planting -/

theorem alloc_of_body (h : Beside q odd spare σ g g') (b : Body) (name : Json) (hids : b.ids = [])
    (hp : ∀ k, p = some k → k.index < g.size) (hrises : g'.Rises σ p' (p.map σ)) :
    Beside q odd spare σ (g.alloc { body := b, name := name, parent := p }).2
        (g'.alloc { body := b, name := name, parent := p' }).2 ∧
      (g'.alloc { body := b, name := name, parent := p' }).1 =
        σ (g.alloc { body := b, name := name, parent := p }).1 := by
  have hsame : b.rename σ = b := by
    rw [Body.rename_congr (τ := id) (by simp [hids]), Body.rename_id]
  refine h.alloc ⟨.inl hsame.symm, rfl, rfl, rfl, rfl, rfl⟩ (fun k hk => ?_) hp rfl hrises
  simp [Node.ids, hids, values] at hk

/-- A new node gets what is below it. -/
theorem fill (h : Beside q odd spare σ g g') {b : NodeId → Body} (hb : ∀ t, (b t).ids = [t])
    (hrename : ∀ t, (b t).rename σ = b (σ t)) (hj : (g.node j).props = []) {t : NodeId}
    (ht : t.index < g.size) (hattached : (g.node j).attached = none) :
    Beside q odd spare σ (g.update j fun n => { n with body := b t, children := [some t] })
      (g'.update (σ j) fun n => { n with body := b (σ t), children := [some (σ t)] }) := by
  refine h.update ?_ rfl rfl (h.kempt.update (fun k hk => .inr ?_) rfl rfl fun e he => .inl he)
  · rw [← hrename]
    exact ((h.twins j).setBody (b t)).setChildren [some t]
  · rcases Node.mem_ids.1 hk with hk | hk | hk | hk
    · dsimp only at hk
      rw [hb, List.mem_singleton] at hk
      rwa [hk]
    · dsimp only at hk
      rw [hj] at hk
      cases hk
    · rw [Option.some.inj (List.mem_singleton.1 hk)]
      exact ht
    · rw [hattached] at hk
      cases hk

/-- A new property is bound in both graphs. -/
theorem put (h : Beside q odd spare σ g g') {key : Key} {prop : NodeId} (hprop : g.Labelled (key, prop)) :
    Beside q odd spare σ (g.update j fun n => n.putProperty key prop)
      (g'.update (σ j) fun n => n.putProperty key (σ prop)) := by
  refine h.update ((h.twins j).putProperty h.injective key prop) (Node.parent_putProperty _ _ _)
    (Node.parent_putProperty _ _ _) (h.kempt.update (fun k hk => ?_) (Node.parent_putProperty _ _ _)
      (Node.name_putProperty _ _ _) fun e he => ?_)
  · refine (Node.mem_ids_putProperty hk).imp_right ?_
    rintro rfl
    exact hprop.lt_size
  · rw [Node.props_putProperty] at he
    exact hprop.of_mem_insert he

/-- A node gets another child in both graphs. -/
theorem addChild (h : Beside q odd spare σ g g') {child : NodeId} (hchild : child.index < g.size) :
    Beside q odd spare σ (g.update j fun n => n.addChild child)
      (g'.update (σ j) fun n => n.addChild (σ child)) := by
  refine h.update ((h.twins j).addChild h.injective (some child)) (Node.parent_addChild _ _)
    (Node.parent_addChild _ _) (h.kempt.update (fun k hk => ?_) (Node.parent_addChild _ _)
      (Node.name_addChild _ _) fun e he => ?_)
  · refine (Node.mem_ids_addChild hk).imp_right ?_
    rintro ⟨⟩
    exact hchild
  · rw [Node.props_addChild] at he
    exact .inl he

/-- A node gets another body, and a child, in both graphs. -/
theorem link (h : Beside q odd spare σ g g') {b b' : Body} (hb : b' = b.rename σ)
    (hids : ∀ k ∈ b.ids, k.index < g.size) {child : NodeId} (hchild : child.index < g.size) :
    Beside q odd spare σ (g.update j fun n => { n with body := b }.addChild child)
      (g'.update (σ j) fun n => { n with body := b' }.addChild (σ child)) := by
  rw [hb]
  refine h.update (((h.twins j).setBody b).addChild h.injective (some child)) (Node.parent_addChild _ _)
    (Node.parent_addChild _ _) (h.kempt.update (fun k hk => ?_) (Node.parent_addChild _ _)
      (Node.name_addChild _ _) fun e he => ?_)
  · rcases Node.mem_ids_addChild hk with hk | ⟨⟨⟩⟩
    · rcases Node.mem_ids.1 hk with hk | hk
      · exact .inr (hids k hk)
      · exact .inl (Node.mem_ids.2 (.inr hk))
    · exact .inr hchild
  · rw [Node.props_addChild] at he
    exact .inl he

/-- A node is marked as visited in both graphs. -/
theorem visit (h : Beside q odd spare σ g g') :
    Beside q odd spare σ (g.update j fun n => { n with visited := true })
      (g'.update (σ j) fun n => { n with visited := true }) :=
  h.update (h.twins j).visit rfl rfl (h.kempt.update (fun _ hk => .inl hk) rfl rfl fun _ he => .inl he)

/-- A node without a name, which is bound nowhere, gets one in both graphs. -/
theorem rename (h : Beside q odd spare σ g g') (hunnamed : (g.node j).name = .null) (name : Json) :
    Beside q odd spare σ (g.update j fun n => { n with name := name })
      (g'.update (σ j) fun n => { n with name := name }) :=
  h.update ((h.twins j).setName name) rfl rfl (h.kempt.rename hunnamed name)

/-- A property whose type is no reference is planted in both graphs when its type is. -/
theorem plain (h : Beside q odd spare σ g g') (hp : ∀ k, p = some k → k.index < g.size)
    (hrises : g'.Rises σ p' (p.map σ)) {name : String} {required : Bool} {declaration : Json}
    {type : Schema} (htype : ∀ target, type ≠ .ref target)
    (hplant : ∀ {g g' : Graph} {p p' : Option NodeId}, Beside q odd spare σ g g' →
      (∀ k, p = some k → k.index < g.size) → g'.Rises σ p' (p.map σ) →
        Beside q odd spare σ (g.plant p type).2 (g'.plant p' type).2 ∧
          (g'.plant p' type).1 = σ (g.plant p type).1) :
    Beside q odd spare σ (g.plantProperty p ⟨name, required, declaration, type⟩).2
        (g'.plantProperty p' ⟨name, required, declaration, type⟩).2 ∧
      (g'.plantProperty p' ⟨name, required, declaration, type⟩).1 =
        σ (g.plantProperty p ⟨name, required, declaration, type⟩).1 := by
  obtain ⟨h₁, ha⟩ := h.alloc_of_body (.property ⟨.bool required, declaration, none⟩ [] none) (.str name)
    rfl hp hrises
  rw [plantProperty_plain p g name required declaration htype,
    plantProperty_plain p' g' name required declaration htype]
  generalize hn : ({ body := .property ⟨.bool required, declaration, none⟩ [] none
                     name := .str name
                     parent := p } : Node) = n at h₁ ha
  generalize ({ body := .property ⟨.bool required, declaration, none⟩ [] none
                name := .str name
                parent := p' } : Node) = n' at h₁ ha
  have hlt := lt_size_alloc g n
  obtain ⟨h₂, ht⟩ := hplant h₁ (by rintro _ ⟨⟩; exact hlt) (rises_of_eq ha)
  have hplanted := (planted_plant (some (g.alloc n).1) (g.alloc n).2 type).1
  have hnode := (hplanted.node_eq _ hlt).trans (node_alloc_self g n)
  dsimp only
  rw [ht, ha]
  rw [ha] at h₂
  refine ⟨h₂.fill (b := fun t => .property ⟨.bool required, declaration, some t⟩ [] none)
    (fun _ => rfl) (fun _ => rfl) ?_ hplanted.sprout.lt_size ?_, rfl⟩
  · rw [hnode, ← hn]
  · rw [hnode, ← hn]

mutual

/-- The same declaration is planted in both graphs. -/
theorem plant {g g' : Graph} {p p' : Option NodeId} (h : Beside q odd spare σ g g')
    (hp : ∀ k, p = some k → k.index < g.size) (hrises : g'.Rises σ p' (p.map σ)) : ∀ s : Schema,
      Beside q odd spare σ (g.plant p s).2 (g'.plant p' s).2 ∧ (g'.plant p' s).1 = σ (g.plant p s).1
  | .ref _ => by
    rw [Graph.plant, Graph.plant]
    exact h.alloc_of_body _ _ rfl hp hrises
  | .composed _ _ => by
    rw [Graph.plant, Graph.plant]
    exact h.alloc_of_body _ _ rfl hp hrises
  | .scalar _ => by
    rw [Graph.plant, Graph.plant]
    exact h.alloc_of_body _ _ rfl hp hrises
  | .array items => by
    obtain ⟨h₁, ha⟩ := h.alloc_of_body (.array none) .null rfl hp hrises
    have hlt := lt_size_alloc g { body := .array none, parent := p }
    obtain ⟨h₂, hitem⟩ := plant h₁ (by rintro _ ⟨⟩; exact hlt) (rises_of_eq ha) items
    have hplanted := (planted_plant (some (g.alloc { body := .array none, parent := p }).1)
      (g.alloc { body := .array none, parent := p }).2 items).1
    have hnode := (hplanted.node_eq _ hlt).trans (node_alloc_self _ _)
    rw [Graph.plant, Graph.plant]
    dsimp only
    rw [hitem, ha]
    rw [ha] at h₂
    refine ⟨h₂.fill (b := fun t => .array (some t)) (fun _ => rfl) (fun _ => rfl) ?_
      hplanted.sprout.lt_size ?_, rfl⟩
    · rw [hnode]
    · rw [hnode]
  | .object properties => by
    obtain ⟨h₁, ha⟩ := h.alloc_of_body .object .null rfl hp hrises
    rw [Graph.plant, Graph.plant]
    dsimp only
    rw [ha]
    exact ⟨plantEach h₁ (lt_size_alloc g _) properties, rfl⟩

theorem plantProperty {g g' : Graph} {p p' : Option NodeId} (h : Beside q odd spare σ g g')
    (hp : ∀ k, p = some k → k.index < g.size) (hrises : g'.Rises σ p' (p.map σ)) :
    ∀ property : PropertyOf Schema,
      Beside q odd spare σ (g.plantProperty p property).2 (g'.plantProperty p' property).2 ∧
        (g'.plantProperty p' property).1 = σ (g.plantProperty p property).1
  | ⟨_, _, _, .ref _⟩ => by
    rw [Graph.plantProperty, Graph.plantProperty]
    exact h.alloc_of_body _ _ rfl hp hrises
  | ⟨name, required, declaration, .composed kind members⟩ =>
    plain h hp hrises (by simp) fun h₁ hp₁ hrises₁ => plant h₁ hp₁ hrises₁ _
  | ⟨name, required, declaration, .scalar type⟩ =>
    plain h hp hrises (by simp) fun h₁ hp₁ hrises₁ => plant h₁ hp₁ hrises₁ _
  | ⟨name, required, declaration, .array items⟩ =>
    plain h hp hrises (by simp) fun h₁ hp₁ hrises₁ => plant h₁ hp₁ hrises₁ _
  | ⟨name, required, declaration, .object properties⟩ =>
    plain h hp hrises (by simp) fun h₁ hp₁ hrises₁ => plant h₁ hp₁ hrises₁ _

theorem plantEach {g g' : Graph} (h : Beside q odd spare σ g g') {object : NodeId}
    (hlt : object.index < g.size) :
    ∀ properties : List (PropertyOf Schema),
      Beside q odd spare σ (g.plantEach object properties) (g'.plantEach (σ object) properties)
  | [] => h
  | property :: rest => by
    obtain ⟨h₁, hprop⟩ := plantProperty h (by rintro _ ⟨⟩; exact hlt) (rises_of_eq rfl) property
    have hplanted := planted_plantProperty (some object) g property
    have hindex := hplanted.1.index
    have hsprout := hplanted.1.sprout.lt_size
    rw [Graph.plantEach, Graph.plantEach]
    dsimp only
    rw [hprop]
    refine plantEach (h₁.put ⟨_, rfl, hplanted.2.1.1⟩) ?_ rest
    rw [size_update]
    omega

end

/-! ### Nodes that only one of the graphs has -/

/-- The places of nodes after one more node was made in the second graph only. -/
def shifted (σ : NodeId → NodeId) (size : Nat) (j : NodeId) : NodeId :=
  if j.index < size then σ j else ⟨(σ j).index + 1⟩

theorem shifted_of_lt {size : Nat} (hj : j.index < size) : shifted σ size j = σ j := if_pos hj

theorem index_shifted_of_le {size : Nat} (hj : size ≤ j.index) :
    (shifted σ size j).index = (σ j).index + 1 := by
  rw [shifted, if_neg (Nat.not_lt.2 hj)]

theorem map_shifted {size : Nat} (hp : ∀ k, p = some k → k.index < size) :
    p.map (shifted σ size) = p.map σ := by
  cases p with
  | none => rfl
  | some k => exact congrArg some (shifted_of_lt (hp k rfl))

theorem shifted_ne (h : Beside q odd spare σ g g') (hk : k.index < g'.size) (hspare : ∀ j, σ j ≠ k)
    (j : NodeId) : shifted σ g.size j ≠ k := by
  rcases Nat.lt_or_ge j.index g.size with hlt | hge
  · rw [shifted_of_lt hlt]
    exact hspare j
  · rintro rfl
    rw [index_shifted_of_le hge] at hk
    exact absurd ((h.lt_size_iff j).1 (Nat.lt_of_succ_lt hk)) (Nat.not_lt.2 hge)

theorem shifted_ne_size (h : Beside q odd spare σ g g') (j : NodeId) :
    shifted σ g.size j ≠ ⟨g'.size⟩ := by
  intro he
  have hindex : (shifted σ g.size j).index = g'.size := congrArg NodeId.index he
  rcases Nat.lt_or_ge j.index g.size with hlt | hge
  · have := (h.lt_size_iff j).2 hlt
    rw [shifted_of_lt hlt] at hindex
    omega
  · have := mt (h.lt_size_iff j).1 (Nat.not_lt.2 hge)
    rw [index_shifted_of_le hge] at hindex
    omega

theorem shifted_mono (h : Beside q odd spare σ g g') (hjk : j.index < k.index) :
    (shifted σ g.size j).index < (shifted σ g.size k).index := by
  have hmono := h.mono j k hjk
  rcases Nat.lt_or_ge k.index g.size with hk | hk
  · rwa [shifted_of_lt hk, shifted_of_lt (hjk.trans hk)]
  · rw [index_shifted_of_le hk]
    rcases Nat.lt_or_ge j.index g.size with hj | hj
    · rw [shifted_of_lt hj]
      omega
    · rw [index_shifted_of_le hj]
      omega

/-- The second graph gets a node more. -/
theorem insert (h : Beside q odd spare σ g g') (hname : n'.name = .null)
    (hp : ∀ k, p = some k → k.index < g.size) (hrises : g'.Rises σ n'.parent (p.map σ)) :
    Beside q odd (((g'.alloc n').1, n') :: spare) (shifted σ g.size) g (g'.alloc n').2 ∧
      (g'.alloc n').2.Rises (shifted σ g.size) (some (g'.alloc n').1) (p.map (shifted σ g.size)) := by
  have hup : ∀ {p p' : Option NodeId}, (∀ k, p = some k → k.index < g.size) → g'.Rises σ p' (p.map σ) →
      (g'.alloc n').2.Rises (shifted σ g.size) p' (p.map (shifted σ g.size)) := fun hp hup => by
    rw [map_shifted hp]
    refine hup.congr (by rw [size_alloc]; omega) fun k hk hspare => ?_
    rw [node_alloc_of_lt g' n' hk]
    exact ⟨h.shifted_ne hk hspare, rfl, rfl⟩
  have hnew : ∀ j, shifted σ g.size j ≠ (g'.alloc n').1 := h.shifted_ne_size
  have hself := node_alloc_self g' n'
  -- Nodes that are there stay where they are. Only the places of those to come move up.
  refine ⟨⟨h.kempt, fun j k => h.shifted_mono, fun m => ?_, fun j => ?_, fun j => ?_,
    h.elder.alloc (hrises.lt_size (h.map_lt_size hp)), ?_⟩, ?_⟩
  · refine eq_of_index_eq ?_
    rw [index_shifted_of_le (Nat.le_add_right _ _), h.fresh, size_alloc]
    show g'.size + m + 1 = g'.size + 1 + m
    omega
  · rcases Nat.lt_or_ge j.index g.size with hj | hj
    · rw [shifted_of_lt hj, node_alloc_of_lt g' n' ((h.lt_size_iff j).2 hj)]
      exact (h.twins j).congr fun k hk => (shifted_of_lt (h.kempt.closed j k hk)).symm
    · have hsize := mt (h.lt_size_iff j).1 (Nat.not_lt.2 hj)
      rw [node_of_size_le hj, node_of_size_le (by rw [size_alloc, index_shifted_of_le hj]; omega)]
      exact ⟨.inl rfl, rfl, rfl, rfl, rfl, rfl⟩
  · rcases Nat.lt_or_ge j.index g.size with hj | hj
    · rw [shifted_of_lt hj, node_alloc_of_lt g' n' ((h.lt_size_iff j).2 hj)]
      exact hup (fun k hk => (h.kempt.elder j k hk).trans hj) (h.risen j)
    · have hsize := mt (h.lt_size_iff j).1 (Nat.not_lt.2 hj)
      rw [node_of_size_le hj, node_of_size_le (by rw [size_alloc, index_shifted_of_le hj]; omega)]
      exact .refl none
  · refine List.forall_mem_cons.2 ⟨⟨lt_size_alloc g' n', hnew, hself⟩, fun e he => ?_⟩
    obtain ⟨hlt, hspare, hnode⟩ := h.spared e he
    refine ⟨by rw [size_alloc]; omega, h.shifted_ne hlt hspare, ?_⟩
    rw [node_alloc_of_lt g' n' hlt, hnode]
  · refine .step (lt_size_alloc g' n') hnew (by rw [hself, hname]) ?_
    rw [hself]
    exact hup hp hrises

/-- A node that only the second graph has is changed. -/
theorem change (h : Beside q odd ((k, n) :: spare) σ g g') (hname : (f n).name = n.name)
    (hparent : (f n).parent = n.parent) (hspare : ∀ e ∈ spare, e.1 ≠ k) :
    Beside q odd ((k, f n) :: spare) σ g (g'.update k f) := by
  obtain ⟨⟨hlt, hk, hnode⟩, hothers⟩ := List.forall_mem_cons.1 h.spared
  dsimp only at hlt hk hnode
  have hrises : ∀ {p p'}, g'.Rises σ p' p → (g'.update k f).Rises σ p' p := fun hup =>
    hup.congr (size_update _ _ _).ge fun m _ hm => by
      rw [node_update_eq]
      split
      · next he => exact ⟨hm, by rw [he.1, hnode, hname], by rw [he.1, hnode, hparent]⟩
      · exact ⟨hm, rfl, rfl⟩
  refine ⟨h.kempt, h.mono, fun m => ?_, fun j => ?_, fun j => ?_,
    h.elder.update (by rw [hnode, hparent]), List.forall_mem_cons.2 ⟨⟨?_, hk, ?_⟩, fun e he => ?_⟩⟩
  · rw [size_update]
    exact h.fresh m
  · rw [node_update_of_ne g' (hk j)]
    exact h.twins j
  · rw [node_update_of_ne g' (hk j)]
    exact hrises (h.risen j)
  · rwa [size_update]
  · dsimp only
    rw [node_update_self g' hlt, hnode]
  · obtain ⟨hlt', hspare', hnode'⟩ := hothers e he
    refine ⟨by rwa [size_update], hspare', ?_⟩
    rw [node_update_of_ne g' (hspare e he), hnode']

/-- Nothing has to be known of a node any more. -/
theorem forget (h : Beside q odd ((k, n) :: spare) σ g g') : Beside q odd spare σ g g' :=
  ⟨h.kempt, h.mono, h.fresh, h.twins, h.risen, h.elder, fun e he => h.spared e (List.mem_cons_of_mem _ he)⟩

/-! ### What is read off both graphs -/

/-- The nearest name on the way up is the same. -/
theorem ownerName? (h : Beside q odd spare σ g g') {j : NodeId} (hj : j.index < g.size) :
    g'.ownerName? (some (σ j)) = g.ownerName? (some j) := by
  obtain ⟨index⟩ := j
  induction index using Nat.strongRecOn with
  | _ index ih =>
    rw [ownerName?_some h.elder ((h.lt_size_iff _).2 hj), ownerName?_some h.kempt.elder hj,
      (h.twins _).name, (h.risen _).ownerName? h.elder]
    split
    · cases hparent : (g.node ⟨index⟩).parent with
      | none => rfl
      | some p =>
        have hlt : p.index < index := h.kempt.elder _ p hparent
        exact ih p.index hlt (hlt.trans hj)
    · rfl

theorem ownerName?_of_rises (h : Beside q odd spare σ g g') (hp : ∀ k, p = some k → k.index < g.size)
    (hrises : g'.Rises σ p' (p.map σ)) : g'.ownerName? p' = g.ownerName? p := by
  rw [hrises.ownerName? h.elder]
  cases p with
  | none => rfl
  | some k => exact h.ownerName? (hp k rfl)

theorem owner (h : Beside q odd spare σ g g') (hp : ∀ k, p = some k → k.index < g.size)
    (hrises : g'.Rises σ p' (p.map σ)) : g'.owner p' = g.owner p := by
  rw [Graph.owner, Graph.owner, h.ownerName?_of_rises hp hrises]

theorem inlineOwner (h : Beside q odd spare σ g g') (hj : j.index < g.size) :
    g'.inlineOwner (σ j) = g.inlineOwner j := by
  rw [Graph.inlineOwner, Graph.inlineOwner,
    h.ownerName?_of_rises (fun k hk => (h.kempt.elder j k hk).trans hj) (h.risen j)]

/-- A property is described in the same words. -/
theorem describe (h : Beside q odd spare σ g g') (j : NodeId) : g'.describe (σ j) = g.describe j := by
  have hword : ∀ type : Option NodeId, g'.typeWord (type.map σ) = g.typeWord type := by
    intro type
    cases type with
    | none => rfl
    | some t =>
      have htwin := h.twins t
      rw [Option.map_some, typeWord, typeWord]
      rcases htwin.body with hbody | ⟨-, ⟨_, hbody⟩, ⟨_, hbody'⟩⟩
      · rw [hbody]
        rcases (g.node t).body with _ | (_ | _) | _ | _ | _ | _ | _ | ⟨_, _, _ | _⟩ | _ <;> rfl
      · rw [hbody, hbody']
        rfl
  have htwin := h.twins j
  rw [Graph.describe, Graph.describe]
  rcases htwin.body with hbody | ⟨-, ⟨_, hbody⟩, ⟨_, hbody'⟩⟩
  · rw [hbody, htwin.name]
    rcases (g.node j).body with _ | _ | _ | _ | _ | _ | _ | ⟨slot, _, _ | _⟩ | _ <;> try rfl
    simp only [Body.rename, Option.map_none, Slot.rename, hword]
  · rw [hbody, hbody']

theorem propertiesWithin (h : Beside q odd spare σ g g') (steps : Nat) (j : NodeId) :
    g'.propertiesWithin steps (σ j) = (g.propertiesWithin steps j).map (mapValues σ) := by
  induction steps generalizing j with
  | zero => rfl
  | succ steps ih =>
    have htwin := h.twins j
    rw [Graph.propertiesWithin, Graph.propertiesWithin]
    rcases htwin.body with hbody | ⟨-, ⟨_, hbody⟩, ⟨_, hbody'⟩⟩
    · rw [hbody, htwin.props]
      rcases (g.node j).body with _ | _ | _ | _ | _ | _ | ⟨_, _ | target⟩ | _ | _ <;> try rfl
      exact ih target
    · rw [hbody, hbody', htwin.props]
      rfl

/-- What a node brings into a composition is the same. -/
theorem propertiesOf (h : Beside q odd spare σ g g') (j : NodeId) :
    g'.propertiesOf (σ j) = (g.propertiesOf j).map (mapValues σ) := by
  have hsize := h.size_le
  have hsteps : g.propertiesWithin (g'.size + 1) j = g.propertiesWithin (g.size + 1) j :=
    propertiesWithin_of_size_lt j (by omega) (by omega)
  rw [Graph.propertiesOf, Graph.propertiesOf, h.propertiesWithin, hsteps]

end Beside

end Graph

end ApiGraph
