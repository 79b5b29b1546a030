import ApiGraph.Proofs.Finishing.Whole

/-!
# New nodes and gathered properties

The visits of new nodes are owed, and a composition gathers properties that are ready.

* `Whole.planted`, `Whole.bound` — the visits of the nodes of a new sprout are owed;
* `Whole.entry_of_properties` — what a node brings into a composition is ready;
* `Context.Gathered` — properties gathered under their names, each once;
* `whole_putEach` — a composition takes over what was gathered.
-/

namespace ApiGraph

open OrderedMap Context

variable {A X Y : NodeId → Prop} {d : Document} {q : Option NodeId} {P : NodeId → Prop}
  {c c' : Context} {i : NodeId} {top : Nat}

theorem Works.of_ok {α : Type} {m : Run α} {R : α → Context → Prop} {a : α}
    (hw : Works d q P m c R) (h : m c = .ok a c') : c.Grows P c' ∧ c'.Sound d q ∧ R a c' := by
  have hok := hw.ok a (outcome_of_ok h)
  rw [after_of_ok h] at hok
  have hgrows := hw.grows
  rw [after_of_ok h] at hgrows
  have hsound := hw.sound
  rw [after_of_ok h] at hsound
  exact ⟨hgrows, hsound, hok⟩

theorem Idle.of_ok {α : Type} {m : Run α} {a : α} (hm : Idle m) (h : m c = .ok a c') :
    c.Still c' := by
  have hstill := hm c
  rwa [after_of_ok h] at hstill

/-! ## New nodes -/

/-- The visits of the nodes of a sprout may be owed. -/
theorem Sprout.owing (h : Sprout c.graph i top)
    (hplain : ∀ j, Tree c.graph i j → ∀ slot arguments link,
      (c.graph.node j).body = .property slot arguments (some link) →
        slot.type = none ∧ ∀ a, some a ∈ arguments → A a) : Owing A (Tree c.graph i) c := by
  refine ⟨fun j hj => h.tree_lt_size hj, fun j hj k hk => h.tree_of_props hj hk, fun j hj => ?_, hplain⟩
  obtain ⟨top', hsprout, -⟩ := h.of_tree hj
  exact hsprout.bud.entries

/-- A tree of new nodes, which are loose, has no arguments of references. -/
theorem Sprout.owing_of_loose (h : Sprout c.graph i top)
    (hloose : ∀ j, i.index ≤ j.index → j ≠ i → (c.graph.node j).Loose)
    (hi : ∀ slot arguments link, (c.graph.node i).body = .property slot arguments (some link) →
      slot.type = none ∧ arguments = []) : Owing A (Tree c.graph i) c := by
  refine h.owing fun j hj slot arguments link hbody => ?_
  have hplain : slot.type = none ∧ arguments = [] := by
    by_cases hne : j = i
    · rw [hne] at hbody
      exact hi slot arguments link hbody
    · exact (hloose j (h.tree_bounds hj).1 hne).plain slot arguments link hbody
  obtain ⟨htype, rfl⟩ := hplain
  exact ⟨htype, fun _ ha => absurd ha List.not_mem_nil⟩

/-- Nothing has happened to the nodes that are there. -/
theorem Whole.grow_of_loose (hw : Whole A X c) (hg : c.Grows c.Old c')
    (hnew : ∀ j, c.graph.size ≤ j.index → (c'.graph.node j).visited = false)
    (ho : Owing A Y c')
    (hstored : ∀ ref t, c'.stored? ref = some t → c.stored? ref = some t ∨ Y t) :
    Whole A (fun j => X j ∨ Y j) c' := by
  refine hw.grow hg (fun j hj => hj.lt_size) (fun j hj e he => ?_) (fun j hj => ?_) ho hstored
  · rw [(hg.spared j (hw.owed_lt j hj)).1] at he
    exact .inl he
  · by_cases hlt : j.index < c.graph.size
    · rw [Visited, (hg.spared j hlt).1] at hj
      exact hj
    · have hnone := hnew j (Nat.not_lt.1 hlt)
      rw [Visited, hnone] at hj
      cases hj

/-- The visits of new nodes are owed. -/
theorem Whole.planted (hw : Whole A X c) (hg : c.Grows c.Old c') (hp : Planted c.graph c'.graph i)
    (hstored : ∀ ref, c'.stored? ref = c.stored? ref) :
    Whole A (fun j => X j ∨ Tree c'.graph i j) c' := by
  have hindex := hp.index
  refine hw.grow_of_loose hg (fun j hj => (hp.loose j hj).unvisited) ?_ fun ref t ht => ?_
  · refine hp.sprout.owing_of_loose (fun j hj _ => hp.loose j (by omega)) ?_
    exact (hp.loose i hindex.ge).plain
  · rw [hstored] at ht
    exact .inl ht

theorem Whole.sprouted {parent : Option NodeId} {schema : Json} (hw : Whole A X c)
    (h : Sprouted c parent schema i c') : Whole A (fun j => X j ∨ Tree c'.graph i j) c' :=
  hw.planted h.grows h.planted h.still.stored?

/-- The visits of the nodes of a new declaration are owed. -/
theorem Whole.bound {owner : Option NodeId} {ref : Json} (hw : Whole A X c) (hs : c.Sound d q)
    (h : Bound d c owner ref i c') : Whole A (fun j => X j ∨ Tree c'.graph i j) c' := by
  have hindex := h.index
  have hsprout := (h.budding hs).sprout
  have hi : (c'.graph.node i).visited = false := hsprout.bud.unvisited
  refine hw.grow_of_loose (h.grows hs) (fun j hj => ?_) ?_ fun ref' t ht => ?_
  · by_cases hne : j = i
    · rw [hne]
      exact hi
    · exact (h.loose hj hne).unvisited
  · refine hsprout.owing_of_loose (fun j hj hne => h.loose (by omega) hne) ?_
    obtain ⟨declaration, c₁, c₂, -, -, hsprouted, hgraph'⟩ := h.built
    have hlt : i.index < c₂.graph.size := hsprouted.planted.sprout.lt_size
    rw [hgraph', Graph.node_update_self c₂.graph hlt]
    exact (hsprouted.planted.loose i hsprouted.planted.index.ge).plain
  · rw [(h.sound hs).stored?_eq_some_iff, h.builds] at ht
    rcases List.mem_append.1 ht with ht | ht
    · exact .inl (hs.stored?_eq_some_iff.2 ht)
    · obtain ⟨rfl, rfl⟩ := Prod.mk.inj (List.mem_singleton.1 ht)
      exact .inr (Tree.refl _ _)

/-! ## Gathered properties -/

/-- What a node brings into a composition may be gathered. -/
theorem Whole.entry_of_properties (hw : Whole A X c) (hs : c.Sound d q) (hi : c.Ready X i)
    {steps : Nat} {props : OrderedMap Key NodeId} (h : c.graph.propertiesWithin steps i = .ok props) :
    ∀ e ∈ props, c.Entry X e := by
  induction steps generalizing i with
  | zero => cases h
  | succ steps ih =>
    rw [Graph.propertiesWithin] at h
    split at h
    · next ref target hbody =>
      refine ih (hw.stored ref target ?_) h
      exact hs.linked i ⟨ref, some target⟩ target (by rw [hbody]; rfl) rfl
    · cases h
      exact fun e he => hw.entry hi he
    · cases h
      exact fun e he => hw.entry hi he
    · cases h
      simp

/-- Properties gathered under their names, each name once. -/
structure Context.Gathered (c : Context) (X : NodeId → Prop) (m : OrderedMap Key NodeId) : Prop where
  distinct : Distinct (keys m)
  entries : ∀ e ∈ m, c.Entry X e

theorem gathered_nil (c : Context) (X : NodeId → Prop) : c.Gathered X [] :=
  ⟨List.Pairwise.nil, nofun⟩

/-- A key that is bound anew keeps its spelling, which is the only one of its text. -/
theorem Context.Gathered.insert {m : OrderedMap Key NodeId} (h : c.Gathered X m) {e : Key × NodeId}
    (he : c.Entry X e) : c.Gathered X (OrderedMap.insert e.1 e.2 m) := by
  refine ⟨distinct_keys_insert h.distinct _ _, fun e' he' => ?_⟩
  rcases mem_insert he' with he' | rfl | ⟨old, hold, hkey, hvalue⟩
  · exact h.entries e' he'
  · exact he
  · obtain ⟨hready, s, hs, hprop⟩ := he
    rw [hs] at hkey
    refine ⟨by rwa [hvalue], s, Key.eq_text_of_beq hkey, by rwa [hvalue]⟩

theorem Context.Gathered.insertAll {m more : OrderedMap Key NodeId} (h : c.Gathered X m)
    (hmore : ∀ e ∈ more, c.Entry X e) : c.Gathered X (OrderedMap.insertAll m more) := by
  induction more generalizing m with
  | nil => exact h
  | cons e rest ih =>
    obtain ⟨he, hrest⟩ := List.forall_mem_cons.1 hmore
    exact ih (h.insert he) hrest

/-- A property is gathered under its own name only, so none is gathered twice. -/
theorem Context.Gathered.nodup_values {m : OrderedMap Key NodeId} (h : c.Gathered X m) :
    (values m).Nodup := by
  have hpairs : m.Pairwise fun a b => (a.1 == b.1) = false := List.pairwise_map.1 h.distinct
  refine List.pairwise_map.2 (hpairs.imp_of_mem fun {a b} ha hb hab he => ?_)
  obtain ⟨-, s, hs, hprop⟩ := h.entries a ha
  obtain ⟨-, s', hs', hprop'⟩ := h.entries b hb
  rw [he] at hprop
  have hname : Json.str s = Json.str s' := hprop.1.symm.trans hprop'.1
  cases hname
  rw [hs, hs', Key.text_beq_text, beq_self_eq_true] at hab
  cases hab

/-- A composition while it takes over properties: its children are its properties. -/
structure Context.Gathering (c : Context) (i : NodeId) (kind : Composition) (parts : Option Json) :
    Prop where
  body : (c.graph.node i).body = .composed kind parts
  unvisited : ¬c.Visited i
  attached : (c.graph.node i).attached = none
  children : (c.graph.node i).children = (values (c.graph.node i).props).map some
  nodup : (values (c.graph.node i).props).Nodup

variable {kind : Composition} {parts : Option Json}

theorem Context.Gathering.congr (h : c.Gathering i kind parts)
    (hsame : c'.graph.node i = c.graph.node i) : c'.Gathering i kind parts := by
  obtain ⟨hbody, hunvisited, hattached, hchildren, hnodup⟩ := h
  refine ⟨?_, ?_, ?_, ?_, ?_⟩
  · rwa [hsame]
  · rwa [Visited, hsame]
  · rwa [hsame]
  · rwa [hsame]
  · rwa [hsame]

theorem Context.Gathering.still (h : c.Gathering i kind parts) (hstill : c.Still c') :
    c'.Gathering i kind parts :=
  h.congr (by rw [hstill.graph])

/-- A property is bound under its own name. -/
theorem put_eq {prop : NodeId} {s : String} (h : (c.graph.node prop).name = .str s) (i : NodeId) :
    Run.put i prop c = .ok ()
      { c with graph := c.graph.update i fun n => n.putProperty (.text s) prop } :=
  put_of_key_eq_some (by rw [h]; rfl) i

/-- Binds properties at a node, one after the other. -/
def Graph.gather (g : Graph) (i : NodeId) (m : OrderedMap Key NodeId) : Graph :=
  m.foldl (fun g e => g.update i fun n => n.putProperty e.1 e.2) g

namespace Graph

variable {g : Graph}

theorem node_gather_of_ne {j : NodeId} (hj : j ≠ i) (m : OrderedMap Key NodeId) :
    (g.gather i m).node j = g.node j := by
  induction m generalizing g with
  | nil => rfl
  | cons e rest ih => exact ih.trans (node_update_of_ne g hj _)

theorem size_gather (g : Graph) (i : NodeId) (m : OrderedMap Key NodeId) :
    (g.gather i m).size = g.size := by
  induction m generalizing g with
  | nil => rfl
  | cons e rest ih => exact (ih _).trans (size_update g i _)

/-- A composition that takes over properties stays what it is. -/
theorem kept_gather (hcomposed : (g.node i).body.isComposed = true) (m : OrderedMap Key NodeId)
    (j : NodeId) : (g.node j).Kept ((g.gather i m).node j) := by
  induction m generalizing g with
  | nil => exact .refl _
  | cons e rest ih =>
    have hput : ∀ j, (g.node j).Kept ((g.update i fun n => n.putProperty e.1 e.2).node j) := by
      intro j
      rw [node_update_eq]
      split
      · next h =>
        rw [h.1]
        exact Node.kept_putProperty hcomposed _ _
      · exact .refl _
    exact (hput j).trans (ih (((hput i).isComposed).trans hcomposed))

theorem visited_gather (hlt : i.index < g.size) (m : OrderedMap Key NodeId) :
    ((g.gather i m).node i).visited = (g.node i).visited := by
  induction m generalizing g with
  | nil => rfl
  | cons e rest ih =>
    have hrest := ih (g := g.update i fun n => n.putProperty e.1 e.2) (by rwa [size_update])
    rw [node_update_self g hlt, Node.visited_putProperty] at hrest
    exact hrest

theorem props_gather (hlt : i.index < g.size) (m : OrderedMap Key NodeId) :
    ((g.gather i m).node i).props = OrderedMap.insertAll (g.node i).props m := by
  induction m generalizing g with
  | nil => rfl
  | cons e rest ih =>
    have hrest := ih (g := g.update i fun n => n.putProperty e.1 e.2) (by rwa [size_update])
    rw [node_update_self g hlt, Node.props_putProperty] at hrest
    exact hrest

end Graph

/-- Properties are bound under the keys that they were collected under, which are their names. -/
theorem putEach_eq (hlt : i.index < c.graph.size) {m : OrderedMap Key NodeId}
    (hm : ∀ e ∈ m, ∃ s, e.1 = .text s ∧ (c.graph.node e.2).name = .str s) :
    (values m).forM (Run.put i) c = .ok () { c with graph := c.graph.gather i m } := by
  induction m generalizing c with
  | nil => rfl
  | cons e rest ih =>
    obtain ⟨⟨s, hkey, hname⟩, hrest⟩ := List.forall_mem_cons.1 hm
    have hput := put_eq hname i
    rw [← hkey] at hput
    show (Run.put i e.2 >>= fun _ => (values rest).forM (Run.put i)) c = _
    rw [bind_of_ok hput]
    refine ih ?_ fun e' he' => ?_
    · exact hlt.trans_eq (Graph.size_update _ _ _).symm
    · obtain ⟨s', hkey', hname'⟩ := hrest e' he'
      refine ⟨s', hkey', ?_⟩
      by_cases he : e'.2 = i
      · simp only [he, Graph.node_update_self c.graph hlt, Node.name_putProperty]
        rwa [← he]
      · simp only [Graph.node_update_of_ne c.graph he]
        exact hname'

/-- A composition takes over one property, which it does not have yet. -/
theorem whole_put (hs : c.Sound d q) (hw : Whole A X c) (hX : X i) (hi : c.Gathering i kind parts)
    {prop : NodeId} {key : Key} (hprop : c.Entry X (key, prop))
    (hnew : prop ∉ values (c.graph.node i).props) (h : Run.put i prop c = .ok () c') :
    c'.Sound d q ∧ Whole A X c' ∧ c'.Gathering i kind parts ∧ (∀ e, c.Entry X e → c'.Entry X e) ∧
      ∀ p ∈ values (c'.graph.node i).props, p = prop ∨ p ∈ values (c.graph.node i).props := by
  obtain ⟨hbody, hunvisited, hattached, hchildren, hnodup⟩ := hi
  obtain ⟨s, hname⟩ : ∃ s, (c.graph.node prop).IsProperty s := by
    obtain ⟨-, s, -, hname⟩ := hprop
    exact ⟨s, hname⟩
  have hlt := hw.owed_lt i hX
  have hspared : ∀ j, c.Visited j → j ≠ i := by
    rintro j hj rfl
    exact hunvisited hj
  obtain ⟨hgrows, hs', -⟩ := (works_put (P := (· ≠ i)) hs hlt (fun h => h rfl)
    (by rw [hbody]; rfl) prop).of_ok h
  rw [put_eq hname.1] at h
  cases h
  have hself := Graph.node_update_self c.graph hlt fun n => n.putProperty (.text s) prop
  have hother : ∀ j, j ≠ i → (c.graph.update i fun n => n.putProperty (.text s) prop).node j =
      c.graph.node j := fun j hj => Graph.node_update_of_ne c.graph hj _
  have hmarks : ∀ j, ((c.graph.update i fun n => n.putProperty (.text s) prop).node j).visited =
      (c.graph.node j).visited := by
    intro j
    by_cases hj : j = i
    · rw [hj, hself, Node.visited_putProperty]
    · rw [hother j hj]
  have hvalues : ∀ p ∈ values (OrderedMap.insert (.text s) prop (c.graph.node i).props),
      p = prop ∨ p ∈ values (c.graph.node i).props := by
    intro p hp
    obtain ⟨e, he, rfl⟩ := List.mem_map.1 hp
    rcases mem_insert he with he | rfl | ⟨-, -, -, hvalue⟩
    · exact .inr (List.mem_map_of_mem he)
    · exact .inl rfl
    · exact .inl hvalue
  refine ⟨hs', hw.step hgrows hspared (fun j hj e he => ?_) (fun j hj => (hmarks j).symm.trans hj)
    (fun _ => rfl), ⟨?_, ?_, ?_, ?_, ?_⟩, ?_, ?_⟩
  · by_cases hj' : j = i
    · subst hj'
      simp only [hself, Node.props_putProperty] at he
      rcases mem_insert he with he | rfl | ⟨old, hold, hkey, hvalue⟩
      · exact .inl he
      · exact .inr ⟨hprop.1, s, rfl, hname⟩
      · exact .inr ⟨by rw [hvalue]; exact hprop.1, s, Key.eq_text_of_beq hkey, by rwa [hvalue]⟩
    · simp only [hother j hj'] at he
      exact .inl he
  · simp only [hself, Node.body_putProperty]
    exact hbody
  · exact fun hvisit => hunvisited ((hmarks i).symm.trans hvisit)
  · simp only [hself, Node.attached_putProperty]
    exact hattached
  · simp only [hself, Node.props_putProperty]
    exact Node.children_putProperty hchildren hnodup fun _ => hnew
  · simp only [hself, Node.props_putProperty]
    obtain ⟨xs, ys, hinsert, hsub⟩ :=
      exists_values_insert_sublist (.text s) prop (c.graph.node i).props
    rw [hinsert, List.perm_middle.nodup_iff]
    exact List.nodup_cons.2 ⟨fun hmem => hnew (hsub.subset hmem), hnodup.sublist hsub⟩
  · rintro e ⟨hready, s', hkey, hprop'⟩
    refine ⟨hready.imp (hmarks e.2).trans id, s', hkey, hprop'.kept (hgrows.kept e.2 hprop'.lt_size)⟩
  · simp only [hself, Node.props_putProperty]
    exact hvalues

/-- A composition takes over properties one by one. -/
theorem whole_putEach (hs : c.Sound d q) (hw : Whole A X c) (hX : X i)
    (hi : c.Gathering i kind parts) {props : List NodeId} (hnodup : props.Nodup)
    (hprops : ∀ p ∈ props, ∃ key, c.Entry X (key, p))
    (hnew : ∀ p ∈ props, p ∉ values (c.graph.node i).props)
    (h : props.forM (Run.put i) c = .ok () c') :
    c'.Sound d q ∧ Whole A X c' ∧ c'.Gathering i kind parts := by
  induction props generalizing c with
  | nil =>
    cases h
    exact ⟨hs, hw, hi⟩
  | cons p rest ih =>
    obtain ⟨u, c₁, hput, hrest⟩ := bind_eq_ok_iff.1 h
    obtain ⟨⟨key, hp⟩, hothers⟩ := List.forall_mem_cons.1 hprops
    obtain ⟨hpnew, hrestNew⟩ := List.forall_mem_cons.1 hnew
    obtain ⟨hprest, hnodup⟩ := List.nodup_cons.1 hnodup
    obtain ⟨hs₁, hw₁, hi₁, hentry, hvalues⟩ := whole_put hs hw hX hi hp hpnew hput
    refine ih hs₁ hw₁ hi₁ hnodup (fun p' hp' => ?_) (fun p' hp' hmem => ?_) hrest
    · obtain ⟨key', hkey'⟩ := hothers p' hp'
      exact ⟨key', hentry _ hkey'⟩
    · rcases hvalues p' hmem with rfl | hmem
      · exact hprest hp'
      · exact hrestNew p' hp' hmem

end ApiGraph
