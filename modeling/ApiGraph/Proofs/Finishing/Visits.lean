import ApiGraph.Proofs.Dialogue.Visit
import ApiGraph.Proofs.Finishing.Gathering

/-!
# Visits finish what is owed

A visit that succeeds leaves its node visited and ripe, and owes nothing for the nodes below it.

* `Visit.Finishes` — what is promised of the visits of nodes below;
* `whole_resolve`, `complete_body`, … — one lemma for each step of a visit that succeeds;
* `Visit.finishes_visitWithin` — visits of any depth keep the promise.
-/

namespace ApiGraph

open OrderedMap Context

section

variable {A X : NodeId → Prop} {d : Document} {q : Option NodeId} {P : NodeId → Prop}
  {c c' c₁ : Context} {i : NodeId} {top : Nat}

theorem Context.Visited.grows (h : c.Visited i) (hg : c.Grows P c') (hi : P i) : c'.Visited i := by
  rw [Visited, (hg.spared i hi).1]
  exact h

/-- The nodes that were visited are not those of a sprout that is still to be visited. -/
theorem Whole.outside (hw : Whole A X c) (hb : c.Budding i top) {j : NodeId} (hj : c.Visited j) :
    c.Outside i top j :=
  ⟨hj.lt_size, fun h => hb.fresh j h.1 h.2 (hw.entered j hj)⟩

theorem Context.Entry.grows {e : Key × NodeId} (he : c.Entry X e) (hg : c.Grows c.Old c') :
    c'.Entry X e := by
  obtain ⟨hready, s, hkey, hprop⟩ := he
  refine ⟨?_, s, hkey, hprop.kept (hg.kept e.2 hprop.lt_size)⟩
  rcases hready with hvisited | hX
  · exact .inl (hvisited.grows hg hvisited.lt_size)
  · exact .inr hX

/-- A node whose visit has begun: those of its tree are owed, and those of other nodes. -/
structure Begun (A X : NodeId → Prop) (d : Document) (q : Option NodeId) (c : Context) (i : NodeId)
    (top : Nat) : Prop where
  sound : c.Sound d q
  opened : c.Opened i top
  owed : ∀ j, X j → c.Outside i top j
  spared : ∀ a, A a → a.index < c.graph.size ∧ ¬Tree c.graph i a
  whole : Whole A (fun j => X j ∨ Tree c.graph i j) c

theorem Begun.still (h : Begun A X d q c i top) (hstill : c.Still c') : Begun A X d q c' i top := by
  refine ⟨hstill.sound h.sound, hstill.opened h.opened, fun j hj => ?_, fun a ha => ?_, ?_⟩
  · rw [Outside, hstill.graph]
    exact h.owed j hj
  · rw [hstill.graph]
    exact h.spared a ha
  · rw [hstill.graph]
    exact h.whole.still hstill

/-- A node whose visit has done all it has to, apart from saying so. -/
structure Complete (A X : NodeId → Prop) (c : Context) (i : NodeId) : Prop where
  whole : Whole A (fun j => X j ∨ j = i) c
  ripe : c.Ripe i
  led : ∀ k ∈ (c.graph.node i).followed, c.Ready (fun j => X j ∨ j = i) k

theorem Complete.still (h : Complete A X c i) (hstill : c.Still c') : Complete A X c' i := by
  refine ⟨h.whole.still hstill, h.ripe.grows (hstill.grows (P := fun _ => True)) trivial, ?_⟩
  rw [hstill.graph]
  exact fun k hk => (Context.Ready.still hstill).2 (h.led k hk)

namespace Visit

/-- What is promised of the visits of nodes below: when one succeeds, nothing is owed any more for the
tree of its node. -/
def Finishes (A : NodeId → Prop) (d : Document) (q : Option NodeId) (v : Visitor) : Prop :=
  ∀ {X : NodeId → Prop} {c c' : Context} {i : NodeId} {top : Nat}, c.Sound d q → c.Budding i top →
    (∀ j, X j → c.Outside i top j) → (∀ a, A a → a.index < c.graph.size ∧ ¬Tree c.graph i a) →
    Whole A (fun j => X j ∨ Tree c.graph i j) c → v i c = .ok () c' → Whole A X c' ∧ c'.Visited i

variable {v : Visitor}

/-- A sprout that was added last is visited. -/
theorem Finishes.new (hf : Finishes A d q v) (hs : c.Sound d q) (hb : c.Budding i c.graph.size)
    (hX : ∀ j, X j → j.index < i.index) (hA : ∀ a, A a → a.index < i.index)
    (hw : Whole A (fun j => X j ∨ Tree c.graph i j) c) (h : v i c = .ok () c') :
    Whole A X c' ∧ c'.Visited i := by
  have hsize := hb.sprout.inside
  refine hf hs hb (fun j hj => ?_) (fun a ha => ⟨?_, fun ht => ?_⟩) hw h
  · have := hX j hj
    exact ⟨by omega, by omega⟩
  · have := hA a ha
    omega
  · have := hA a ha
    have := (hb.sprout.tree_bounds ht).1
    omega

theorem eq_ok_of_lift {α : Type} {a : Attempt α} {x : α} (h : Run.lift a c = .ok x c') :
    a = .ok x ∧ c = c' := by
  cases a with
  | ok y =>
    cases h
    exact ⟨rfl, rfl⟩
  | error fault => cases h

theorem eq_some_of_lift_expect {α : Type} {a : Option α} {x : α}
    (h : Run.lift (expect a) c = .ok x c') : a = some x ∧ c = c' := by
  cases a with
  | none => cases h
  | some y =>
    cases h
    exact ⟨rfl, rfl⟩

/-! ## References -/

/-- A reference is resolved to a node that is ready. -/
theorem whole_resolve (hf : Finishes A d q v) (hv : Visits d q v) (hs : c.Sound d q)
    (hA : ∀ a, A a → a.index < c.graph.size) (hw : Whole A X c) {owner : Option NodeId} {ref : Json}
    {t : NodeId} (h : resolve d v owner ref c = .ok t c') :
    c.Grows c.Old c' ∧ c'.Sound d q ∧ Whole A X c' ∧ c'.stored? ref = some t := by
  obtain ⟨hgrows, hs', hstored⟩ := (works_resolve hv hs owner ref).of_ok h
  refine ⟨hgrows, hs', ?_, hstored⟩
  rcases resolve_cases d v owner ref c with
    ⟨i, text, -, he⟩ | ⟨i, text, c₁, hbound, he⟩ | ⟨fault, c₁, -, -, -, he⟩ <;> rw [he] at h
  · have hmeet : Whole A X (c.meet ref) :=
      hw.step (grows_meet (P := fun _ => True) c ref) (fun _ _ => trivial) (fun _ _ _ => .inl)
        (fun _ => id) fun _ => rfl
    exact hmeet.still (((Run.idle_trace _ _).bind fun _ => idle_pure i).of_ok h)
  · obtain ⟨u, c₂, hvisit, hrest⟩ := bind_eq_ok_iff.1 h
    have hindex := hbound.index
    have hX : ∀ j, X j → j.index < i.index := fun j hj => by
      rw [hindex]
      exact hw.owed_lt j hj
    have hA' : ∀ a, A a → a.index < i.index := fun a ha => by
      rw [hindex]
      exact hA a ha
    have hvisited := hf.new (hbound.sound hs) (hbound.budding hs) hX hA' (hw.bound hs hbound) hvisit
    exact hvisited.1.still (((Run.idle_trace _ _).bind fun _ => idle_pure i).of_ok hrest)
  · cases h

/-- A new node is built and visited, and what was there stays as it is. -/
theorem whole_new (hf : Finishes A d q v) (hv : Visits d q v) (hs : c.Sound d q)
    (hA : ∀ a, A a → a.index < c.graph.size) (hw : Whole A X c) {parent : Option NodeId}
    {schema : Json} {member : NodeId} {c₂ : Context}
    (hbuild : Build.fromSchema parent schema c = .ok member c₁) (hvisit : v member c₁ = .ok () c₂) :
    c.Grows c.Old c₂ ∧ c₂.Sound d q ∧ Whole A X c₂ ∧ c₂.Visited member ∧
      c.graph.size ≤ member.index ∧ .planted parent schema member ∈ c₂.transcript ∧
      (∀ owner, parent = some owner → c₂.graph.Owns owner member) ∧
      ∃ s, schema.Declares s ∧ c₂.graph.Depicts member s := by
  have hsprouted := sprouted_fromSchema hbuild
  have hindex := hsprouted.planted.index
  have hs₁ := hsprouted.sound hs
  have hb₁ := hsprouted.budding hs
  have hX : ∀ j, X j → j.index < member.index := fun j hj => by
    rw [hindex]
    exact hw.owed_lt j hj
  have hA' : ∀ a, A a → a.index < member.index := fun a ha => by
    rw [hindex]
    exact hA a ha
  obtain ⟨hw₂, hmember⟩ := hf.new hs₁ hb₁ hX hA' (hw.sprouted hsprouted) hvisit
  obtain ⟨hgrows₂, hs₂, -⟩ := (hv hs₁ hb₁).of_ok hvisit
  obtain ⟨s, hdeclares, hdepicts⟩ := hsprouted.depicts
  refine ⟨hsprouted.grows.trans (hgrows₂.mono fun j hj => ?_), hs₂, hw₂, hmember, hindex.ge,
    hgrows₂.told.subset hsprouted.told, ?_, s, hdeclares, hdepicts.kept hgrows₂.kept⟩
  · have hlt : j.index < c.graph.size := hj
    have := hsprouted.size_lt
    exact ⟨by omega, by omega⟩
  · rintro owner rfl
    exact hsprouted.owns.kept (hgrows₂.kept member hsprouted.owns.lt_size)

/-! ## Compositions -/

/-- The members of a composition are built and visited one by one. -/
theorem whole_collectFrom (hf : Finishes A d q v) (hv : Visits d q v) (hs : c.Sound d q)
    (hA : ∀ a, A a → a.index < c.graph.size) (hw : Whole A X c) (i : NodeId)
    {collected collected' : OrderedMap Key NodeId} (hcollected : c.Gathered X collected)
    {members : List Json} (h : collectFrom v i collected members c = .ok collected' c') :
    Whole A X c' ∧ c'.Gathered X collected' := by
  induction members generalizing c collected with
  | nil =>
    cases h
    exact ⟨hw, hcollected⟩
  | cons schema rest ih =>
    obtain ⟨member, c₁, hbuild, h⟩ := bind_eq_ok_iff.1 h
    obtain ⟨u, c₂, hvisit, h⟩ := bind_eq_ok_iff.1 h
    obtain ⟨props, c₃, hprops, h⟩ := bind_eq_ok_iff.1 h
    obtain ⟨hgrows, hs₂, hw₂, hmember, -⟩ := whole_new hf hv hs hA hw hbuild hvisit
    have hstill := (Run.idle_onGraph _).of_ok hprops
    have hpropsOf : c₂.graph.propertiesOf member = .ok props := by
      have houtcome := outcome_of_ok hprops
      rwa [Run.outcome_onGraph] at houtcome
    refine ih (hstill.sound hs₂) (fun a ha => ?_) (hw₂.still hstill) ?_ h
    · rw [hstill.graph]
      exact (hA a ha).trans_le hgrows.size_le
    · have hentries : ∀ e ∈ props, c₂.Entry X e := hw₂.entry_of_properties hs₂ (.inl hmember) hpropsOf
      have hgathered : c₂.Gathered X (OrderedMap.insertAll collected props) := by
        refine Context.Gathered.insertAll ⟨hcollected.distinct, fun e he => ?_⟩ hentries
        exact (hcollected.entries e he).grows hgrows
      refine ⟨hgathered.distinct, fun e he => ?_⟩
      exact (hgathered.entries e he).grows hstill.grows

theorem sublist_of_selectEach {candidates kept : List NodeId}
    (h : selectEach candidates c = .ok kept c') : kept.Sublist candidates := by
  induction candidates generalizing c kept with
  | nil =>
    cases h
    exact List.Sublist.refl _
  | cons i rest ih =>
    obtain ⟨words, c₁, -, h⟩ := bind_eq_ok_iff.1 h
    obtain ⟨wanted, c₂, -, h⟩ := bind_eq_ok_iff.1 h
    obtain ⟨others, c₃, hothers, h⟩ := bind_eq_ok_iff.1 h
    cases h
    cases wanted with
    | true => exact (ih hothers).cons_cons i
    | false => exact (ih hothers).cons i

/-- What is kept is among the candidates. -/
theorem sublist_of_select {i : NodeId} {candidates : OrderedMap Key NodeId} {kept : List NodeId}
    (h : select i candidates c = .ok kept c') : kept.Sublist (values candidates) := by
  unfold select at h
  split at h
  · cases h
    exact List.nil_sublist _
  · obtain ⟨names, c₁, -, h⟩ := bind_eq_ok_iff.1 h
    obtain ⟨c₂, c₃, -, h⟩ := bind_eq_ok_iff.1 h
    obtain ⟨answer, c₄, -, h⟩ := bind_eq_ok_iff.1 h
    cases answer with
    | yes =>
      cases h
      exact List.Sublist.refl _
    | subset => exact sublist_of_selectEach h
    | no =>
      cases h
      exact List.nil_sublist _

/-- What a composition is before its visit has gathered anything. -/
theorem gathering_of_bud {kind : Composition} {parts : Option Json} (hbud : c.graph.Bud i)
    (hbody : (c.graph.node i).body = .composed kind parts) : c.Gathering i kind parts := by
  have hne : (c.graph.node i).body ≠ .object := by
    rw [hbody]
    simp
  have hchildren : (c.graph.node i).children = [] :=
    hbud.children_eq_nil (by rw [Node.below, hbody])
  refine ⟨hbody, ?_, hbud.attached, ?_, ?_⟩
  · rw [Visited, hbud.unvisited]
    exact Bool.false_ne_true
  · rw [hbud.bare hne, hchildren]
    rfl
  · rw [hbud.bare hne]
    exact List.nodup_nil

/-- The members of a composition are read before they are built and visited. -/
theorem collectFrom_of_collect {collected : OrderedMap Key NodeId}
    (h : collect v i c = .ok collected c') :
    ∃ members elements, (c.graph.node i).allOfMembers? = some members ∧
      members.elements = .ok elements ∧ collectFrom v i [] elements c = .ok collected c' := by
  obtain ⟨n, c₁, hnode, h⟩ := bind_eq_ok_iff.1 h
  cases hnode
  obtain ⟨members, c₂, hsome, h⟩ := bind_eq_ok_iff.1 h
  obtain ⟨hmembers, rfl⟩ := eq_some_of_lift_expect hsome
  obtain ⟨elements, c₃, hok, h⟩ := bind_eq_ok_iff.1 h
  obtain ⟨helements, rfl⟩ := eq_ok_of_lift hok
  exact ⟨members, elements, hmembers, helements, h⟩

/-- A composition gathers the properties of its members, decides which to keep, takes those over and
stores itself. -/
theorem steps_of_visitAllOf (h : visitAllOf v i c = .ok () c') :
    ∃ collected kept c₁ c₂ c₃, collect v i c = .ok collected c₁ ∧
      (kept = values collected ∧ c₁ = c₂ ∨ select i collected c₁ = .ok kept c₂) ∧
      kept.forM (Run.put i) c₂ = .ok () c₃ ∧ storeNamed i c₃ = .ok () c' := by
  obtain ⟨collected, c₁, hcollect, h⟩ := bind_eq_ok_iff.1 h
  obtain ⟨c₂, c₃, hget, h⟩ := bind_eq_ok_iff.1 h
  cases hget
  dsimp only at h
  split at h
  · obtain ⟨kept, c₂, hkept, h⟩ := bind_eq_ok_iff.1 h
    cases hkept
    obtain ⟨u, c₃, hput, hstore⟩ := bind_eq_ok_iff.1 h
    exact ⟨collected, _, _, _, c₃, hcollect, .inl ⟨rfl, rfl⟩, hput, hstore⟩
  · obtain ⟨kept, c₂, hkept, h⟩ := bind_eq_ok_iff.1 h
    obtain ⟨u, c₃, hput, hstore⟩ := bind_eq_ok_iff.1 h
    exact ⟨collected, kept, _, c₂, c₃, hcollect, .inr hkept, hput, hstore⟩

/-- What a composition collects is ready, and the composition itself is as it was. -/
theorem whole_collect (hf : Finishes A d q v) (hv : Visits d q v) (hs : c.Sound d q)
    (hA : ∀ a, A a → a.index < c.graph.size) (hw : Whole A (fun j => X j ∨ j = i) c)
    (hbud : c.graph.Bud i) {parts : Option Json}
    (hbody : (c.graph.node i).body = .composed .allOf parts) {collected : OrderedMap Key NodeId}
    (h : collect v i c = .ok collected c') :
    c'.Sound d q ∧ Whole A (fun j => X j ∨ j = i) c' ∧
      c'.Gathered (fun j => X j ∨ j = i) collected ∧ c'.Gathering i .allOf parts ∧
      (c'.graph.node i).props = [] := by
  obtain ⟨hgrows, hs', -⟩ := (works_collect hv hs i).of_ok h
  have hsame := (hgrows.spared i (hw.owed_lt i (.inr rfl))).1
  obtain ⟨members, elements, -, -, hfrom⟩ := collectFrom_of_collect h
  obtain ⟨hw', hcollected⟩ := whole_collectFrom hf hv hs hA hw i (gathered_nil _ _) hfrom
  refine ⟨hs', hw', hcollected, (gathering_of_bud hbud hbody).congr hsame, ?_⟩
  rw [hsame, hbud.bare (by simp [hbody])]

theorem complete_visitAllOf (hf : Finishes A d q v) (hv : Visits d q v) (hs : c.Sound d q)
    (hA : ∀ a, A a → a.index < c.graph.size) (hw : Whole A (fun j => X j ∨ j = i) c)
    (hbud : c.graph.Bud i) {parts : Option Json}
    (hbody : (c.graph.node i).body = .composed .allOf parts)
    (h : visitAllOf v i c = .ok () c') : Complete A X c' i := by
  obtain ⟨collected, kept, c₁, c₂, c₃, hcollect, hkept, hput, hstore⟩ := steps_of_visitAllOf h
  obtain ⟨hs₁, hw₁, hcollected, hi₁, hempty⟩ := whole_collect hf hv hs hA hw hbud hbody hcollect
  -- whatever is kept is among what was collected
  obtain ⟨hstill, hsub⟩ : c₁.Still c₂ ∧ kept.Sublist (values collected) := by
    rcases hkept with ⟨rfl, rfl⟩ | hselect
    · exact ⟨Still.refl _, List.Sublist.refl _⟩
    · exact ⟨(idle_select i collected).of_ok hselect, sublist_of_select hselect⟩
  have hprops : ∀ p ∈ kept, ∃ key, c₂.Entry (fun j => X j ∨ j = i) (key, p) := by
    intro p hp
    obtain ⟨e, he, rfl⟩ := List.mem_map.1 (hsub.subset hp)
    exact ⟨e.1, (hcollected.entries e he).grows hstill.grows⟩
  obtain ⟨hs₃, hw₃, hi₃⟩ := whole_putEach (hstill.sound hs₁) (hw₁.still hstill) (.inr rfl)
    (hi₁.still hstill) (hcollected.nodup_values.sublist hsub) hprops
    (fun p _ hmem => by rw [hstill.graph, hempty] at hmem; cases hmem) hput
  have hstored : c₃.Still c' :=
    ((works_storeNamed hs₃ (P := c₃.Old) (by rw [hi₃.body]; rfl)).of_ok hstore).2.2
  refine Complete.still ⟨hw₃, ?_, fun k hk => ?_⟩ hstored
  · refine ⟨?_, hi₃.attached, ?_, ?_, fun _ _ => hi₃.children, ?_, ?_, ?_, ?_⟩ <;>
      simp [hi₃.body, Body.link?]
  · have hfollowed : (c₃.graph.node i).followed =
        values (c₃.graph.node i).props ++ values (c₃.graph.node i).props := by
      rw [Node.followed, hi₃.children]
      simp [Node.items?, Node.type?, Node.slot?, Node.arguments, Node.target?, Body.link?, hi₃.body,
        hi₃.attached]
    rw [hfollowed, List.mem_append, or_self] at hk
    exact hw₃.gathered i (.inr rfl) k hk

/-! ## Choices -/

/-- A node whose visit is not over gets another child. -/
theorem whole_addChild (hs : c.Sound d q) (hw : Whole A X c) (hlt : i.index < c.graph.size)
    (hi : ¬c.Visited i) {child : Option NodeId}
    (h : Run.update i (fun n => n.addChild child) c = .ok () c') :
    c.Grows (· ≠ i) c' ∧ c'.Sound d q ∧ Whole A X c' ∧
      c'.graph.node i = (c.graph.node i).addChild child ∧ c'.graph.size = c.graph.size := by
  obtain ⟨hgrows, hs', hc'⟩ := (works_addChild hs hlt child).of_ok h
  have hself : c'.graph.node i = (c.graph.node i).addChild child := by
    rw [hc']
    exact Graph.node_update_self c.graph hlt _
  have hsize : c'.graph.size = c.graph.size := by
    rw [hc']
    exact Graph.size_update _ _ _
  refine ⟨hgrows, hs', hw.step hgrows ?_ (fun j _ e he => ?_) (fun j hj => ?_) fun ref => ?_, hself,
    hsize⟩
  · rintro j hj rfl
    exact hi hj
  · by_cases hj : j = i
    · rw [hj, hself, Node.props_addChild, ← hj] at he
      exact .inl he
    · rw [(hgrows.spared j hj).1] at he
      exact .inl he
  · by_cases hj' : j = i
    · rw [hj', Visited, hself, Node.visited_addChild, ← hj'] at hj
      exact hj
    · rwa [Visited, (hgrows.spared j hj').1] at hj
  · rw [hc']
    rfl

/-- A choice whose union is new and about to be visited. -/
structure Choosing (A X : NodeId → Prop) (d : Document) (q : Option NodeId) (c : Context)
    (i : NodeId) (declared : Json) (shapes : List Json) (u : NodeId) (c' : Context) : Prop where
  elements : declared.elements = .ok shapes
  index : u.index = c.graph.size
  body : (c'.graph.node u).body = .union shapes
  owns : c'.graph.Owns i u
  node_eq : c'.graph.node i = (c.graph.node i).addChild (some u)
  grows : c.Grows (fun j => c.Old j ∧ j ≠ i) c'
  sound : c'.Sound d q
  budding : c'.Budding u c'.graph.size
  whole : Whole A (fun j => (X j ∨ j = i) ∨ Tree c'.graph u j) c'
  loose : ∀ j, c.graph.size ≤ j.index → (c'.graph.node j).Loose
  unvisited : ∀ j, c'.Visited j → c.Visited j
  stored : ∀ ref, c'.stored? ref = c.stored? ref
  oracle : c'.oracle = c.oracle

/-- A choice makes a union of its shapes. -/
theorem choosing_of_fromUnion (hs : c.Sound d q) (hw : Whole A (fun j => X j ∨ j = i) c)
    (hbud : c.graph.Bud i) {declared : Json} {u : NodeId} {c₂ : Context}
    (hunion : Build.fromUnion (some i) declared c = .ok u c₁)
    (hchild : Run.update i (fun n => n.addChild u) c₁ = .ok () c₂) :
    ∃ shapes, Choosing A X d q c i declared shapes u c₂ := by
  have hlt : i.index < c.graph.size := hw.owed_lt i (.inr rfl)
  obtain ⟨hgrows₁, hs₁, shapes, helements, hplanted, hstill₁, hnode, hbudding₁⟩ :=
    (works_fromUnion hs (some i) declared).of_ok hunion
  have hindex := hplanted.index
  have hsame₁ : c₁.graph.node i = c.graph.node i := (hgrows₁.spared i hlt).1
  have hlt₁ : i.index < c₁.graph.size := hlt.trans_le hgrows₁.size_le
  have hiu : i.index < u.index := by rwa [hindex]
  have hnot : ¬c₁.Visited i := by
    rw [Visited, hsame₁, hbud.unvisited]
    exact Bool.false_ne_true
  obtain ⟨hgrows₂, hs₂, hw₂, hself, hsize⟩ := whole_addChild hs₁
    (hw.planted hgrows₁ hplanted hstill₁.stored?) hlt₁ hnot hchild
  cases hchild
  have hother : ∀ j, j ≠ i → (c₁.graph.update i fun n => n.addChild (some u)).node j =
      c₁.graph.node j := fun j hj => (hgrows₂.spared j hj).1
  refine ⟨shapes, helements, hindex, ?_, ?_, by rw [hself, hsame₁], ?_, hs₂, ?_, ?_, fun j hj => ?_,
    fun j hj => ?_, hstill₁.stored?, ?_⟩
  · show ((c₁.graph.update i _).node u).body = _
    rw [hother u (by rintro rfl; exact hiu.false), hnode]
  · refine Graph.Owns.congr (Graph.owns_of_name_eq_null ?_ ?_) (hother u (by rintro rfl; exact hiu.false)) <;>
      rw [hnode]
  · exact (hgrows₁.mono fun j hj => hj.1).trans (hgrows₂.mono fun j hj => hj.2)
  · rw [hsize]
    exact hgrows₂.budding hbudding₁ fun j hj _ => by rintro rfl; omega
  · exact hw₂.congr fun j => or_congr_right (tree_iff_of_kept fun m hm =>
      hgrows₂.kept m (hplanted.sprout.tree_lt_size hm)).symm
  · show ((c₁.graph.update i _).node j).Loose
    rw [hother j (by rintro rfl; exact absurd hlt (Nat.not_lt.2 hj))]
    exact hplanted.loose j hj
  · have hne : j ≠ i := by
      rintro rfl
      rw [Visited, hself, Node.visited_addChild] at hj
      exact hnot hj
    rw [Visited, (hgrows₂.spared j hne).1] at hj
    by_cases hold : j.index < c.graph.size
    · rwa [(hgrows₁.spared j hold).1] at hj
    · rw [(hplanted.loose j (Nat.not_lt.1 hold)).unvisited] at hj
      cases hj
  · have horacle : c₁.oracle = c.oracle := (Build.silent_fromUnion _ _).oracle_of_ok hunion
    exact horacle

/-- A choice makes a union of its shapes, visits it and stores itself. -/
theorem choosing_of_visitOneOf (hs : c.Sound d q) (hw : Whole A (fun j => X j ∨ j = i) c)
    (hbud : c.graph.Bud i) {parts : Option Json} (h : visitOneOf v i parts c = .ok () c') :
    ∃ declared shapes u c₁ c₂, parts = some declared ∧
      Choosing A X d q c i declared shapes u c₁ ∧ v u c₁ = .ok () c₂ ∧ storeNamed i c₂ = .ok () c' := by
  rw [visitOneOf, bind_eq_ok_iff] at h
  obtain ⟨declared, c₀, hdeclared, h⟩ := h
  obtain ⟨rfl, rfl⟩ := eq_some_of_lift_expect hdeclared
  obtain ⟨u, c₁, hunion, h⟩ := bind_eq_ok_iff.1 h
  obtain ⟨x, c₂, hchild, h⟩ := bind_eq_ok_iff.1 h
  obtain ⟨x', c₃, hvisit, hstore⟩ := bind_eq_ok_iff.1 h
  obtain ⟨shapes, hc⟩ := choosing_of_fromUnion hs hw hbud hunion hchild
  exact ⟨declared, shapes, u, c₂, c₃, rfl, hc, hvisit, hstore⟩

/-- A choice gets its union as its only child. -/
theorem complete_visitOneOf (hf : Finishes A d q v) (hv : Visits d q v) (hs : c.Sound d q)
    (hA : ∀ a, A a → a.index < c.graph.size) (hw : Whole A (fun j => X j ∨ j = i) c)
    (hbud : c.graph.Bud i) {parts : Option Json}
    (hbody : (c.graph.node i).body = .composed .oneOf parts)
    (h : visitOneOf v i parts c = .ok () c') : Complete A X c' i := by
  have hlt : i.index < c.graph.size := hw.owed_lt i (.inr rfl)
  have hi := gathering_of_bud hbud hbody
  have hprops : (c.graph.node i).props = [] := hbud.bare (by simp [hbody])
  obtain ⟨declared, shapes, u, c₁, c₂, rfl, hc, hvisit, hstore⟩ := choosing_of_visitOneOf hs hw hbud h
  have hindex := hc.index
  have hold : ∀ j, X j ∨ j = i → j.index < u.index := fun j hj => by
    rw [hindex]
    exact hw.owed_lt j hj
  obtain ⟨hw₂, hvisited⟩ := hf.new hc.sound hc.budding hold (fun a ha => by rw [hindex]; exact hA a ha)
    hc.whole hvisit
  obtain ⟨hgrows₂, hs₂, -⟩ := (hv hc.sound hc.budding).of_ok hvisit
  have hsame₂ : c₂.graph.node i = (c.graph.node i).addChild (some u) := by
    rw [(hgrows₂.spared i ⟨hlt.trans_le hc.grows.size_le, by omega⟩).1, hc.node_eq]
  have hbody₂ : (c₂.graph.node i).body = .composed .oneOf (some declared) := by
    rw [hsame₂, Node.body_addChild, hbody]
  have hchildren₂ : (c₂.graph.node i).children = [some u] := by
    rw [hsame₂, Node.children_addChild (by rw [hi.children, hprops]; rfl)]
  have hattached₂ : (c₂.graph.node i).attached = none := by
    rw [hsame₂, Node.attached_addChild, hi.attached]
  have hprops₂ : (c₂.graph.node i).props = [] := by rw [hsame₂, Node.props_addChild, hprops]
  have hunionBody : (c₂.graph.node u).body = .union shapes := by
    rw [(hgrows₂.kept u hc.budding.sprout.lt_size).body_eq (by rw [hc.body]; rfl), hc.body]
  have hstored : c₂.Still c' :=
    ((works_storeNamed hs₂ (P := c₂.Old) (by rw [hbody₂]; rfl)).of_ok hstore).2.2
  refine Complete.still ⟨hw₂, ?_, fun k hk => ?_⟩ hstored
  · refine ⟨?_, hattached₂, ?_, ?_, ?_, ?_, ?_, ?_, ?_⟩ <;> rw [hbody₂]
    · simp
    · rintro _ ⟨⟩
    · simp
    · simp
    · rintro _ ⟨⟩
      exact ⟨declared, shapes, u, rfl, hc.elements, hchildren₂, hold i (.inr rfl), hvisited.lt_size,
        hunionBody⟩
    · simp
    · rintro _ - w hw
      rw [hchildren₂] at hw
      obtain rfl : w = u := by simpa using hw
      exact hc.owns.kept (hgrows₂.kept w hc.owns.lt_size)
    · simp
  · have hfollowed : (c₂.graph.node i).followed = [u] := by
      simp [Node.followed, Node.items?, Node.type?, Node.slot?, Node.arguments, Node.target?,
        Body.link?, values, hbody₂, hattached₂, hchildren₂, hprops₂]
    rw [hfollowed, List.mem_singleton] at hk
    rw [hk]
    exact .inl hvisited

/-- The shapes of a union after the first are built and visited, and dropped. -/
theorem whole_visitShapes (hf : Finishes A d q v) (hv : Visits d q v) (hs : c.Sound d q)
    (hA : ∀ a, A a → a.index < c.graph.size) (hw : Whole A X c) {position : Nat}
    (hposition : position ≠ 0) {shapes : List Json}
    (h : visitShapes v i position shapes c = .ok () c') : c.Grows c.Old c' ∧ Whole A X c' := by
  induction shapes generalizing c position with
  | nil =>
    cases h
    exact ⟨(Still.refl _).grows, hw⟩
  | cons schema rest ih =>
    obtain ⟨member, c₁, hbuild, h⟩ := bind_eq_ok_iff.1 h
    obtain ⟨u, c₂, hvisit, h⟩ := bind_eq_ok_iff.1 h
    obtain ⟨hgrows₂, hs₂, hw₂, -⟩ := whole_new hf hv hs hA hw hbuild hvisit
    dsimp only at h
    rw [if_neg hposition] at h
    obtain ⟨u', c₃, htrace, h⟩ := bind_eq_ok_iff.1 h
    have hstill := (Run.idle_trace _ _).of_ok htrace
    have hsize := hgrows₂.size_le
    have hgrows₃ := hgrows₂.trans (hstill.grows (P := c.Old))
    obtain ⟨hgrows', hw'⟩ := ih (hstill.sound hs₂) (fun a ha => (hA a ha).trans_le hgrows₃.size_le)
      (hw₂.still hstill) (Nat.succ_ne_zero position) h
    exact ⟨hgrows₃.trans (hgrows'.mono fun j hj => Nat.lt_of_lt_of_le hj hgrows₃.size_le), hw'⟩

/-- A union gets the node of its first shape as its only child. -/
theorem complete_visitShapes (hf : Finishes A d q v) (hv : Visits d q v) (hs : c.Sound d q)
    (hA : ∀ a, A a → a.index < c.graph.size) (hw : Whole A (fun j => X j ∨ j = i) c)
    (hbud : c.graph.Bud i) {first : Json} {rest : List Json}
    (hbody : (c.graph.node i).body = .union (first :: rest))
    (h : visitShapes v i 0 (first :: rest) c = .ok () c') : Complete A X c' i := by
  have hlt : i.index < c.graph.size := hw.owed_lt i (.inr rfl)
  have hprops : (c.graph.node i).props = [] := hbud.bare (by simp [hbody])
  have hchildren : (c.graph.node i).children = [] :=
    hbud.children_eq_nil (by rw [Node.below, hbody])
  obtain ⟨member, c₁, hbuild, h⟩ := bind_eq_ok_iff.1 h
  obtain ⟨u, c₂, hvisit, h⟩ := bind_eq_ok_iff.1 h
  obtain ⟨hgrows₂, hs₂, hw₂, hmember, hindex, htold, howns, s, hdeclares, hdepicts⟩ :=
    whole_new hf hv hs hA hw hbuild hvisit
  dsimp only at h
  rw [if_pos rfl] at h
  obtain ⟨u', c₃, hchild, h⟩ := bind_eq_ok_iff.1 h
  have hsame₂ := (hgrows₂.spared i hlt).1
  have hlt₂ : i.index < c₂.graph.size := hlt.trans_le hgrows₂.size_le
  have hunvisited : ¬c₂.Visited i := by
    rw [Visited, hsame₂, hbud.unvisited]
    exact Bool.false_ne_true
  obtain ⟨hgrows₃, hs₃, hw₃, hself, hsize⟩ := whole_addChild hs₂ hw₂ hlt₂ hunvisited hchild
  have hA₃ : ∀ a, A a → a.index < c₃.graph.size := fun a ha => by
    have := hA a ha
    have := hgrows₂.size_le
    omega
  obtain ⟨hgrows', hw'⟩ := whole_visitShapes hf hv hs₃ hA₃ hw₃ Nat.one_ne_zero h
  have hlt₃ : c₃.Old i := by rwa [Context.Old, hsize]
  have hsame : c'.graph.node i = (c.graph.node i).addChild (some member) := by
    rw [(hgrows'.spared i hlt₃).1, hself, hsame₂]
  have hbody' : (c'.graph.node i).body = .union (first :: rest) := by
    rw [hsame, Node.body_addChild, hbody]
  have hchildren' : (c'.graph.node i).children = [some member] := by
    rw [hsame, Node.children_addChild hchildren]
  have hattached' : (c'.graph.node i).attached = none := by
    rw [hsame, Node.attached_addChild, hbud.attached]
  have hprops' : (c'.graph.node i).props = [] := by rw [hsame, Node.props_addChild, hprops]
  have hne : member ≠ i := by
    rintro rfl
    omega
  have hvisited : c'.Visited member := by
    have hmember₃ : c₃.Visited member := hmember.grows hgrows₃ hne
    exact hmember₃.grows hgrows' hmember₃.lt_size
  refine ⟨hw', ?_, fun k hk => ?_⟩
  · refine ⟨?_, hattached', ?_, ?_, ?_, ?_, ?_, ?_, ?_⟩ <;> rw [hbody']
    · simp
    · rintro _ ⟨⟩
    · simp
    · simp
    · simp
    · rintro _ ⟨⟩
      exact ⟨first, rest, member, rfl, hchildren', by omega,
        hgrows'.told.subset (hgrows₃.told.subset htold)⟩
    · simp
    · rintro _ _ ⟨⟩ w hw
      rw [hchildren'] at hw
      obtain rfl : w = member := by simpa using hw
      have hkept : ∀ j, j.index < c₂.graph.size → (c₂.graph.node j).Kept (c'.graph.node j) := fun j hj =>
        (hgrows₃.kept j hj).trans (hgrows'.kept j (hj.trans_le hgrows₃.size_le))
      have hown := howns i rfl
      exact ⟨hown.kept (hkept w hown.lt_size), s, hdeclares, (hdepicts.kept hkept).shows⟩
  · have hfollowed : (c'.graph.node i).followed = [member] := by
      simp [Node.followed, Node.items?, Node.type?, Node.slot?, Node.arguments, Node.target?,
        Body.link?, values, hbody', hattached', hchildren', hprops']
    rw [hfollowed, List.mem_singleton] at hk
    rw [hk]
    exact .inl hvisited

/-! ## One visit -/

/-- Sprouts apart from one another, whose visits are owed. -/
structure Fanned (A X : NodeId → Prop) (d : Document) (q : Option NodeId) (c : Context)
    (ends : NodeId → Nat) (ks : List NodeId) : Prop where
  sound : c.Sound d q
  budding : ∀ k ∈ ks, c.Budding k (ends k)
  apart : ks.Pairwise fun j k => ends j ≤ k.index ∨ ends k ≤ j.index
  owed : ∀ j, X j → OutsideAll c ends ks j
  spared : ∀ a, A a → a.index < c.graph.size ∧ ∀ k ∈ ks, ¬Tree c.graph k a
  whole : Whole A (fun j => X j ∨ ∃ k ∈ ks, Tree c.graph k j) c

section

variable {ends : NodeId → Nat} {k : NodeId} {ks : List NodeId}

theorem Fanned.outside (h : Fanned A X d q c ends (k :: ks)) {m j : NodeId} (hm : m ∈ ks)
    (hmj : m.index ≤ j.index) (hj : j.index < ends m) : c.Outside k (ends k) j := by
  have := (h.budding m (List.mem_cons_of_mem _ hm)).sprout.below_size
  have := (List.pairwise_cons.1 h.apart).1 m hm
  exact ⟨by omega, by omega⟩

/-- The trees of the others are still owed while the first is visited. -/
theorem Fanned.owed_first (h : Fanned A X d q c ends (k :: ks)) {j : NodeId}
    (hj : X j ∨ ∃ m ∈ ks, Tree c.graph m j) : c.Outside k (ends k) j := by
  rcases hj with hj | ⟨m, hm, hj⟩
  · exact ⟨(h.owed j hj).1, (h.owed j hj).2 k List.mem_cons_self⟩
  · have hbounds := (h.budding m (List.mem_cons_of_mem _ hm)).sprout.tree_bounds hj
    exact h.outside hm hbounds.1 hbounds.2

theorem Fanned.whole_first (h : Fanned A X d q c ends (k :: ks)) :
    Whole A (fun j => (X j ∨ ∃ m ∈ ks, Tree c.graph m j) ∨ Tree c.graph k j) c := by
  refine h.whole.congr fun j => ?_
  rw [or_assoc]
  refine or_congr_right ?_
  simp only [List.mem_cons, exists_eq_or_imp]
  exact or_comm

theorem Fanned.tree_iff (h : Fanned A X d q c ends ks) (hgrows : c.Grows P c') {m : NodeId}
    (hm : m ∈ ks) (j : NodeId) : Tree c'.graph m j ↔ Tree c.graph m j :=
  tree_iff_of_kept fun l hl => hgrows.kept l ((h.budding m hm).sprout.tree_lt_size hl)

/-- When the first was visited, the others are left. -/
theorem Fanned.next (hf : Finishes A d q v) (hv : Visits d q v)
    (h : Fanned A X d q c ends (k :: ks)) (hvisit : v k c = .ok () c') :
    Fanned A X d q c' ends ks ∧ c'.Visited k := by
  have hfirst := h.budding k List.mem_cons_self
  obtain ⟨hw', hvisited⟩ := hf h.sound hfirst (fun _ => h.owed_first)
    (fun a ha => ⟨(h.spared a ha).1, (h.spared a ha).2 k List.mem_cons_self⟩) h.whole_first hvisit
  obtain ⟨hgrows, hs', -⟩ := (hv h.sound hfirst).of_ok hvisit
  have htree : ∀ m ∈ ks, ∀ j, Tree c'.graph m j ↔ Tree c.graph m j := fun m hm j =>
    h.tree_iff hgrows (List.mem_cons_of_mem _ hm) j
  refine ⟨⟨hs', fun m hm => ?_, (List.pairwise_cons.1 h.apart).2, fun j hj => ?_, fun a ha => ?_, ?_⟩,
    hvisited⟩
  · exact hgrows.budding (h.budding m (List.mem_cons_of_mem _ hm)) fun j => h.outside hm
  · exact ⟨(h.owed j hj).1.trans_le hgrows.size_le, fun m hm =>
      (h.owed j hj).2 m (List.mem_cons_of_mem _ hm)⟩
  · exact ⟨(h.spared a ha).1.trans_le hgrows.size_le, fun m hm ht =>
      (h.spared a ha).2 m (List.mem_cons_of_mem _ hm) ((htree m hm a).1 ht)⟩
  · exact hw'.congr fun j => or_congr_right (exists_congr fun m =>
      and_congr_right fun hm => (htree m hm j).symm)

end

/-- Sprouts apart from one another are visited one by one. -/
theorem whole_visitEach (hf : Finishes A d q v) (hv : Visits d q v) {ends : NodeId → Nat}
    {ks : List (Option NodeId)} (hi : Fanned A X d q c ends (ks.filterMap id))
    (h : visitEach v ks c = .ok () c') :
    Whole A X c' ∧ ∀ k ∈ ks, ∃ j, k = some j ∧ c'.Visited j := by
  induction ks generalizing c with
  | nil =>
    cases h
    refine ⟨hi.whole.congr fun j => ?_, (by simp)⟩
    simp
  | cons k rest ih =>
    cases k with
    | none => cases h
    | some k =>
      obtain ⟨u, c₁, hvisit, h⟩ :=
        bind_eq_ok_iff.1 (show (v k >>= fun _ => visitEach v rest) c = .ok () c' from h)
      obtain ⟨hi₁, hvisited⟩ := Fanned.next hf hv hi hvisit
      obtain ⟨hw', hrestVisited⟩ := ih hi₁ h
      refine ⟨hw', List.forall_mem_cons.2 ⟨⟨k, rfl, ?_⟩, hrestVisited⟩⟩
      obtain ⟨hgrows', -, -⟩ :=
        (works_visitEach hv hi₁.sound ends rest hi₁.budding hi₁.apart).of_ok h
      exact hvisited.grows hgrows' ⟨hvisited.lt_size, fun m hm hin =>
        (hi₁.budding m hm).fresh k hin.1 hin.2 (hi₁.whole.entered k hvisited)⟩

/-- The visits of the nodes below an opened one are owed. -/
theorem fanned_of_begun (hi : Begun A X d q c i top) :
    ∃ ends, Fanned A (fun j => X j ∨ j = i) d q c ends (c.graph.node i).below := by
  obtain ⟨hs, ho, hX, hA, hw⟩ := hi
  obtain ⟨ends, inside, below_size, -, order, apart, sprouts⟩ := ho.sprout
  refine ⟨ends, hs, fun k hk => ?_, apart, ?_, fun a ha => ?_, ?_⟩
  · obtain ⟨hik, htop⟩ := order k hk
    exact ⟨sprouts k hk, fun j hkj hj => ho.fresh j (by omega) (by omega)⟩
  · rintro j (hj | rfl)
    · refine ⟨(hX j hj).1, fun k hk hin => ?_⟩
      obtain ⟨hik, htop⟩ := order k hk
      have := (hX j hj).2
      omega
    · refine ⟨inside.trans_le below_size, fun k hk hin => ?_⟩
      have := (order k hk).1
      omega
  · exact ⟨(hA a ha).1, fun k hk ht => (hA a ha).2 (ht.head hk)⟩
  · exact hw.congr fun j => (or_congr_right tree_iff).trans or_assoc.symm

/-- The nodes below an opened one are visited, and it stays as it is. -/
theorem whole_visitBelow (hf : Finishes A d q v) (hv : Visits d q v)
    (hi : Begun A X d q c i top) {ks : List (Option NodeId)}
    (hks : ks.filterMap id = (c.graph.node i).below) (h : visitEach v ks c = .ok () c') :
    c'.graph.node i = c.graph.node i ∧ Whole A (fun j => X j ∨ j = i) c' ∧
      ∀ k ∈ ks, ∃ j, k = some j ∧ c'.Visited j := by
  obtain ⟨ends, hfanned⟩ := fanned_of_begun hi
  rw [← hks] at hfanned
  obtain ⟨hw', hvisited⟩ := whole_visitEach hf hv hfanned h
  obtain ⟨hgrows, -, -⟩ :=
    (works_visitEach hv hfanned.sound ends ks hfanned.budding hfanned.apart).of_ok h
  exact ⟨(hgrows.spared i (hfanned.owed i (.inr rfl))).1, hw', hvisited⟩

/-- A reference is followed, and its target becomes the only child. -/
theorem complete_follow (hf : Finishes A d q v) (hv : Visits d q v) (hs : c.Sound d q)
    (hA : ∀ a, A a → a.index < c.graph.size) (hw : Whole A (fun j => X j ∨ j = i) c)
    (hbud : c.graph.Bud i) (hbelow : (c.graph.node i).below = [])
    (hobject : (c.graph.node i).body ≠ .object) {ref : Json} (body : Link → Body)
    (hbody : (∀ link, body link = .ref link) ∨
      ∃ slot arguments, slot.type = none ∧ ∀ link, body link = .property slot arguments (some link))
    (hunlinked : ∀ target, (body ⟨ref, target⟩).unlinked = (c.graph.node i).body.unlinked)
    (h : (do
      let target ← resolve d v (some i) ref
      Run.update i fun n => { n with body := body ⟨ref, some target⟩ }.addChild target : Run Unit) c =
        .ok () c') : Complete A X c' i := by
  have hlink : ∀ link, (body link).link? = some link := by
    intro link
    rcases hbody with hbody | ⟨slot, arguments, -, hbody⟩ <;> rw [hbody] <;> rfl
  have hlt : i.index < c.graph.size := hw.owed_lt i (.inr rfl)
  obtain ⟨target, c₁, hresolve, h⟩ := bind_eq_ok_iff.1 h
  obtain ⟨hgrows₁, hs₁, hw₁, hstored⟩ := whole_resolve hf hv hs hA hw hresolve
  have hsame := (hgrows₁.spared i hlt).1
  have hlt₁ := hlt.trans_le hgrows₁.size_le
  obtain ⟨hgrows, -, hc'⟩ := (works_link hs₁ hlt₁ hlink
    (fun target => by rw [hsame]; exact hunlinked target) hstored).of_ok h
  have hself : c'.graph.node i =
      { c.graph.node i with body := body ⟨ref, some target⟩ }.addChild (some target) := by
    rw [hc', ← hsame]
    exact Graph.node_update_self c₁.graph hlt₁ _
  have hbody' : (c'.graph.node i).body = body ⟨ref, some target⟩ := by
    rw [hself, Node.body_addChild]
  have hchildren' : (c'.graph.node i).children = [some target] := by
    have hnil : ({ c.graph.node i with body := body ⟨ref, some target⟩ } : Node).children = [] :=
      hbud.children_eq_nil hbelow
    rw [hself, Node.children_addChild hnil]
  have hattached' : (c'.graph.node i).attached = none := by
    rw [hself, Node.attached_addChild]
    exact hbud.attached
  have hprops' : (c'.graph.node i).props = [] := by
    rw [hself, Node.props_addChild]
    exact hbud.bare hobject
  have hstored' : ∀ ref, c'.stored? ref = c₁.stored? ref := fun ref => by
    rw [hc']
    rfl
  have hw' : Whole A (fun j => X j ∨ j = i) c' := by
    refine hw₁.step hgrows ?_ (fun j _ e he => ?_) (fun j hj => ?_) hstored'
    · rintro j hj rfl
      rw [Visited, hsame, hbud.unvisited] at hj
      cases hj
    · by_cases hj : j = i
      · rw [hj, hprops'] at he
        cases he
      · rw [(hgrows.spared j hj).1] at he
        exact .inl he
    · by_cases hj' : j = i
      · rw [hj', Visited, hself, Node.visited_addChild] at hj
        rw [hbud.unvisited] at hj
        cases hj
      · rwa [Visited, (hgrows.spared j hj').1] at hj
  have htarget : c'.stored? ref = some target := (hstored' ref).trans hstored
  refine ⟨hw', ?_, fun k hk => ?_⟩
  · refine ⟨?_, hattached', ?_, ?_, ?_, ?_, ?_, ?_, ?_⟩ <;> rw [hbody']
    · rcases hbody with hbody | ⟨slot, arguments, -, hbody⟩ <;> rw [hbody] <;> simp
    · intro link hl
      rw [hlink] at hl
      cases hl
      exact ⟨target, rfl, htarget⟩
    all_goals rcases hbody with hbody | ⟨slot, arguments, -, hbody⟩ <;> rw [hbody] <;> simp
  · have hfollowed : (c'.graph.node i).followed = [target, target] := by
      rcases hbody with hbody | ⟨slot, arguments, htype, hbody⟩ <;>
        simp [Node.followed, Node.items?, Node.type?, Node.slot?, Node.target?,
          Body.link?, values, hbody', hbody, hattached', hchildren', hprops']
      exact htype
    rw [hfollowed] at hk
    have hk' : k = target := by simpa using hk
    rw [hk']
    exact hw'.stored ref target htarget

/-- A node is complete once the nodes below it are visited, unless it gathers others. -/
theorem complete_visitBelow (hf : Finishes A d q v) (hv : Visits d q v)
    (hi : Begun A X d q c i top) {ks : List (Option NodeId)}
    (hks : ks.filterMap id = (c.graph.node i).below) (hbare : (c.graph.node i).body ≠ .bare)
    (hlink : (c.graph.node i).body.link? = none)
    (hcomposed : (c.graph.node i).body.isComposed = false)
    (hunion : ∀ shapes, (c.graph.node i).body ≠ .union shapes)
    (hitems : ∀ items, (c.graph.node i).body = .array items → items ∈ ks)
    (h : visitEach v ks c = .ok () c') : Complete A X c' i := by
  obtain ⟨hsame, hw', hvisited⟩ := whole_visitBelow hf hv hi hks h
  have hbud := hi.opened.sprout.bud
  refine ⟨hw', ?_, fun k hk => ?_⟩
  · refine ⟨?_, ?_, ?_, ?_, ?_, ?_, ?_, ?_, ?_⟩ <;> rw [hsame]
    · exact hbare
    · exact hbud.attached
    · intro link hl
      rw [hlink] at hl
      cases hl
    · intro items hbody
      obtain ⟨j, rfl, -⟩ := hvisited items (hitems items hbody)
      obtain ⟨ends, -, -, -, order, -, -⟩ := hi.opened.sprout
      refine ⟨j, rfl, (order j ?_).1⟩
      rw [Node.below, hbody]
      exact List.mem_singleton_self j
    · intro parts hbody
      rw [hbody] at hcomposed
      cases hcomposed
    · intro parts hbody
      rw [hbody] at hcomposed
      cases hcomposed
    · exact fun shapes hbody => absurd hbody (hunion shapes)
    · intro parts hbody
      rw [hbody] at hcomposed
      cases hcomposed
    · exact fun first rest hbody => absurd hbody (hunion (first :: rest))
  · rw [hsame] at hk
    have hbelow := hbud.mem_below_of_followed hlink hk
    rw [← hks] at hbelow
    obtain ⟨k', hk', he⟩ := List.mem_filterMap.1 hbelow
    obtain ⟨j, rfl, hj⟩ := hvisited k' hk'
    cases he
    exact .inl hj

/-- A visit of a composition is one by its kind, apart from what is traced and logged. -/
theorem steps_of_visitComposed {n : Node} {kind : Composition} {parts : Option Json}
    (h : visitComposed v i n kind parts c = .ok () c') :
    ∃ c₁ c₂, (c.Still c₁ ∧ c₁.oracle = c.oracle) ∧
      (kind = .allOf ∧ visitAllOf v i c₁ = .ok () c₂ ∨
        kind = .oneOf ∧ visitOneOf v i parts c₁ = .ok () c₂) ∧
      c₂.Still c' ∧ c'.oracle = c₂.oracle := by
  have htrace : ∀ {tag text : String} {c c' : Context}, Run.trace tag text c = .ok () c' →
      c.Still c' ∧ c'.oracle = c.oracle := fun h =>
    ⟨(Run.idle_trace _ _).of_ok h, (Run.silent_trace _ _).oracle_of_ok h⟩
  have haround : ∀ m : Run Unit,
      (do
        Run.trace "-> [composed]" ("in: " ++ n.nameOr "[object]")
        let c ← get
        unless c.inComposition i do
          Run.log .info .visit ("In composed schema: " ++ n.nameOr (c.graph.inlineOwner i))
        m
        Run.trace "<- [composed]" ("out: " ++ n.nameOr "[object]") : Run Unit) c = .ok () c' →
      ∃ c₁ c₂, (c.Still c₁ ∧ c₁.oracle = c.oracle) ∧ m c₁ = .ok () c₂ ∧
        c₂.Still c' ∧ c'.oracle = c₂.oracle := by
    intro m h
    obtain ⟨u, c₁, hin, h⟩ := bind_eq_ok_iff.1 h
    obtain ⟨hstill, horacle⟩ := htrace hin
    obtain ⟨c₂, c₃, hget, h⟩ := bind_eq_ok_iff.1 h
    cases hget
    dsimp only at h
    split at h
    · obtain ⟨u', c₄, hrun, hout⟩ := bind_eq_ok_iff.1 h
      exact ⟨_, c₄, ⟨hstill, horacle⟩, hrun, htrace hout⟩
    · obtain ⟨u', c₃, hlog, h⟩ := bind_eq_ok_iff.1 h
      obtain ⟨u'', c₄, hrun, hout⟩ := bind_eq_ok_iff.1 h
      refine ⟨c₃, c₄, ⟨hstill.trans ((Run.idle_log _ _ _).of_ok hlog), ?_⟩, hrun, htrace hout⟩
      rw [(Run.silent_log _ _ _).oracle_of_ok hlog, horacle]
  cases kind with
  | allOf =>
    obtain ⟨c₁, c₂, hin, hrun, hout⟩ := haround (visitAllOf v i) h
    exact ⟨c₁, c₂, hin, .inl ⟨rfl, hrun⟩, hout⟩
  | oneOf =>
    obtain ⟨c₁, c₂, hin, hrun, hout⟩ := haround (visitOneOf v i parts) h
    exact ⟨c₁, c₂, hin, .inr ⟨rfl, hrun⟩, hout⟩

theorem complete_visitComposed (hf : Finishes A d q v) (hv : Visits d q v) (hs : c.Sound d q)
    (hA : ∀ a, A a → a.index < c.graph.size) (hw : Whole A (fun j => X j ∨ j = i) c)
    (hbud : c.graph.Bud i) {kind : Composition} {parts : Option Json}
    (hbody : (c.graph.node i).body = .composed kind parts) {n : Node}
    (h : visitComposed v i n kind parts c = .ok () c') : Complete A X c' i := by
  obtain ⟨c₁, c₂, ⟨hin, -⟩, hrun, hout, -⟩ := steps_of_visitComposed h
  refine Complete.still ?_ hout
  rw [← hin.graph] at hA hbud hbody
  rcases hrun with ⟨rfl, hrun⟩ | ⟨rfl, hrun⟩
  · exact complete_visitAllOf hf hv (hin.sound hs) hA (hw.still hin) hbud hbody hrun
  · exact complete_visitOneOf hf hv (hin.sound hs) hA (hw.still hin) hbud hbody hrun

/-- What a visit does inside its node completes it. -/
theorem complete_body (hf : Finishes A d q v) (hv : Visits d q v) (hi : Begun A X d q c i top)
    (h : body d v i (c.graph.node i) c = .ok () c') : Complete A X c' i := by
  have hbud := hi.opened.sprout.bud
  have hA : ∀ a, A a → a.index < c.graph.size := fun a ha => (hi.spared a ha).1
  -- nothing is owed but the node itself when nothing is below it
  have hleaf : (c.graph.node i).below = [] → Whole A (fun j => X j ∨ j = i) c := by
    intro hbelow
    refine hi.whole.congr fun j => or_congr_right ?_
    rw [tree_iff, hbelow]
    simp
  cases hbody : (c.graph.node i).body with
  | bare =>
    simp only [body, hbody] at h
    cases h
  | scalar type =>
    simp only [body, hbody] at h
    have hks : ([] : List (Option NodeId)).filterMap id = (c.graph.node i).below := by
      rw [Node.below, hbody]
      rfl
    refine complete_visitBelow hf hv hi hks ?_ ?_ ?_ ?_ ?_ h <;>
      simp [hbody, Body.link?, Body.isComposed]
  | object =>
    simp only [body, hbody] at h
    obtain ⟨u, c₁, hin, h⟩ := bind_eq_ok_iff.1 h
    obtain ⟨u', c₂, hvisit, hout⟩ := bind_eq_ok_iff.1 h
    have hstill := (Run.idle_trace _ _).of_ok hin
    rw [← visitEach_map_some, ← hstill.graph] at hvisit
    rw [← hstill.graph] at hbody
    refine Complete.still ?_ ((Run.idle_trace _ _).of_ok hout)
    refine complete_visitBelow hf hv (hi.still hstill) ?_ ?_ ?_ ?_ ?_ ?_ hvisit <;>
      simp [Node.below, hbody, Body.link?, Body.isComposed]
  | array items =>
    simp only [body, hbody] at h
    rw [← visitEach_singleton] at h
    have hks : [items].filterMap id = (c.graph.node i).below := by
      rw [Node.below, hbody]
      exact filterMap_id_singleton items
    refine complete_visitBelow hf hv hi hks ?_ ?_ ?_ ?_ ?_ h <;>
      simp [hbody, Body.link?, Body.isComposed]
  | ref link =>
    simp only [body, hbody] at h
    refine complete_follow hf hv hi.sound hA (hleaf (by rw [Node.below, hbody])) hbud
      (by rw [Node.below, hbody]) (by simp [hbody]) _ (.inl fun _ => rfl) (fun _ => ?_) h
    rw [hbody]
    rfl
  | property slot arguments link =>
    cases link with
    | some link =>
      simp only [body, hbody] at h
      have htype := (hi.whole.plain i (.inr (.inr (Tree.refl _ _))) slot arguments link hbody).1
      refine complete_follow hf hv hi.sound hA (hleaf (by rw [Node.below, hbody])) hbud
        (by rw [Node.below, hbody]) (by simp [hbody])
        (fun link => .property slot arguments (some link))
        (.inr ⟨slot, arguments, htype, fun _ => rfl⟩) (fun _ => ?_) h
      rw [hbody]
      rfl
    | none =>
      simp only [body, hbody] at h
      rw [← visitEach_append] at h
      have hks : (arguments ++ [slot.type]).filterMap id = (c.graph.node i).below := by
        rw [Node.below, hbody, List.filterMap_append, filterMap_id_singleton]
      refine complete_visitBelow hf hv hi hks ?_ ?_ ?_ ?_ ?_ h <;>
        simp [hbody, Body.link?, Body.isComposed]
  | parameter slot =>
    simp only [body, hbody] at h
    rw [← visitEach_singleton] at h
    have hks : [slot.type].filterMap id = (c.graph.node i).below := by
      rw [Node.below, hbody]
      exact filterMap_id_singleton slot.type
    refine complete_visitBelow hf hv hi hks ?_ ?_ ?_ ?_ ?_ h <;>
      simp [hbody, Body.link?, Body.isComposed]
  | composed kind members =>
    simp only [body, hbody] at h
    exact complete_visitComposed hf hv hi.sound hA (hleaf (by rw [Node.below, hbody])) hbud hbody h
  | union shapes =>
    simp only [body, hbody] at h
    cases shapes with
    | nil => cases h
    | cons first rest =>
      exact complete_visitShapes hf hv hi.sound hA (hleaf (by rw [Node.below, hbody])) hbud hbody h

theorem eq_ok_of_within {α : Type} {m : Run α} {a : α} (h : Run.within i m c = .ok a c') :
    ∃ c₂, m (c.enter (some i)) = .ok a c₂ ∧ c₂.leave = c' := by
  rw [Run.within] at h
  cases hm : m (c.enter (some i)) with
  | ok b c₂ =>
    rw [hm] at h
    cases h
    exact ⟨c₂, rfl, rfl⟩
  | error fault c₂ =>
    rw [hm] at h
    cases h

/-- One visit finishes what is owed when those of the nodes below do. -/
theorem finishes_step (hf : Finishes A d q v) (hv : Visits d q v) : Finishes A d q (step d v) := by
  intro X c c' i top hs hb hX hA hw h
  have hlt := hb.sprout.lt_size
  obtain ⟨n, c₁, hn, h⟩ := bind_eq_ok_iff.1 h
  cases hn
  simp only [hb.sprout.bud.unvisited] at h
  obtain ⟨c₂, hinner, rfl⟩ := eq_ok_of_within h
  obtain ⟨u, c₃, hrun, hmark⟩ := bind_eq_ok_iff.1 hinner
  have hs₁ := sound_enter hs hlt
  have hfresh := hb.fresh i le_rfl hb.sprout.inside
  have hwhole : Whole A (fun j => X j ∨ Tree c.graph i j) (c.enter (some i)) := by
    refine hw.step (grows_enter (P := (· ≠ i)) hfresh fun h => h rfl) ?_ (fun _ _ _ => .inl)
      (fun _ => id) fun _ => rfl
    rintro j hj rfl
    exact hfresh (hw.entered j hj)
  have hcomplete := complete_body hf hv ⟨hs₁, hb.opened, hX, hA, hwhole⟩ hrun
  obtain ⟨hgrows, -, -⟩ := (works_body hv hs₁ hb.opened).of_ok hrun
  have hentered : i ∈ c₃.entered := by
    refine hgrows.entered ?_
    rw [entered_enter]
    exact List.mem_append_right _ (List.mem_singleton_self i)
  obtain ⟨hw', hvisited⟩ := hcomplete.whole.finish hentered hcomplete.ripe hcomplete.led
    fun ha => (hA i ha).2 (Tree.refl _ _)
  cases hmark
  have hstill := still_leave { c₃ with graph := c₃.graph.update i fun n => { n with visited := true } }
  exact ⟨hw'.still hstill, hvisited.grows (hstill.grows (P := fun _ => True)) trivial⟩

/-- Visits of any depth finish what is owed. -/
theorem finishes_visitWithin (depth : Nat) : Finishes A d q (visitWithin d depth) := by
  induction depth with
  | zero =>
    intro X c c' i top _ _ _ _ _ h
    cases h
  | succ depth ih => exact finishes_step ih (visits_visitWithin depth)

end Visit

end

end ApiGraph
