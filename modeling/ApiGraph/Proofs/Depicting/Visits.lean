import ApiGraph.Proofs.Depicting.Faithful
import ApiGraph.Proofs.Finishing.Visits

/-!
# Visits draw what the document says

In a layered document a visit that succeeds leaves the graph faithful to the document: whenever a
composition gathers the properties of a reference, what the reference leads to was visited.

* `Graph.Portrays` — what a node that is about to be visited stands for;
* `Visit.Draws` — what is promised of the visits of nodes below;
* `sketched_resolve`, `drawn_body`, … — one lemma for each step of a visit;
* `Visit.draws_visitWithin` — visits of any depth keep the promise.
-/

namespace ApiGraph

open OrderedMap Context

/-- The nodes that a visit goes on to, of which some may be missing, apart from properties. -/
def Body.inside : Body → List (Option NodeId)
  | .array items => [items]
  | .property slot arguments none => arguments ++ [slot.type]
  | .parameter slot => [slot.type]
  | _ => []

/-- A body whose visit does nothing but visit the nodes below, none of which is missing. -/
structure Body.Plain (b : Body) : Prop where
  kind : b ≠ .bare
  link : b.link? = none
  composed : b.isComposed = false
  union : ∀ shapes, b ≠ .union shapes
  full : none ∉ b.inside

/-- The declarations that are read when a node is visited: its own, those of the nodes below, the one
that a reference stands for, or the choice that a union was made for. -/
inductive Graph.Portrays (g : Graph) (S : Schema → Prop) : NodeId → Prop
  | declaration {i : NodeId} {s : Schema} (depicts : g.Depicts i s) (read : S s) : g.Portrays S i
  | reference {i : NodeId} {slot : Slot} {arguments : List (Option NodeId)} {link : Link}
      (body : (g.node i).body = .property slot arguments (some link)) (read : S (.ref link.ref)) :
      g.Portrays S i
  | around {i : NodeId} (plain : (g.node i).body.Plain)
      (below : ∀ k ∈ (g.node i).below, g.Portrays S k) : g.Portrays S i
  | choice {i : NodeId} {declared : Json} {shapes : List Json}
      (elements_eq : declared.elements = .ok shapes) (body : (g.node i).body = .union shapes)
      (read : S (.composed .oneOf declared)) : g.Portrays S i

variable {A : NodeId → Prop} {d : Document} {q : Option NodeId} {X : NodeId → Prop}
  {S S' : Schema → Prop} {P : NodeId → Prop} {c c' c₁ : Context} {i : NodeId} {top : Nat} {s : Schema}

namespace Graph

variable {g g' : Graph}

theorem Portrays.lt_size (h : g.Portrays S i) : i.index < g.size := by
  cases h with
  | declaration hdepicts => exact hdepicts.lt_size
  | reference hbody => exact lt_size_of_body hbody (by simp)
  | around hplain => exact lt_size_of_body rfl hplain.kind
  | choice _ hbody => exact lt_size_of_body hbody (by simp)

theorem Portrays.kept (h : g.Portrays S i)
    (hkept : ∀ j, j.index < g.size → (g.node j).Kept (g'.node j)) : g'.Portrays S i := by
  have hlt := h.lt_size
  induction h with
  | declaration hdepicts hread => exact .declaration (hdepicts.kept hkept) hread
  | @reference i slot arguments link hbody hread =>
    obtain ⟨t, ⟨hbody', -⟩ | ⟨slot', arguments', hbody', hbody''⟩⟩ :=
      (hkept i hlt).similar.linked link (by rw [hbody]; rfl)
    · rw [hbody] at hbody'
      cases hbody'
    · exact .reference hbody'' hread
  | @around i hplain hbelow ih =>
    have hkepti := hkept i hlt
    refine .around (by rwa [hkepti.body_eq hplain.link]) fun k hk => ?_
    rw [hkepti.below] at hk
    exact ih k hk (hbelow k hk).lt_size
  | @choice i declared shapes helements hbody hread =>
    refine .choice helements ?_ hread
    rw [(hkept i hlt).body_eq (by rw [hbody]; rfl), hbody]

/-- A property stands for the declaration of its type. -/
theorem DepictsProperty.portrays {p : PropertyOf Schema} (h : g.DepictsProperty i p) (hread : S p.type) :
    g.Portrays S i := by
  obtain ⟨name, required, declaration, type⟩ := p
  by_cases href : ∃ target, type = .ref target
  · obtain ⟨target, rfl⟩ := href
    rw [depictsProperty_ref] at h
    obtain ⟨t, hbody⟩ := h
    exact .reference hbody hread
  · rw [depictsProperty_plain fun target he => href ⟨target, he⟩] at h
    obtain ⟨t, hbody, ht⟩ := h
    refine .around ?_ fun k hk => ?_
    · rw [hbody]
      exact ⟨(by simp), rfl, rfl, (by simp), by simp [Body.inside]⟩
    rw [Node.below, hbody] at hk
    cases List.mem_singleton.1 hk
    exact .declaration ht hread

end Graph

namespace Visit

variable {v : Visitor}

/-- What is promised of the visits of nodes below: they keep runs sound, finish what is owed, and leave
the graph faithful to the document. -/
structure Draws (A : NodeId → Prop) (d : Document) (q : Option NodeId) (v : Visitor) : Prop where
  visits : Visits d q v
  finishes : Finishes A d q v
  faithful : ∀ {X : NodeId → Prop} {S : Schema → Prop} {c c' : Context} {i : NodeId} {top : Nat},
    c.Sketched A d q (fun j => X j ∨ Tree c.graph i j) S → c.Budding i top →
      (∀ j, X j → c.Outside i top j) → (∀ a, A a → ¬Tree c.graph i a) → c.graph.Portrays S i →
        v i c = .ok () c' → c'.Faithful d

/-- A node is visited whose visit is owed. -/
theorem Draws.visit (hv : Draws A d q v) (h : c.Sketched A d q (fun j => X j ∨ Tree c.graph i j) S)
    (hb : c.Budding i top) (hX : ∀ j, X j → c.Outside i top j) (hA : ∀ a, A a → ¬Tree c.graph i a)
    (hi : c.graph.Portrays S i) (hvisit : v i c = .ok () c') :
    c.Grows (c.Outside i top) c' ∧ c'.Sketched A d q X S ∧ c'.Visited i := by
  obtain ⟨hgrows, hs', -⟩ := (hv.visits h.sound hb).of_ok hvisit
  obtain ⟨hw', hvisited⟩ := hv.finishes h.sound hb hX (fun a ha => ⟨h.spurned_lt a ha, hA a ha⟩) h.whole
    hvisit
  refine ⟨hgrows, ⟨hs', hw', fun a ha => (h.spurned_lt a ha).trans_le hgrows.size_le,
    hv.faithful h hb hX hA hi hvisit, ?_⟩, hvisited⟩
  exact (h.pending.mono fun j => .inl).grows (fun j hj => (hX j hj).1) hgrows

/-- What comes before a sprout is outside of it. -/
theorem outside_of_lt (hb : c.Budding i top) {j : NodeId} (hj : j.index < i.index) :
    c.Outside i top j ∧ ¬Tree c.graph i j := by
  have := hb.sprout.lt_size
  refine ⟨⟨by omega, by omega⟩, fun ht => ?_⟩
  have := (hb.sprout.tree_bounds ht).1
  omega

/-- A node is visited that was added last. -/
theorem Draws.visit_new (hv : Draws A d q v)
    (h : c.Sketched A d q (fun j => X j ∨ Tree c.graph i j) S) (hb : c.Budding i c.graph.size)
    (hX : ∀ j, X j → j.index < i.index) (hA : ∀ a, A a → a.index < i.index)
    (hi : c.graph.Portrays S i) (hvisit : v i c = .ok () c') :
    c.Grows (c.Outside i c.graph.size) c' ∧ c'.Sketched A d q X S ∧ c'.Visited i :=
  hv.visit h hb (fun j hj => (outside_of_lt hb (hX j hj)).1) (fun a ha => (outside_of_lt hb (hA a ha)).2) hi
    hvisit

/-! ## References -/

/-- A new node that is stored under a reference depicts what the reference stands for. -/
theorem sketched_bound {owner : Option NodeId} {ref : Json} (h : c.Sketched A d q X (Eq (.ref ref)))
    (hbound : Bound d c owner ref i c') :
    ∃ s, d.Declares ref s ∧ c'.graph.Depicts i s ∧
      c'.Sketched A d q (fun j => X j ∨ Tree c'.graph i j) (Eq s) := by
  obtain ⟨s, hdeclares, hdepicts⟩ := hbound.depicts
  have hgrows := hbound.grows h.sound
  have hs' := hbound.sound h.sound
  have hb := hbound.budding h.sound
  have hindex := hbound.index
  have hnew : ∀ j, Tree c'.graph i j → c.graph.size ≤ j.index := fun j hj =>
    hindex.symm.trans_le (hb.sprout.tree_bounds hj).1
  refine ⟨s, hdeclares, hdepicts, hs', h.whole.bound h.sound hbound,
    fun a ha => (h.spurned_lt a ha).trans_le hgrows.size_le, ?_, ?_⟩
  · refine h.faithful.grow hgrows hbound.oracle (fun j hj => hj.lt_size) (fun j hj => ?_)
      fun ref' j hj => ?_
    · by_cases hold : j.index < c.graph.size
      · rwa [Visited, hbound.node_eq hold] at hj
      · have hnone : (c'.graph.node j).visited = false := by
          by_cases hne : j = i
          · rw [hne]
            exact hb.sprout.bud.unvisited
          · exact (hbound.loose (Nat.not_lt.1 hold) hne).unvisited
        rw [Visited, hnone] at hj
        cases hj
    · rw [hs'.stored?_eq_some_iff, hbound.builds] at hj
      rcases List.mem_append.1 hj with hj | hj
      · exact .inl (h.sound.stored?_eq_some_iff.2 hj)
      · obtain ⟨rfl, rfl⟩ := Prod.mk.inj (List.mem_singleton.1 hj)
        exact .inr ⟨s, hdeclares, hdepicts⟩
  · have hlead : d.Reaches (.ref ref) s := Relation.ReflTransGen.single (.target hdeclares)
    have hold : c'.Pending d q X (Eq s) := (h.pending.grows h.whole.owed_lt hgrows).reaches
      fun s' hs' => ⟨.ref ref, rfl, hs' ▸ hlead⟩
    rintro j (hj | hj) hq hslot hname
    · exact hold j hj hq hslot hname
    · by_cases hne : j = i
      · rintro _ rfl
        rw [hne, hbound.name]
        exact hlead
      · rw [(hbound.loose (hnew j hj) hne).unnamed hslot] at hname
        cases hname

/-- A reference is resolved to a node that is stored under it. -/
theorem sketched_resolve (hv : Draws A d q v) {ref : Json}
    (h : c.Sketched A d q X (Eq (.ref ref))) {owner : Option NodeId} {t : NodeId}
    (hrun : resolve d v owner ref c = .ok t c') :
    c.Grows c.Old c' ∧ c'.Sketched A d q X (Eq (.ref ref)) ∧ c'.stored? ref = some t := by
  obtain ⟨hgrows, hs', hw', hstored⟩ :=
    whole_resolve hv.finishes hv.visits h.sound h.spurned_lt h.whole hrun
  refine ⟨hgrows, ⟨hs', hw', fun a ha => (h.spurned_lt a ha).trans_le hgrows.size_le, ?_,
    h.pending.grows h.whole.owed_lt hgrows⟩, hstored⟩
  have htrace : ∀ {tag text : String} {i : NodeId} {c : Context},
      (do Run.trace tag text; return i : Run NodeId) c = .ok t c' → c.Faithful d → c'.Faithful d := by
    intro tag text i c hout hfaithful
    exact hfaithful.still (((Run.idle_trace tag text).bind fun _ => idle_pure i).of_ok hout)
      (((Run.silent_trace tag text).bind fun _ => silent_pure i).oracle_of_ok hout)
  rcases resolve_cases d v owner ref c with
    ⟨i, text, -, he⟩ | ⟨i, text, c₁, hbound, he⟩ | ⟨fault, c₁, -, -, -, he⟩ <;> rw [he] at hrun
  · refine htrace hrun ?_
    exact h.faithful.grow (grows_meet (P := fun _ => True) c ref) rfl (fun _ _ => trivial)
      (fun _ => id) fun _ _ => .inl
  · obtain ⟨u, c₂, hvisit, hout⟩ := bind_eq_ok_iff.1 hrun
    obtain ⟨s, -, hdepicts, hbegun⟩ := sketched_bound h hbound
    have hindex := hbound.index
    obtain ⟨-, h₂, -⟩ := hv.visit_new hbegun (hbound.budding h.sound)
      (fun j hj => by rw [hindex]; exact h.whole.owed_lt j hj)
      (fun a ha => by rw [hindex]; exact h.spurned_lt a ha) (.declaration hdepicts rfl) hvisit
    exact htrace hout h₂.faithful
  · cases hrun

/-- A new node depicts what it was built for. -/
theorem sketched_sprouted (h : c.Sketched A d q X (Eq s)) {parent : Option NodeId} {schema : Json}
    (hlead : ∀ s', schema.Declares s' → d.Reaches s s') {member : NodeId}
    (hbuild : Build.fromSchema parent schema c = .ok member c₁) :
    ∃ s', schema.Declares s' ∧ c₁.graph.Depicts member s' ∧
      c₁.Sketched A d q (fun j => X j ∨ Tree c₁.graph member j) (Eq s') := by
  have hsprouted := sprouted_fromSchema hbuild
  have hindex := hsprouted.planted.index
  obtain ⟨s', hdeclares, hdepicts⟩ := hsprouted.depicts
  have hb₁ := hsprouted.budding h.sound
  refine ⟨s', hdeclares, hdepicts, hsprouted.sound h.sound, h.whole.sprouted hsprouted,
    fun a ha => (h.spurned_lt a ha).trans_le hsprouted.grows.size_le, ?_, ?_⟩
  · refine h.faithful.grow hsprouted.grows ((Build.silent_fromSchema _ _).oracle_of_ok hbuild)
      (fun j hj => hj.lt_size) (fun j hj => ?_) fun ref i hi => ?_
    · by_cases hold : j.index < c.graph.size
      · rwa [Visited, hsprouted.planted.node_eq j hold] at hj
      · rw [Visited, (hsprouted.planted.loose j (Nat.not_lt.1 hold)).unvisited] at hj
        cases hj
    · rw [hsprouted.still.stored?] at hi
      exact .inl hi
  · have hold : c₁.Pending d q X (Eq s') := (h.pending.grows h.whole.owed_lt hsprouted.grows).reaches
      fun s'' hs'' => ⟨s, rfl, hs'' ▸ hlead s' hdeclares⟩
    refine hold.or fun j hj => ?_
    exact (hsprouted.planted.loose j (hindex.ge.trans (hb₁.sprout.tree_bounds hj).1)).unnamed

/-- A new node is built and visited. -/
theorem sketched_new (hv : Draws A d q v) (h : c.Sketched A d q X (Eq s)) {parent : Option NodeId}
    {schema : Json} (hlead : ∀ s', schema.Declares s' → d.Reaches s s') {member : NodeId}
    {c₂ : Context} (hbuild : Build.fromSchema parent schema c = .ok member c₁)
    (hvisit : v member c₁ = .ok () c₂) :
    c.Grows c.Old c₂ ∧ c₂.Sketched A d q X (Eq s) ∧ c₂.Visited member ∧
      c.graph.size ≤ member.index ∧ (∀ owner, parent = some owner → c₂.graph.Owns owner member) ∧
      ∃ s', schema.Declares s' ∧ c₂.graph.Depicts member s' := by
  obtain ⟨hgrows, hs₂, hw₂, hmember, hindex, -, howns, hdrawn⟩ :=
    whole_new hv.finishes hv.visits h.sound h.spurned_lt h.whole hbuild hvisit
  have hsprouted := sprouted_fromSchema hbuild
  obtain ⟨s', -, hdepicts, h₁⟩ := sketched_sprouted h hlead hbuild
  have hmemberIndex := hsprouted.planted.index
  obtain ⟨-, h₂, -⟩ := hv.visit_new h₁ (hsprouted.budding h.sound)
    (fun j hj => by rw [hmemberIndex]; exact h.whole.owed_lt j hj)
    (fun a ha => by rw [hmemberIndex]; exact h.spurned_lt a ha) (.declaration hdepicts rfl) hvisit
  exact ⟨hgrows, ⟨hs₂, hw₂, h₂.spurned_lt, h₂.faithful, h.pending.grows h.whole.owed_lt hgrows⟩, hmember,
    hindex, howns, hdrawn⟩

/-! ## Compositions -/

variable {parts : Json}

/-- The properties of the members are gathered as the document says, and as the members hold them. -/
theorem gathers_collectFrom (hv : Draws A d q v) (hd : d.Layered) {elements : List Json}
    (helements : parts.elements = .ok elements) {members : List Json}
    (hmembers : ∀ e ∈ members, e ∈ elements) (h : c.Sketched A d q X (Eq (.composed .allOf parts)))
    {collected collected' : OrderedMap Key NodeId} {m : OrderedMap Key (PropertyOf Schema)}
    (hm : Aligned c.graph.DepictsProperty collected m)
    (hrun : collectFrom v i collected members c = .ok collected' c') :
    c'.Sketched A d q X (Eq (.composed .allOf parts)) ∧ c.Grows c.Old c' ∧
      (∃ m', d.Gathers m members m' ∧ Aligned c'.graph.DepictsProperty collected' m') ∧
      ∃ held, c'.graph.Gathered i members held ∧ (∀ e ∈ held, c.graph.size ≤ e.1.index) ∧
        collected' = (held.map Prod.snd).foldl insertAll collected := by
  induction members generalizing c collected m with
  | nil =>
    cases hrun
    exact ⟨h, (Still.refl _).grows, ⟨m, .nil m, hm⟩, [], ⟨.nil, (by simp), .nil⟩, (by simp), rfl⟩
  | cons schema rest ih =>
    obtain ⟨hschema, hrest⟩ := List.forall_mem_cons.1 hmembers
    obtain ⟨member, c₁, hbuild, hrun⟩ := bind_eq_ok_iff.1 hrun
    obtain ⟨u, c₂, hvisit, hrun⟩ := bind_eq_ok_iff.1 hrun
    obtain ⟨props, c₃, hread, hrun⟩ := bind_eq_ok_iff.1 hrun
    obtain ⟨hgrows, h₂, hmember, hindex, hown, s, hdeclares, hdepicts⟩ := sketched_new hv h
      (fun s hs => Relation.ReflTransGen.single (.member helements hschema hs)) hbuild hvisit
    obtain ⟨hprops, rfl⟩ := eq_ok_of_lift
      (show Run.lift (c₂.graph.propertiesOf member) c₂ = .ok props c₃ from hread)
    -- the document is layered, so a reference among the members does not lead back
    have hfree : ∀ ref, s = .ref ref → ¬d.Reaches (.ref ref) (.composed .allOf parts) := by
      rintro ref rfl
      exact hd parts elements schema ref helements hschema hdeclares
    obtain ⟨more, hbrings, hmore⟩ := h₂.brings hmember hdepicts rfl hfree hprops
    have hm₂ : Aligned c₂.graph.DepictsProperty collected m := hm.imp fun k p hk => hk.kept hgrows.kept
    obtain ⟨h', hgrows', ⟨m', hgathers, hm'⟩, held, hheld, hlater, hcollected⟩ :=
      ih hrest h₂ (hm₂.insertAll hmore) hrun
    have hcontributes : c₂.graph.Contributes schema member props := by
      refine ⟨⟨s, hdeclares, hdepicts⟩, ⟨fun j => ?_, hprops⟩, ?_⟩
      · exact h₂.visited_of_refers hmember hdepicts rfl hfree
      · rw [hmore.keys_eq]
        exact hbrings.distinct
    refine ⟨h', hgrows.trans (hgrows'.mono fun j hj => hj.trans_le hgrows.size_le),
      ⟨m', .cons hdeclares hbrings hgathers, hm'⟩, (member, props) :: held, ⟨.cons ?_ hheld.contributes,
        List.forall_mem_cons.2 ⟨?_, hheld.owns⟩, ?_⟩, List.forall_mem_cons.2 ⟨hindex, fun e he => ?_⟩,
      hcollected⟩
    · exact hcontributes.congr hgrows'.size_le hgrows'.kept fun j hj =>
        (hgrows'.spared j (Visited.lt_size hj)).1
    · exact (hown i rfl).kept (hgrows'.kept member hmember.lt_size)
    · -- later members come later in the graph
      refine List.nodup_cons.2 ⟨fun hmem => ?_, hheld.nodup⟩
      obtain ⟨e, he, rfl⟩ := List.mem_map.1 hmem
      exact absurd hmember.lt_size (Nat.not_lt.2 (hlater e he))
    · exact hgrows.size_le.trans (hlater e he)

/-- An obliging oracle keeps all candidates. -/
theorem select_of_obliging {candidates : OrderedMap Key NodeId} {kept : List NodeId}
    (h : select i candidates c = .ok kept c') (horacle : c.oracle.Obliging) :
    kept = values candidates ∧ c'.oracle = c.oracle := by
  obtain ⟨decide, horacle, hyes⟩ := horacle
  unfold select at h
  split at h
  · next hempty =>
    cases h
    rw [List.isEmpty_iff.1 hempty]
    exact ⟨rfl, rfl⟩
  · obtain ⟨names, c₁, hnames, h⟩ := bind_eq_ok_iff.1 h
    obtain ⟨-, rfl⟩ := eq_ok_of_lift hnames
    obtain ⟨c₂, c₃, hget, h⟩ := bind_eq_ok_iff.1 h
    cases hget
    obtain ⟨answer, c₄, hask, h⟩ := bind_eq_ok_iff.1 h
    rw [Run.ask_eq_ok (a := .yes) (by rw [horacle]; exact congrArg Except.ok (hyes _))] at hask
    cases hask
    cases h
    refine ⟨rfl, ?_⟩
    show (c.oracle.respond _).oracle = _
    rw [horacle]
    rfl

/-- A composition stores itself, which changes nothing. -/
theorem faithful_storeNamed {kind : Composition} (hs : c.Sound d q) (h : c.Faithful d)
    (hi : c.graph.Drawn d i) (hbody : (c.graph.node i).body = .composed kind (some parts))
    (hrun : storeNamed i c = .ok () c') : c'.Faithful d ∧ c'.graph.Drawn d i := by
  have hstill : c.Still c' :=
    ((works_storeNamed hs (P := c.Old) (by rw [hbody]; rfl)).of_ok hrun).2.2
  refine ⟨h.still hstill ((silent_storeNamed i).oracle_of_ok hrun), ?_⟩
  rwa [hstill.graph]

theorem drawn_visitAllOf (hv : Draws A d q v) (hd : d.Layered)
    (h : c.Sketched A d q (fun j => X j ∨ j = i) (Eq (.composed .allOf parts))) (hbud : c.graph.Bud i)
    (hbody : (c.graph.node i).body = .composed .allOf (some parts))
    (hrun : visitAllOf v i c = .ok () c') : c'.Faithful d ∧ c'.graph.Drawn d i := by
  obtain ⟨collected, kept, c₁, c₂, c₃, hcollect, hkept, hput, hstore⟩ := steps_of_visitAllOf hrun
  obtain ⟨hs₁, hw₁, hcollected, hi₁, hempty⟩ :=
    whole_collect hv.finishes hv.visits h.sound h.spurned_lt h.whole hbud hbody hcollect
  obtain ⟨members, elements, hmembers, helements, hfrom⟩ := collectFrom_of_collect hcollect
  have hparts : members = parts := by
    rw [Node.allOfMembers?, hbody] at hmembers
    exact (Option.some.inj hmembers).symm
  rw [hparts] at helements
  obtain ⟨h₁, -, ⟨m, hgathers, hm⟩, held, hheld, -, hcollectedEq⟩ :=
    gathers_collectFrom hv hd helements (fun _ => id) h .nil hfrom
  obtain ⟨rfl, hstill, horacle⟩ : kept = values collected ∧ c₁.Still c₂ ∧ c₂.oracle = c₁.oracle := by
    rcases hkept with ⟨rfl, rfl⟩ | hselect
    · exact ⟨rfl, Still.refl _, rfl⟩
    · obtain ⟨hall, horacle⟩ := select_of_obliging hselect h₁.faithful.oracle
      exact ⟨hall, (idle_select i collected).of_ok hselect, horacle⟩
  have h₂ := h₁.still hstill horacle
  rw [← hstill.graph] at hempty hm hheld
  have hi₂ := hi₁.still hstill
  have hcomposed : (c₂.graph.node i).body.isComposed = true := by
    rw [hi₂.body]
    rfl
  have hlt : i.index < c₂.graph.size := h₂.whole.owed_lt i (.inr rfl)
  obtain ⟨hgrows, hs₃, -⟩ := (works_putEach (P := (· ≠ i)) h₂.sound hlt (fun hne => hne rfl) hcomposed
    (values collected)).of_ok hput
  have hnames : ∀ e ∈ collected, ∃ s, e.1 = .text s ∧ (c₂.graph.node e.2).name = .str s := by
    intro e he
    obtain ⟨-, s, hkey, hprop⟩ := (hcollected.entries e he).grows hstill.grows
    exact ⟨s, hkey, hprop.1⟩
  rw [putEach_eq hlt hnames] at hput
  cases hput
  have hbody₃ : ((c₂.graph.gather i collected).node i).body = .composed .allOf (some parts) := by
    rw [(hgrows.kept i hlt).body_eq (by rw [hi₂.body]; rfl), hi₂.body]
  have hprops : ((c₂.graph.gather i collected).node i).props = collected := by
    rw [Graph.props_gather hlt, hempty]
    exact insertAll_of_distinct (m := []) hcollected.distinct
  refine faithful_storeNamed hs₃ ?_ ⟨?_, ?_, ?_, ?_, ?_, ?_, ?_⟩ hbody₃ hstore
  · refine h₂.faithful.grow hgrows rfl ?_ (fun j hj => ?_) fun _ _ => .inl
    · rintro j hj rfl
      exact hi₂.unvisited hj
    · by_cases hne : j = i
      · rw [hne, Visited, Graph.visited_gather hlt] at hj
        exact absurd hj hi₂.unvisited
      · rwa [Visited, Graph.node_gather_of_ne hne] at hj
  · rw [hbody₃]
    simp [Body.isComposed]
  · intro kind parts' hbody'
    rw [hbody₃] at hbody'
    cases hbody'
    rw [hprops]
    exact ⟨m, .allOf helements hgathers, hm.imp fun k p hk => hk.kept hgrows.kept⟩
  · intro parts' hbody'
    rw [hbody₃] at hbody'
    cases hbody'
    refine ⟨parts, elements, held, rfl, helements, hheld.congr hgrows.size_le hgrows.kept fun j hj => ?_,
      hprops.trans hcollectedEq⟩
    refine Graph.node_gather_of_ne ?_ collected
    rintro rfl
    exact hi₂.unvisited hj
  · simp [hbody₃]
  · simp [hbody₃]
  · simp [hbody₃]
  · rw [Node.below, hbody₃]
    simp

/-! ## Choices -/

/-- The union of a choice was made. -/
theorem sketched_choosing (h : c.Sketched A d q (fun j => X j ∨ j = i) S) (hi : ¬c.Visited i)
    {declared : Json} {shapes : List Json} {u : NodeId}
    (hc : Choosing A X d q c i declared shapes u c₁) :
    c₁.Sketched A d q (fun j => (X j ∨ j = i) ∨ Tree c₁.graph u j) S := by
  have hindex := hc.index
  refine ⟨hc.sound, hc.whole, fun a ha => (h.spurned_lt a ha).trans_le hc.grows.size_le, ?_, ?_⟩
  · refine h.faithful.grow hc.grows hc.oracle (fun j hj => ⟨hj.lt_size, ?_⟩) hc.unvisited
      fun ref t ht => ?_
    · rintro rfl
      exact hi hj
    · rw [hc.stored] at ht
      exact .inl ht
  · refine (h.pending.grows h.whole.owed_lt hc.grows).or fun j hj => ?_
    have hbounds := (hc.budding.sprout.tree_bounds hj).1
    exact (hc.loose j (by omega)).unnamed

theorem drawn_visitOneOf (hv : Draws A d q v)
    (h : c.Sketched A d q (fun j => X j ∨ j = i) (Eq (.composed .oneOf parts))) (hbud : c.graph.Bud i)
    (hbody : (c.graph.node i).body = .composed .oneOf (some parts))
    (hrun : visitOneOf v i (some parts) c = .ok () c') : c'.Faithful d ∧ c'.graph.Drawn d i := by
  have hlt : i.index < c.graph.size := h.whole.owed_lt i (.inr rfl)
  obtain ⟨declared, shapes, u, c₁, c₂, hparts, hc, hvisit, hstore⟩ :=
    choosing_of_visitOneOf h.sound h.whole hbud hrun
  cases hparts
  have hindex := hc.index
  have hunvisited : ¬c.Visited i := by
    rw [Visited, hbud.unvisited]
    exact Bool.false_ne_true
  obtain ⟨hgrows₂, h₂, -⟩ := hv.visit_new (sketched_choosing h hunvisited hc) hc.budding
    (fun j hj => by rw [hindex]; exact h.whole.owed_lt j hj)
    (fun a ha => by rw [hindex]; exact h.spurned_lt a ha) (.choice hc.elements hc.body rfl) hvisit
  have hsame : c₂.graph.node i = (c.graph.node i).addChild (some u) := by
    rw [(hgrows₂.spared i ⟨hlt.trans_le hc.grows.size_le, by omega⟩).1, hc.node_eq]
  have hbody₂ : (c₂.graph.node i).body = .composed .oneOf (some parts) := by
    rw [hsame, Node.body_addChild, hbody]
  have hprops : (c₂.graph.node i).props = [] := by
    rw [hsame, Node.props_addChild, hbud.bare (by simp [hbody])]
  refine faithful_storeNamed h₂.sound h₂.faithful ⟨?_, ?_, ?_, ?_, ?_, ?_, ?_⟩ hbody₂ hstore
  · exact fun _ _ => hprops
  · intro kind parts' hbody'
    rw [hbody₂] at hbody'
    cases hbody'
    rw [hprops]
    exact ⟨[], .oneOf parts, .nil⟩
  · simp [hbody₂]
  · simp [hbody₂]
  · simp [hbody₂]
  · intro _ _ k hk
    rw [hsame, Node.children_addChild (hbud.children_eq_nil (by rw [Node.below, hbody])),
      List.mem_singleton] at hk
    cases hk
    exact hc.owns.kept (hgrows₂.kept u hc.owns.lt_size)
  · rw [Node.below, hbody₂]
    simp

/-- The shapes of a union after the first are built and visited, and dropped. -/
theorem sketched_visitShapes (hv : Draws A d q v) (h : c.Sketched A d q X (Eq s)) {shapes : List Json}
    (hlead : ∀ shape ∈ shapes, ∀ s', shape.Declares s' → d.Reaches s s') {position : Nat}
    (hposition : position ≠ 0) (hrun : visitShapes v i position shapes c = .ok () c') :
    c'.Sketched A d q X (Eq s) ∧ c.Grows c.Old c' ∧ ∀ shape ∈ shapes, c'.graph.Shown shape := by
  induction shapes generalizing c position with
  | nil =>
    cases hrun
    exact ⟨h, (Still.refl _).grows, by simp⟩
  | cons schema rest ih =>
    obtain ⟨hschema, hrest⟩ := List.forall_mem_cons.1 hlead
    obtain ⟨member, c₁, hbuild, hrun⟩ := bind_eq_ok_iff.1 hrun
    obtain ⟨u, c₂, hvisit, hrun⟩ := bind_eq_ok_iff.1 hrun
    obtain ⟨hgrows, h₂, hmember, -, -, s', hdeclares, hdepicts⟩ := sketched_new hv h hschema hbuild hvisit
    dsimp only at hrun
    rw [if_neg hposition] at hrun
    obtain ⟨u', c₃, htrace, hrun⟩ := bind_eq_ok_iff.1 hrun
    have hstill := (Run.idle_trace _ _).of_ok htrace
    obtain ⟨h', hgrows', hshown⟩ := ih (h₂.still hstill ((Run.silent_trace _ _).oracle_of_ok htrace)) hrest
      (Nat.succ_ne_zero position) hrun
    have hgrows₃ : c₂.Grows c₂.Old c' := hstill.grows.trans (hgrows'.mono fun j hj => by
      rwa [Old, hstill.graph])
    refine ⟨h', hgrows.trans (hgrows₃.mono fun j hj => hj.trans_le hgrows.size_le),
      List.forall_mem_cons.2 ⟨⟨member, s', hdeclares, hdepicts.kept hgrows₃.kept, ?_⟩, hshown⟩⟩
    rwa [(hgrows₃.spared member hmember.lt_size).1]

/-- A node whose visit is not over gets another child. -/
theorem sketched_addChild (h : c.Sketched A d q X S) (hlt : i.index < c.graph.size) (hi : ¬c.Visited i)
    {child : Option NodeId} (hchild : Run.update i (fun n => n.addChild child) c = .ok () c') :
    c'.Sketched A d q X S := by
  obtain ⟨hgrows, hs', hw', hself, -⟩ := whole_addChild h.sound h.whole hlt hi hchild
  have hkeep : (∀ ref t, c'.stored? ref = some t → c.stored? ref = some t) ∧ c'.oracle = c.oracle := by
    cases hchild
    exact ⟨fun _ _ => id, rfl⟩
  refine ⟨hs', hw', fun a ha => (h.spurned_lt a ha).trans_le hgrows.size_le, ?_,
    h.pending.grows h.whole.owed_lt hgrows⟩
  refine h.faithful.grow hgrows hkeep.2 ?_ (fun j hj => ?_) fun ref t ht => .inl (hkeep.1 ref t ht)
  · rintro j hj rfl
    exact hi hj
  · by_cases hne : j = i
    · rw [hne, Visited, hself, Node.visited_addChild] at hj
      exact absurd hj hi
    · rwa [Visited, (hgrows.spared j hne).1] at hj

theorem drawn_visitShapes (hv : Draws A d q v)
    {first : Json} {rest : List Json} (hparts : parts.elements = .ok (first :: rest))
    (h : c.Sketched A d q (fun j => X j ∨ j = i) (Eq (.composed .oneOf parts))) (hbud : c.graph.Bud i)
    (hbody : (c.graph.node i).body = .union (first :: rest))
    (hrun : visitShapes v i 0 (first :: rest) c = .ok () c') :
    c'.Faithful d ∧ c'.graph.Drawn d i := by
  have hlt : i.index < c.graph.size := h.whole.owed_lt i (.inr rfl)
  have hlead : ∀ shape ∈ first :: rest, ∀ s', shape.Declares s' →
      d.Reaches (.composed .oneOf parts) s' := fun shape hshape s' hs' =>
    Relation.ReflTransGen.single (.member hparts hshape hs')
  obtain ⟨hfirst, hrest⟩ := List.forall_mem_cons.1 hlead
  obtain ⟨member, c₁, hbuild, hrun⟩ := bind_eq_ok_iff.1 hrun
  obtain ⟨u, c₂, hvisit, hrun⟩ := bind_eq_ok_iff.1 hrun
  obtain ⟨hgrows₂, h₂, hmember, hindex, hown, s', hdeclares, hdepicts⟩ :=
    sketched_new hv h hfirst hbuild hvisit
  dsimp only at hrun
  rw [if_pos rfl] at hrun
  obtain ⟨u', c₃, hchild, hrun⟩ := bind_eq_ok_iff.1 hrun
  have hsame := (hgrows₂.spared i hlt).1
  have hunvisited : ¬c₂.Visited i := by
    rw [Visited, hsame, hbud.unvisited]
    exact Bool.false_ne_true
  have hlt₂ := hlt.trans_le hgrows₂.size_le
  obtain ⟨hgrows₃, -, -, hself, hsize⟩ := whole_addChild h₂.sound h₂.whole hlt₂ hunvisited hchild
  have h₃ := sketched_addChild h₂ hlt₂ hunvisited hchild
  obtain ⟨h', hgrows', hshown⟩ := sketched_visitShapes hv h₃ hrest Nat.one_ne_zero hrun
  have hsame' : c'.graph.node i = (c.graph.node i).addChild (some member) := by
    rw [(hgrows'.spared i (by rwa [Old, hsize])).1, hself, hsame]
  have hlt₃ : member.index < c₃.graph.size := by
    rw [hsize]
    exact hmember.lt_size
  have hkept : (c₂.graph.node member).Kept (c'.graph.node member) :=
    (hgrows₃.kept member hmember.lt_size).trans (hgrows'.kept member hlt₃)
  have hne : member ≠ i := by
    rintro rfl
    omega
  refine ⟨h'.faithful, ⟨?_, ?_, ?_, ?_, ?_, ?_, ?_⟩⟩ <;> try rw [hsame', Node.body_addChild, hbody]
  · intro _ _
    rw [Node.props_addChild, hbud.bare (by simp [hbody])]
  · simp
  · simp
  · rintro _ _ ⟨⟩
    refine ⟨member, s', ?_, hdeclares, (hdepicts.kept hgrows₃.kept).kept hgrows'.kept,
      (hown i rfl).kept hkept⟩
    exact Node.children_addChild (hbud.children_eq_nil (by rw [Node.below, hbody])) _
  · rintro _ ⟨⟩
    refine List.forall_mem_cons.2
      ⟨⟨member, s', hdeclares, (hdepicts.kept hgrows₃.kept).kept hgrows'.kept, ?_⟩, hshown⟩
    rw [(hgrows'.spared member hlt₃).1, (hgrows₃.spared member hne).1]
    exact hmember
  · simp
  · rw [hsame', Node.below, Node.body_addChild, hbody]
    simp

/-! ## One visit -/

/-- A reference is followed to the node that is stored under it. -/
theorem drawn_follow (hv : Draws A d q v) {ref : Json}
    (h : c.Sketched A d q (fun j => X j ∨ j = i) (Eq (.ref ref))) (hbud : c.graph.Bud i) (body : Link → Body)
    (hlink : ∀ link, (body link).link? = some link)
    (hunlinked : ∀ target, (body ⟨ref, target⟩).unlinked = (c.graph.node i).body.unlinked)
    (hrun : (do
      let target ← resolve d v (some i) ref
      Run.update i fun n => { n with body := body ⟨ref, some target⟩ }.addChild target : Run Unit) c =
        .ok () c') : c'.Faithful d := by
  have hlt : i.index < c.graph.size := h.whole.owed_lt i (.inr rfl)
  obtain ⟨target, c₁, hresolve, hrun⟩ := bind_eq_ok_iff.1 hrun
  obtain ⟨hgrows₁, h₁, hstored⟩ := sketched_resolve hv h hresolve
  have hsame := (hgrows₁.spared i hlt).1
  have hlt₁ := hlt.trans_le hgrows₁.size_le
  obtain ⟨hgrows, -, hc'⟩ := (works_link h₁.sound hlt₁ hlink
    (fun target => by rw [hsame]; exact hunlinked target) hstored).of_ok hrun
  have hunvisited : ¬c₁.Visited i := by
    rw [Visited, hsame, hbud.unvisited]
    exact Bool.false_ne_true
  subst hc'
  refine h₁.faithful.grow hgrows rfl ?_ (fun j hj => ?_) fun _ _ => .inl
  · rintro j hj rfl
    exact hunvisited hj
  · by_cases hne : j = i
    · simp only [hne, Visited, Graph.node_update_self c₁.graph hlt₁, Node.visited_addChild] at hj
      exact absurd hj hunvisited
    · simpa only [Visited, Graph.node_update_of_ne c₁.graph hne] using hj

/-- Sprouts apart from one another are visited one by one. -/
theorem faithful_visitEach (hv : Draws A d q v) {ends : NodeId → Nat} {ks : List (Option NodeId)}
    (hi : Fanned A X d q c ends (ks.filterMap id)) (hfaithful : c.Faithful d)
    (hpending : c.Pending d q (fun j => X j ∨ ∃ k ∈ ks.filterMap id, Tree c.graph k j) S)
    (hportrays : ∀ k ∈ ks.filterMap id, ∃ S', (∀ s', S' s' → ∃ s, S s ∧ d.Reaches s s') ∧
      c.graph.Portrays S' k)
    (hrun : visitEach v ks c = .ok () c') : c'.Faithful d := by
  induction ks generalizing c with
  | nil =>
    cases hrun
    exact hfaithful
  | cons k rest ih =>
    cases k with
    | none => cases hrun
    | some k =>
      have hks : (some k :: rest).filterMap id = k :: rest.filterMap id := rfl
      rw [hks] at hi hpending hportrays
      obtain ⟨u, c₁, hvisit, hrun⟩ :=
        bind_eq_ok_iff.1 (show (v k >>= fun _ => visitEach v rest) c = .ok () c' from hrun)
      obtain ⟨hi₁, -⟩ := Fanned.next hv.finishes hv.visits hi hvisit
      obtain ⟨⟨S', hreaches, hk⟩, hothers⟩ := List.forall_mem_cons.1 hportrays
      have hpending' : c.Pending d q
          (fun j => (X j ∨ ∃ m ∈ rest.filterMap id, Tree c.graph m j) ∨ Tree c.graph k j) S := by
        refine hpending.mono fun j hj => ?_
        simp only [List.mem_cons, exists_eq_or_imp]
        tauto
      obtain ⟨hgrows, h₁, -⟩ := hv.visit
        ⟨hi.sound, hi.whole_first, fun a ha => (hi.spared a ha).1, hfaithful, hpending'.reaches hreaches⟩
        (hi.budding k List.mem_cons_self) (fun _ => hi.owed_first)
        (fun a ha => (hi.spared a ha).2 k List.mem_cons_self) hk hvisit
      have htree : ∀ m ∈ rest.filterMap id, ∀ j, Tree c₁.graph m j ↔ Tree c.graph m j :=
        fun m hm j => hi.tree_iff hgrows (List.mem_cons_of_mem _ hm) j
      refine ih hi₁ h₁.faithful ?_ (fun m hm => ?_) hrun
      · refine Pending.mono (X := fun j => X j ∨ ∃ m ∈ rest.filterMap id, Tree c.graph m j) ?_ ?_
        · refine (hpending'.mono fun j => .inl).grows (fun j hj => (hi.owed_first hj).1) hgrows
        · rintro j (hj | ⟨m, hm, hj⟩)
          · exact .inl hj
          · exact .inr ⟨m, hm, (htree m hm j).1 hj⟩
      · obtain ⟨S'', hreaches', hm'⟩ := hothers m hm
        exact ⟨S'', hreaches', hm'.kept hgrows.kept⟩

/-- A node with nothing below it owes its own visit only. -/
theorem sketched_of_below_eq_nil (h : c.Sketched A d q (fun j => X j ∨ Tree c.graph i j) S)
    (hbelow : (c.graph.node i).below = []) : c.Sketched A d q (fun j => X j ∨ j = i) S := by
  refine h.congr fun j => or_congr_right ?_
  rw [tree_iff, hbelow]
  simp

section

variable (hv : Draws A d q v) (ho : c.Opened i top) (hX : ∀ j, X j → c.Outside i top j)
  (hA : ∀ a, A a → ¬Tree c.graph i a)
  (h : c.Sketched A d q (fun j => X j ∨ Tree c.graph i j) S)

include hv ho hX hA h in
/-- The nodes below an opened one are visited, each for declarations that are led to. -/
theorem faithful_visitBelow {ks : List (Option NodeId)} (hks : ks.filterMap id = (c.graph.node i).below)
    (hportrays : ∀ k ∈ (c.graph.node i).below, ∃ S', (∀ s', S' s' → ∃ s, S s ∧ d.Reaches s s') ∧
      c.graph.Portrays S' k)
    (hrun : visitEach v ks c = .ok () c') : c'.Faithful d := by
  obtain ⟨ends, hfanned⟩ := fanned_of_begun
    ⟨h.sound, ho, hX, fun a ha => ⟨h.spurned_lt a ha, hA a ha⟩, h.whole⟩
  have htree : ∀ j, X j ∨ Tree c.graph i j ↔
      (X j ∨ j = i) ∨ ∃ k ∈ (c.graph.node i).below, Tree c.graph k j := fun j =>
    (or_congr_right tree_iff).trans or_assoc.symm
  rw [← hks] at hfanned htree hportrays
  exact faithful_visitEach hv hfanned h.faithful (h.pending.mono fun j => (htree j).2) hportrays hrun

include hv ho hX hA h in
/-- The visit of a plain node leaves the graph faithful when those of the nodes below do. -/
theorem faithful_around (hplain : (c.graph.node i).body.Plain)
    (hportrays : ∀ k ∈ (c.graph.node i).below, ∃ S', (∀ s', S' s' → ∃ s, S s ∧ d.Reaches s s') ∧
      c.graph.Portrays S' k)
    (hrun : body d v i (c.graph.node i) c = .ok () c') : c'.Faithful d := by
  cases hbody : (c.graph.node i).body with
  | bare => exact absurd hbody hplain.kind
  | scalar type =>
    simp only [body, hbody] at hrun
    cases hrun
    exact h.faithful
  | object =>
    simp only [body, hbody] at hrun
    obtain ⟨u, c₁, hin, hrun⟩ := bind_eq_ok_iff.1 hrun
    obtain ⟨u', c₂, hvisit, hout⟩ := bind_eq_ok_iff.1 hrun
    have hstill := (Run.idle_trace _ _).of_ok hin
    have h₁ := h.still hstill ((Run.silent_trace _ _).oracle_of_ok hin)
    have hgraph := hstill.graph
    rw [← visitEach_map_some] at hvisit
    rw [← hgraph] at hbody hportrays hvisit h₁ hA
    refine Faithful.still ?_ ((Run.idle_trace _ _).of_ok hout) ((Run.silent_trace _ _).oracle_of_ok hout)
    refine faithful_visitBelow hv (hstill.opened ho) (fun j hj => ?_) hA h₁ ?_ hportrays hvisit
    · rw [Outside, hgraph]
      exact hX j hj
    · simp [Node.below, hbody]
  | array items =>
    simp only [body, hbody] at hrun
    rw [← visitEach_singleton] at hrun
    refine faithful_visitBelow hv ho hX hA h ?_ hportrays hrun
    rw [Node.below, hbody]
    exact filterMap_id_singleton items
  | ref link => exact absurd hplain.link (by simp [hbody, Body.link?])
  | property slot arguments link =>
    cases link with
    | some link => exact absurd hplain.link (by simp [hbody, Body.link?])
    | none =>
      simp only [body, hbody] at hrun
      rw [← visitEach_append] at hrun
      refine faithful_visitBelow hv ho hX hA h ?_ hportrays hrun
      rw [Node.below, hbody, List.filterMap_append, filterMap_id_singleton]
  | parameter slot =>
    simp only [body, hbody] at hrun
    rw [← visitEach_singleton] at hrun
    refine faithful_visitBelow hv ho hX hA h ?_ hportrays hrun
    rw [Node.below, hbody]
    exact filterMap_id_singleton slot.type
  | composed kind parts => exact absurd hplain.composed (by simp [hbody, Body.isComposed])
  | union shapes => exact absurd hbody (hplain.union shapes)

include hv ho h in
/-- A node that gathers nothing is drawn when the rest of the graph is. -/
theorem drawn_plain (hrun : body d v i (c.graph.node i) c = .ok () c')
    (hcomposed : (c.graph.node i).body.isComposed = false)
    (hunion : ∀ shapes, (c.graph.node i).body ≠ .union shapes) (hfaithful : c'.Faithful d) :
    c'.Faithful d ∧ c'.graph.Drawn d i := by
  obtain ⟨hgrows, -, -⟩ := (works_body hv.visits h.sound ho).of_ok hrun
  have hkept := hgrows.kept i ho.sprout.lt_size
  have hsame := hkept.body
  refine ⟨hfaithful, Graph.drawn_of_plain (hkept.isComposed.trans hcomposed) (fun shapes hbody => ?_)
    (fun hobject => ?_) fun k hk => ?_⟩
  · rw [hbody] at hsame
    rcases hn : (c.graph.node i).body with _ | _ | _ | _ | shapes' | _ | _ | ⟨_, _, _ | _⟩ | _ <;>
      rw [hn] at hsame <;> simp [Body.unlinked] at hsame
    exact hunion shapes' hn
  · rw [hkept.props hcomposed]
    exact ho.sprout.bud.bare fun hn => hobject ((hkept.body_eq (by rw [hn]; rfl)).trans hn)
  · rw [hkept.below] at hk
    have hown := ho.sprout.bud.owns k hk
    exact hown.kept (hgrows.kept k hown.lt_size)

include hv ho h in
/-- A composition gathers what the document says. -/
theorem drawn_visitComposed (hd : d.Layered) {kind : Composition} (hs : S (.composed kind parts))
    (hbody : (c.graph.node i).body = .composed kind (some parts))
    (hrun : body d v i (c.graph.node i) c = .ok () c') : c'.Faithful d ∧ c'.graph.Drawn d i := by
  have hbud := ho.sprout.bud
  have h' := (sketched_of_below_eq_nil h (by rw [Node.below, hbody])).only hs
  simp only [body, hbody] at hrun
  obtain ⟨c₁, c₂, ⟨hin, hinOracle⟩, hkind, hout, houtOracle⟩ := steps_of_visitComposed hrun
  have h₁ := h'.still hin hinOracle
  rw [← hin.graph] at hbud hbody
  obtain ⟨hfaithful, hdrawn⟩ : c₂.Faithful d ∧ c₂.graph.Drawn d i := by
    rcases hkind with ⟨rfl, hvisit⟩ | ⟨rfl, hvisit⟩
    · exact drawn_visitAllOf hv hd h₁ hbud hbody hvisit
    · exact drawn_visitOneOf hv h₁ hbud hbody hvisit
  refine ⟨hfaithful.still hout houtOracle, ?_⟩
  rwa [hout.graph]

include hv ho hX hA h in
/-- What the visit of a declaration does inside its node draws it. -/
theorem drawn_declaration (hd : d.Layered) (hdepicts : c.graph.Depicts i s) (hs : S s)
    (hrun : body d v i (c.graph.node i) c = .ok () c') : c'.Faithful d ∧ c'.graph.Drawn d i := by
  have hdrawn := drawn_plain hv ho h hrun
  cases s with
  | ref target =>
    rw [Graph.Depicts] at hdepicts
    obtain ⟨t, hbody⟩ := hdepicts
    have h' := (sketched_of_below_eq_nil h (by rw [Node.below, hbody])).only hs
    refine hdrawn (by rw [hbody]; rfl) (by simp [hbody]) ?_
    simp only [body, hbody] at hrun
    refine drawn_follow hv h' ho.sprout.bud _ (fun _ => rfl) (fun _ => ?_) hrun
    rw [hbody]
    rfl
  | scalar type =>
    rw [Graph.Depicts] at hdepicts
    refine hdrawn (by rw [hdepicts]; rfl) (by simp [hdepicts]) ?_
    refine faithful_around hv ho hX hA h ?_ (fun k hk => ?_) hrun
    · rw [hdepicts]
      exact ⟨(by simp), rfl, rfl, (by simp), by simp [Body.inside]⟩
    · rw [Node.below, hdepicts] at hk
      cases hk
  | array items =>
    rw [Graph.Depicts] at hdepicts
    obtain ⟨k, hbody, hk⟩ := hdepicts
    refine hdrawn (by rw [hbody]; rfl) (by simp [hbody]) ?_
    refine faithful_around hv ho hX hA h ?_ (fun k' hk' => ?_) hrun
    · rw [hbody]
      exact ⟨(by simp), rfl, rfl, (by simp), by simp [Body.inside]⟩
    · rw [Node.below, hbody] at hk'
      cases List.mem_singleton.1 hk'
      refine ⟨Eq items, ?_, .declaration hk rfl⟩
      rintro _ rfl
      exact ⟨_, hs, Relation.ReflTransGen.single (.items items)⟩
  | object properties =>
    have hproperty := fun k => hdepicts.exists_property (k := k)
    rw [Graph.Depicts] at hdepicts
    obtain ⟨hbody, -⟩ := hdepicts
    refine hdrawn (by rw [hbody]; rfl) (by simp [hbody]) ?_
    refine faithful_around hv ho hX hA h ?_ (fun k hk => ?_) hrun
    · rw [hbody]
      exact ⟨(by simp), rfl, rfl, (by simp), by simp [Body.inside]⟩
    · rw [Node.below, hbody] at hk
      obtain ⟨p, hp, hk⟩ := hproperty k hk
      refine ⟨Eq p.type, ?_, hk.portrays rfl⟩
      rintro _ rfl
      exact ⟨_, hs, Relation.ReflTransGen.single (.property hp)⟩
  | composed kind parts =>
    rw [Graph.Depicts] at hdepicts
    exact drawn_visitComposed hv ho h hd hs hdepicts hrun

include hv ho hX hA h in
/-- What a visit does inside its node draws it. -/
theorem drawn_body (hd : d.Layered) (hi : c.graph.Portrays S i)
    (hrun : body d v i (c.graph.node i) c = .ok () c') : c'.Faithful d ∧ c'.graph.Drawn d i := by
  have hdrawn := drawn_plain hv ho h hrun
  cases hi with
  | declaration hdepicts hs => exact drawn_declaration hv ho hX hA h hd hdepicts hs hrun
  | @reference _ slot arguments link hbody hs =>
    have h' := (sketched_of_below_eq_nil h (by rw [Node.below, hbody])).only hs
    refine hdrawn (by rw [hbody]; rfl) (by simp [hbody]) ?_
    simp only [body, hbody] at hrun
    refine drawn_follow hv h' ho.sprout.bud (fun link => .property slot arguments (some link))
      (fun _ => rfl) (fun _ => ?_) hrun
    rw [hbody]
    rfl
  | around hplain hbelow =>
    refine hdrawn hplain.composed hplain.union ?_
    exact faithful_around hv ho hX hA h hplain
      (fun k hk => ⟨S, fun s hs => ⟨s, hs, Relation.ReflTransGen.refl⟩, hbelow k hk⟩) hrun
  | @choice _ declared shapes helements hbody hs =>
    have h' := (sketched_of_below_eq_nil h (by rw [Node.below, hbody])).only hs
    simp only [body, hbody] at hrun
    cases shapes with
    | nil => cases hrun
    | cons first rest => exact drawn_visitShapes hv helements h' ho.sprout.bud hbody hrun

end

/-- A node is gone into whose visit is owed. -/
theorem sketched_enter (h : c.Sketched A d q (fun j => X j ∨ Tree c.graph i j) S)
    (hb : c.Budding i top) : Sketched A d q (fun j => X j ∨ Tree c.graph i j) S (c.enter (some i)) := by
  have hfresh := hb.fresh i le_rfl hb.sprout.inside
  refine ⟨sound_enter h.sound hb.sprout.lt_size, ?_, h.spurned_lt,
    ⟨h.faithful.oracle, h.faithful.stored, h.faithful.drawn⟩, h.pending⟩
  refine h.whole.step (grows_enter (P := (· ≠ i)) hfresh fun h => h rfl) ?_ (fun _ _ _ => .inl)
    (fun _ => id) fun _ => rfl
  rintro j hj rfl
  exact hfresh (h.whole.entered j hj)

/-- One visit draws what the document says when those of the nodes below do. -/
theorem draws_step (hv : Draws A d q v) (hd : d.Layered) : Draws A d q (step d v) := by
  refine ⟨visits_step hv.visits, finishes_step hv.finishes hv.visits, ?_⟩
  intro X S c c' i top h hb hX hA hi hrun
  have hlt := hb.sprout.lt_size
  obtain ⟨n, c₁, hn, hrun⟩ := bind_eq_ok_iff.1 hrun
  cases hn
  simp only [hb.sprout.bud.unvisited] at hrun
  obtain ⟨c₂, hinner, rfl⟩ := eq_ok_of_within hrun
  obtain ⟨u, c₃, hrun, hmark⟩ := bind_eq_ok_iff.1 hinner
  have h₁ := sketched_enter h hb
  obtain ⟨hfaithful, hdrawn⟩ := drawn_body hv hb.opened hX hA h₁ hd hi hrun
  obtain ⟨hgrows, -, -⟩ := (works_body hv.visits h₁.sound hb.opened).of_ok hrun
  cases hmark
  have hfinished := hfaithful.finish (hlt.trans_le hgrows.size_le) hdrawn
  exact hfinished.still (still_leave _) (oracle_leave _)

/-- Visits of any depth draw what the document says. -/
theorem draws_visitWithin (hd : d.Layered) (depth : Nat) : Draws A d q (visitWithin d depth) := by
  induction depth with
  | zero =>
    refine ⟨visits_visitWithin 0, finishes_visitWithin 0, ?_⟩
    intro X S c c' i top _ _ _ _ _ hrun
    cases hrun
  | succ depth ih => exact draws_step ih hd

end Visit

end ApiGraph
