import ApiGraph.Proofs.Depicting.Runs
import ApiGraph.Proofs.Succeeding.Declarations

/-!
# Visits that succeed

In a layered document, the visit of a node succeeds when its declaration can be read with all that it
leads to, the oracle agrees to everything, and the depth is enough.

* `Visit.Achieves` — what is promised of the visits of nodes below;
* `delivers_resolve`, `delivers_visitAllOf`, … — one lemma for each step of a visit;
* `Visit.achieves_visitWithin` — visits of any depth keep the promise.
-/

namespace ApiGraph

open OrderedMap Context

variable {A : NodeId → Prop} {d : Document} {q : Option NodeId} {X : NodeId → Prop}
  {S K : Schema → Prop} {R : List Json} {D fuel k top : Nat} {c c' c₁ : Context} {i : NodeId}
  {s : Schema}

namespace Visit

variable {v : Visitor}

/-- What is promised of the visits of nodes below: they draw what the document says, and succeed where
everything can be read and the depth is enough. -/
structure Achieves (A : NodeId → Prop) (d : Document) (q : Option NodeId) (K : Schema → Prop)
    (R : List Json) (D fuel : Nat) (v : Visitor) : Prop where
  draws : Draws A d q v
  delivers : ∀ {X : NodeId → Prop} {S : Schema → Prop} {c : Context} {i : NodeId} {top k : Nat},
    c.Sketched A d q (fun j => X j ∨ Tree c.graph i j) S → c.Budding i top →
      (∀ j, X j → c.Outside i top j) → (∀ a, A a → ¬Tree c.graph i a) → c.graph.Portrays S i →
        (∀ s, S s → K s) → Low R c.graph k i → Covers R D c k fuel → Delivers (v i) c

/-- A node is visited that was added last. -/
theorem Achieves.visit_new (hv : Achieves A d q K R D fuel v)
    (h : c.Sketched A d q (fun j => X j ∨ Tree c.graph i j) S) (hb : c.Budding i c.graph.size)
    (hX : ∀ j, X j → j.index < i.index) (hA : ∀ a, A a → a.index < i.index)
    (hi : c.graph.Portrays S i) (hS : ∀ s, S s → K s) (hlow : Low R c.graph k i)
    (hcovers : Covers R D c k fuel) : Delivers (v i) c :=
  hv.delivers h hb (fun j hj => (outside_of_lt hb (hX j hj)).1)
    (fun a ha => (outside_of_lt hb (hA a ha)).2) hi hS hlow hcovers

section

variable (hv : Achieves A d q K R D fuel v)

/-! ## References -/

include hv in
/-- A reference is resolved whose declaration can be read. -/
theorem delivers_resolve (hd : d.raw.Within R D) (hK : d.Readable K) {ref : Json}
    (h : c.Sketched A d q X (Eq (.ref ref))) (hread : K (.ref ref)) (owner : Option NodeId)
    (hcovers : ∀ i c', Bound d c owner ref i c' → Covers R D c' D fuel) :
    Delivers (resolve d v owner ref) c := by
  obtain ⟨s, hdeclares, hs⟩ := hK.target hread
  rcases resolve_cases d v owner ref c with
    ⟨i, text, -, he⟩ | ⟨i, text, c₁, hbound, he⟩ | ⟨fault, c₁, -, -, hnone, -⟩
  · exact Delivers.of_eq ⟨i, _, rfl⟩ he
  · obtain ⟨s', hdeclares', hdepicts, hbegun⟩ := sketched_bound h hbound
    cases hdeclares.unique hdeclares'
    have hindex := hbound.index
    refine Delivers.of_eq (Delivers.bind ?_ fun _ _ _ => ⟨i, _, rfl⟩) he
    exact hv.visit_new hbegun (hbound.budding h.sound)
      (fun j hj => by rw [hindex]; exact h.whole.owed_lt j hj)
      (fun a ha => by rw [hindex]; exact h.spurned_lt a ha) (.declaration hdepicts rfl)
      (fun _ he => he ▸ hs) (hbound.low hd) (hcovers i c₁ hbound)
  · obtain ⟨declaration, hlookup, hdeclares⟩ := hdeclares
    exact absurd (hdeclares.read_eq _) (hnone declaration s hlookup)

include hv in
/-- A new node is built and visited whose declaration can be read. -/
theorem exists_new (h : c.Sketched A d q X (Eq s)) (parent : Option NodeId) {schema : Json} {s' : Schema}
    (hlead : ∀ s', schema.Declares s' → d.Reaches s s') (hdeclares : schema.Declares s') (hread : K s')
    (hw : schema.isObject = true → schema.Within R k) (hcovers : Covers R D c k fuel) :
    ∃ member c₁ c₂, Build.fromSchema parent schema c = .ok member c₁ ∧ v member c₁ = .ok () c₂ := by
  obtain ⟨member, c₁, hbuild⟩ : ∃ member c₁, Build.fromSchema parent schema c = .ok member c₁ :=
    ⟨_, _, fromSchema_of_read_eq_ok (hdeclares.read_eq _)⟩
  have hsprouted := sprouted_fromSchema hbuild
  have hindex := hsprouted.planted.index
  obtain ⟨s'', hdeclares', hdepicts, h₁⟩ := sketched_sprouted h hlead hbuild
  cases hdeclares.unique hdeclares'
  obtain ⟨u, c₂, hvisit⟩ := hv.visit_new h₁ (hsprouted.budding h.sound)
    (fun j hj => by rw [hindex]; exact h.whole.owed_lt j hj)
    (fun a ha => by rw [hindex]; exact h.spurned_lt a ha) (.declaration hdepicts rfl)
    (fun _ he => he ▸ hread) (hsprouted.low hw) (hcovers.grows hsprouted.grows)
  exact ⟨member, c₁, c₂, hbuild, hvisit⟩

/-! ## Compositions -/

variable {parts : Json}

include hv in
/-- The members of a composition are built and visited, and bring their properties. -/
theorem delivers_collectFrom (hd : d.Layered) {elements : List Json}
    (helements : parts.elements = .ok elements) {members : List Json}
    (hmembers : ∀ e ∈ members, e ∈ elements) (hread : ∀ e ∈ members, ∃ s, e.Declares s ∧ K s)
    (hw : ∀ e ∈ members, e.isObject = true → e.Within R k)
    (h : c.Sketched A d q X (Eq (.composed .allOf parts))) (hcovers : Covers R D c k fuel)
    {m m' : OrderedMap Key (PropertyOf Schema)} (hgathers : d.Gathers m members m')
    (collected : OrderedMap Key NodeId) : Delivers (collectFrom v i collected members) c := by
  induction members generalizing c collected m with
  | nil => exact ⟨collected, c, rfl⟩
  | cons schema rest ih =>
    obtain ⟨hschema, hrest⟩ := List.forall_mem_cons.1 hmembers
    obtain ⟨⟨s, hdeclares, hs⟩, hread⟩ := List.forall_mem_cons.1 hread
    obtain ⟨hwSchema, hw⟩ := List.forall_mem_cons.1 hw
    have hlead : ∀ s, schema.Declares s → d.Reaches (.composed .allOf parts) s := fun s hs =>
      Relation.ReflTransGen.single (.member helements hschema hs)
    obtain ⟨member, c₁, c₂, hbuild, hvisit⟩ :=
      exists_new hv h (some i) hlead hdeclares hs hwSchema hcovers
    obtain ⟨hgrows, h₂, hmember, -, -, s', hdeclares', hdepicts⟩ :=
      sketched_new hv.draws h hlead hbuild hvisit
    cases hdeclares.unique hdeclares'
    cases hgathers with
    | cons hdeclares'' hbrings hgathers =>
      cases hdeclares.unique hdeclares''
      have hfree : ∀ ref, s = .ref ref → ¬d.Reaches (.ref ref) (.composed .allOf parts) := by
        rintro ref rfl
        exact hd parts elements schema ref helements hschema hdeclares
      obtain ⟨props, hprops⟩ := h₂.exists_propertiesOf hmember hdepicts rfl hfree hbrings
      have hfound : Run.onGraph (fun g => g.propertiesOf member) c₂ = .ok props c₂ := by
        show Run.lift (c₂.graph.propertiesOf member) c₂ = _
        rw [hprops]
        rfl
      have hstep : collectFrom v i collected (schema :: rest) c =
          collectFrom v i (insertAll collected props) rest c₂ := by
        rw [collectFrom, bind_of_ok hbuild, bind_of_ok hvisit, bind_of_ok hfound]
      exact Delivers.of_eq (ih hrest hread hw h₂ (hcovers.grows hgrows) hgathers _) hstep

include hv in
theorem delivers_collect (hd : d.Layered) (hK : d.Readable K)
    (h : c.Sketched A d q X (Eq (.composed .allOf parts))) (hread : K (.composed .allOf parts))
    (hbody : (c.graph.node i).body = .composed .allOf (some parts)) (hw : parts.Within R k)
    (hcovers : Covers R D c k fuel) : Delivers (collect v i) c := by
  obtain ⟨elements, helements, hmembers⟩ := hK.members hread
  obtain ⟨m, hbrings⟩ := hK.brings hread
  obtain ⟨n, rfl, hdeep⟩ := Json.within_element hw helements
  cases hbrings with
  | allOf helements' hgathers =>
    rw [helements] at helements'
    cases helements'
    show Delivers (do
      let members ← Run.lift (expect (c.graph.node i).allOfMembers?)
      collectFrom v i [] (← Run.lift members.elements)) c
    rw [Node.allOfMembers?, hbody]
    show Delivers (Run.lift parts.elements >>= collectFrom v i []) c
    rw [helements]
    exact delivers_collectFrom hv hd helements (fun _ => id) hmembers hdeep h
      (hcovers.mono (Nat.le_succ n)) hgathers []

/-- An obliging oracle decides about candidates with names. -/
theorem delivers_select {candidates : OrderedMap Key NodeId}
    (hnames : ∀ e ∈ candidates, ∃ s, e.1 = .text s) (horacle : c.oracle.Obliging) :
    Delivers (select i candidates) c := by
  obtain ⟨decide, horacle, hyes⟩ := horacle
  obtain ⟨names, hjoin⟩ := exists_joinNames hnames ",\n - "
  have hlift : Run.lift (Graph.joinNames ",\n - " candidates) c = .ok names c := by
    rw [hjoin]
    rfl
  unfold select
  split
  · exact ⟨[], c, rfl⟩
  · refine Delivers.bind (delivers_of_ok hlift) fun names' c₁ hnames' => ?_
    rw [hlift] at hnames'
    cases hnames'
    refine Delivers.of_eq ?_ (bind_of_ok (m := get) rfl)
    refine Delivers.of_eq ?_ (bind_of_ok (Run.ask_eq_ok (a := .yes) ?_))
    · exact ⟨values candidates, _, rfl⟩
    · rw [horacle]
      exact congrArg Except.ok (hyes _)

theorem delivers_store {name : Json} {key : Key} (h : name.key? = some key) (i : NodeId) (c : Context) :
    Delivers (Run.store name i) c := by
  refine Delivers.bind ⟨(), _, rfl⟩ fun _ c₁ _ => ?_
  have hkey : Run.keyOf name c₁ = .ok key c₁ := by
    rw [Run.keyOf, h]
    rfl
  refine Delivers.of_eq ?_ (bind_of_ok hkey)
  refine Delivers.of_eq ?_ (bind_of_ok (m := get) rfl)
  split
  · exact ⟨i, _, rfl⟩
  · split
    · exact ⟨_, _, rfl⟩
    · exact ⟨_, _, rfl⟩

/-- A composition stores itself under its name. -/
theorem delivers_storeNamed (hs : c.Sound d q) (hbody : (c.graph.node i).body.isComposed = true) :
    Delivers (storeNamed i) c := by
  show Delivers (do
    unless (c.graph.node i).name.isNull do
      let _ ← Run.store (c.graph.node i).name i : Run Unit) c
  cases hname : (c.graph.node i).name.isNull with
  | true => exact ⟨(), c, rfl⟩
  | false =>
    have hstored := stored?_of_composed hs hbody hname
    rw [Context.stored?] at hstored
    obtain ⟨key, hkey, -⟩ := Option.bind_eq_some_iff.1 hstored
    exact Delivers.bind (delivers_store hkey i c) fun _ _ _ => ⟨(), _, rfl⟩

include hv in
/-- A composition gathers the properties of its members, keeps all of them and stores itself. -/
theorem delivers_visitAllOf (hd : d.Layered) (hK : d.Readable K)
    (h : c.Sketched A d q (fun j => X j ∨ j = i) (Eq (.composed .allOf parts))) (hbud : c.graph.Bud i)
    (hread : K (.composed .allOf parts))
    (hbody : (c.graph.node i).body = .composed .allOf (some parts)) (hw : parts.Within R k)
    (hcovers : Covers R D c k fuel) : Delivers (visitAllOf v i) c := by
  refine Delivers.bind (delivers_collect hv hd hK h hread hbody hw hcovers) fun collected c₁ hcollect => ?_
  obtain ⟨-, -, hcollected, hi₁, -⟩ := whole_collect hv.draws.finishes hv.draws.visits h.sound h.spurned_lt
    h.whole hbud hbody hcollect
  obtain ⟨members, elements, hmembers, helements, hfrom⟩ := collectFrom_of_collect hcollect
  obtain rfl : members = parts := by
    rw [Node.allOfMembers?, hbody] at hmembers
    exact (Option.some.inj hmembers).symm
  obtain ⟨h₁, -⟩ := gathers_collectFrom hv.draws hd helements (fun _ => id) h .nil hfrom
  have hrest : ∀ c₂, c₁.Still c₂ → c₂.oracle = c₁.oracle →
      Delivers (do (values collected).forM (Run.put i); storeNamed i : Run Unit) c₂ := by
    intro c₂ hstill horacle
    have h₂ := h₁.still hstill horacle
    have hcomposed : (c₂.graph.node i).body.isComposed = true := by
      rw [(hi₁.still hstill).body]
      rfl
    have hlt : i.index < c₂.graph.size := h₂.whole.owed_lt i (.inr rfl)
    have hnames : ∀ e ∈ collected, ∃ s, e.1 = .text s ∧ (c₂.graph.node e.2).name = .str s := by
      intro e he
      obtain ⟨-, s, hkey, hprop⟩ := (hcollected.entries e he).grows hstill.grows
      exact ⟨s, hkey, hprop.1⟩
    refine Delivers.bind (delivers_of_ok (putEach_eq hlt hnames)) fun _ c₃ hput => ?_
    obtain ⟨hgrows, hs₃, -⟩ := (works_putEach (P := (· ≠ i)) h₂.sound hlt (fun hne => hne rfl) hcomposed
      (values collected)).of_ok hput
    exact delivers_storeNamed hs₃ ((hgrows.kept i hlt).isComposed.trans hcomposed)
  refine Delivers.of_eq ?_ (bind_of_ok (m := get) rfl)
  extract_lets
  split
  · exact hrest c₁ (Still.refl _) rfl
  · have hnames : ∀ e ∈ collected, ∃ s, e.1 = .text s := by
      intro e he
      obtain ⟨-, s, hkey, -⟩ := hcollected.entries e he
      exact ⟨s, hkey⟩
    refine Delivers.bind (delivers_select hnames h₁.faithful.oracle) fun kept c₂ hselect => ?_
    obtain ⟨rfl, horacle⟩ := select_of_obliging hselect h₁.faithful.oracle
    exact hrest c₂ ((idle_select i collected).of_ok hselect) horacle

/-! ## Choices -/

include hv in
/-- A choice makes a union of its shapes, visits it and stores itself. -/
theorem delivers_visitOneOf (hK : d.Readable K)
    (h : c.Sketched A d q (fun j => X j ∨ j = i) (Eq (.composed .oneOf parts))) (hbud : c.graph.Bud i)
    (hread : K (.composed .oneOf parts))
    (hbody : (c.graph.node i).body = .composed .oneOf (some parts)) (hw : parts.Within R k)
    (hcovers : Covers R D c k fuel) : Delivers (visitOneOf v i (some parts)) c := by
  obtain ⟨shapes, helements, -⟩ := hK.members hread
  obtain ⟨n, rfl, hdeep⟩ := Json.within_element hw helements
  obtain ⟨u, c₁, hunion⟩ : ∃ u c₁, Build.fromUnion (some i) parts c = .ok u c₁ := by
    let n : Node := { body := .union shapes, parent := some i }
    refine ⟨(c.graph.alloc n).1, { c with graph := (c.graph.alloc n).2 }, ?_⟩
    show (Run.lift parts.elements >>= fun shapes => Run.alloc { body := .union shapes, parent := some i } :
      Run NodeId) c = _
    rw [helements]
    rfl
  show Delivers (do
    let union ← Build.fromUnion (some i) parts
    Run.update i fun n => n.addChild union
    v union
    storeNamed i) c
  refine Delivers.of_eq ?_ (bind_of_ok hunion)
  refine Delivers.bind ⟨(), _, rfl⟩ fun _ c₂ hchild => ?_
  have hlt : i.index < c.graph.size := h.whole.owed_lt i (.inr rfl)
  have hunvisited : ¬c.Visited i := by
    rw [Visited, hbud.unvisited]
    exact Bool.false_ne_true
  obtain ⟨shapes', hc⟩ := choosing_of_fromUnion h.sound h.whole hbud hunion hchild
  have hindex := hc.index
  have hlow : Low R c₂.graph (n + 1) u := by
    have helements' := hc.elements
    rw [helements] at helements'
    cases helements'
    refine ⟨⟨?_, ?_, ?_⟩, ?_⟩
    · simp [hc.body, Body.link?]
    · simp [hc.body]
    · rintro _ hshapes
      rw [hc.body] at hshapes
      cases hshapes
      exact hdeep
    · simp [Node.below, hc.body]
  have h₂ := sketched_choosing h hunvisited hc
  have hX : ∀ j, X j ∨ j = i → j.index < u.index := fun j hj => by
    rw [hindex]
    exact h.whole.owed_lt j hj
  have hA : ∀ a, A a → a.index < u.index := fun a ha => by
    rw [hindex]
    exact h.spurned_lt a ha
  have hportrays : c₂.graph.Portrays (Eq (.composed .oneOf parts)) u := .choice hc.elements hc.body rfl
  refine Delivers.bind (hv.visit_new h₂ hc.budding hX hA hportrays (fun _ he => he ▸ hread) hlow
    (hcovers.grows hc.grows)) fun _ c₃ hvisit => ?_
  obtain ⟨hgrows, h₃, -⟩ := hv.draws.visit_new h₂ hc.budding hX hA hportrays hvisit
  refine delivers_storeNamed h₃.sound ?_
  rw [(hgrows.kept i (hlt.trans_le hc.grows.size_le)).isComposed, (hc.grows.kept i hlt).isComposed, hbody]
  rfl

include hv in
/-- The shapes of a union after the first are built, visited and dropped. -/
theorem delivers_dropped (h : c.Sketched A d q X (Eq s)) {shapes : List Json}
    (hlead : ∀ shape ∈ shapes, ∀ s', shape.Declares s' → d.Reaches s s')
    (hread : ∀ shape ∈ shapes, ∃ s, shape.Declares s ∧ K s)
    (hw : ∀ shape ∈ shapes, shape.isObject = true → shape.Within R k) (hcovers : Covers R D c k fuel)
    {position : Nat} (hposition : position ≠ 0) : Delivers (visitShapes v i position shapes) c := by
  induction shapes generalizing c position with
  | nil => exact ⟨(), c, rfl⟩
  | cons schema rest ih =>
    obtain ⟨hschema, hrest⟩ := List.forall_mem_cons.1 hlead
    obtain ⟨⟨s', hdeclares, hs'⟩, hread⟩ := List.forall_mem_cons.1 hread
    obtain ⟨hwSchema, hw⟩ := List.forall_mem_cons.1 hw
    obtain ⟨member, c₁, c₂, hbuild, hvisit⟩ :=
      exists_new hv h (some i) hschema hdeclares hs' hwSchema hcovers
    obtain ⟨hgrows, h₂, -⟩ := sketched_new hv.draws h hschema hbuild hvisit
    rw [visitShapes]
    refine Delivers.of_eq ?_ ((bind_of_ok hbuild).trans (bind_of_ok hvisit))
    dsimp only
    rw [if_neg hposition]
    refine Delivers.bind ⟨(), _, rfl⟩ fun _ c₃ htrace => ?_
    have hstill := (Run.idle_trace _ _).of_ok htrace
    exact ih (h₂.still hstill ((Run.silent_trace _ _).oracle_of_ok htrace)) hrest hread hw
      ((hcovers.grows hgrows).grows (hstill.grows (P := c₂.Old))) (Nat.succ_ne_zero position)

include hv in
/-- The shapes of a union are built and visited, and the first is kept. -/
theorem delivers_visitShapes (hK : d.Readable K) {shapes : List Json}
    (helements : parts.elements = .ok shapes)
    (h : c.Sketched A d q (fun j => X j ∨ j = i) (Eq (.composed .oneOf parts))) (hbud : c.graph.Bud i)
    (hread : K (.composed .oneOf parts))
    (hw : ∀ shape ∈ shapes, shape.isObject = true → shape.Within R k) (hcovers : Covers R D c k fuel) :
    Delivers (visitShapes v i 0 shapes) c := by
  obtain ⟨shapes', helements', hmembers⟩ := hK.members hread
  rw [helements] at helements'
  cases helements'
  cases shapes with
  | nil => exact absurd helements (hK.shape hread)
  | cons first rest =>
    have hlead : ∀ shape ∈ first :: rest, ∀ s', shape.Declares s' →
        d.Reaches (.composed .oneOf parts) s' := fun shape hshape s' hs' =>
      Relation.ReflTransGen.single (.member helements hshape hs')
    obtain ⟨hfirst, hrest⟩ := List.forall_mem_cons.1 hlead
    obtain ⟨⟨s', hdeclares, hs'⟩, hmembers⟩ := List.forall_mem_cons.1 hmembers
    obtain ⟨hwFirst, hw⟩ := List.forall_mem_cons.1 hw
    obtain ⟨member, c₁, c₂, hbuild, hvisit⟩ :=
      exists_new hv h (some i) hfirst hdeclares hs' hwFirst hcovers
    obtain ⟨hgrows, h₂, -⟩ := sketched_new hv.draws h hfirst hbuild hvisit
    have hlt : i.index < c.graph.size := h.whole.owed_lt i (.inr rfl)
    have hunvisited : ¬c₂.Visited i := by
      rw [Visited, (hgrows.spared i hlt).1, hbud.unvisited]
      exact Bool.false_ne_true
    rw [visitShapes]
    refine Delivers.of_eq ?_ ((bind_of_ok hbuild).trans (bind_of_ok hvisit))
    dsimp only
    rw [if_pos rfl]
    refine Delivers.bind ⟨(), _, rfl⟩ fun _ c₃ hchild => ?_
    have hlt₂ := hlt.trans_le hgrows.size_le
    obtain ⟨hgrows₃, -⟩ := whole_addChild h₂.sound h₂.whole hlt₂ hunvisited hchild
    exact delivers_dropped hv (sketched_addChild h₂ hlt₂ hunvisited hchild) hrest hmembers hw
      ((hcovers.grows hgrows).grows hgrows₃) Nat.one_ne_zero

/-! ## One visit -/

include hv in
/-- Sprouts apart from one another are visited one by one. -/
theorem delivers_visitEach {ends : NodeId → Nat} {ks : List (Option NodeId)}
    (hi : Fanned A X d q c ends (ks.filterMap id)) (hfaithful : c.Faithful d)
    (hpending : c.Pending d q (fun j => X j ∨ ∃ k ∈ ks.filterMap id, Tree c.graph k j) S)
    (hportrays : ∀ k ∈ ks.filterMap id, ∃ S', (∀ s', S' s' → ∃ s, S s ∧ d.Reaches s s') ∧
      (∀ s', S' s' → K s') ∧ c.graph.Portrays S' k)
    (hfull : none ∉ ks) (hlow : ∀ j ∈ ks.filterMap id, Low R c.graph k j)
    (hcovers : Covers R D c k fuel) : Delivers (visitEach v ks) c := by
  induction ks generalizing c with
  | nil => exact ⟨(), c, rfl⟩
  | cons j rest ih =>
    obtain ⟨hj, hfull'⟩ := List.ne_and_not_mem_of_not_mem_cons hfull
    obtain ⟨j, rfl⟩ := Option.ne_none_iff_exists'.1 hj.symm
    have hks : (some j :: rest).filterMap id = j :: rest.filterMap id := rfl
    rw [hks] at hi hpending hportrays hlow
    obtain ⟨⟨S', hreaches, hread, hk⟩, hothers⟩ := List.forall_mem_cons.1 hportrays
    obtain ⟨hlowFirst, hlow⟩ := List.forall_mem_cons.1 hlow
    have hpending' : c.Pending d q
        (fun l => (X l ∨ ∃ m ∈ rest.filterMap id, Tree c.graph m l) ∨ Tree c.graph j l) S := by
      refine hpending.mono fun l hl => ?_
      simp only [List.mem_cons, exists_eq_or_imp]
      tauto
    have hbegun : c.Sketched A d q
        (fun l => (X l ∨ ∃ m ∈ rest.filterMap id, Tree c.graph m l) ∨ Tree c.graph j l) S' :=
      ⟨hi.sound, hi.whole_first, fun a ha => (hi.spared a ha).1, hfaithful, hpending'.reaches hreaches⟩
    have hb := hi.budding j List.mem_cons_self
    have hA : ∀ a, A a → ¬Tree c.graph j a := fun a ha => (hi.spared a ha).2 j List.mem_cons_self
    show Delivers (v j >>= fun _ => visitEach v rest) c
    refine Delivers.bind (hv.delivers hbegun hb (fun _ => hi.owed_first) hA hk hread hlowFirst hcovers)
      fun _ c₁ hvisit => ?_
    obtain ⟨hi₁, -⟩ := Fanned.next hv.draws.finishes hv.draws.visits hi hvisit
    obtain ⟨hgrows, h₁, -⟩ := hv.draws.visit hbegun hb (fun _ => hi.owed_first) hA hk hvisit
    have htree : ∀ m ∈ rest.filterMap id, ∀ l, Tree c₁.graph m l ↔ Tree c.graph m l :=
      fun m hm l => hi.tree_iff hgrows (List.mem_cons_of_mem _ hm) l
    refine ih hi₁ h₁.faithful ?_ (fun m hm => ?_) hfull' (fun m hm => ?_) (hcovers.grows hgrows)
    · refine Pending.mono (X := fun l => X l ∨ ∃ m ∈ rest.filterMap id, Tree c.graph m l) ?_ ?_
      · exact (hpending'.mono fun l => .inl).grows (fun l hl => (hi.owed_first hl).1) hgrows
      · rintro l (hl | ⟨m, hm, hl⟩)
        · exact .inl hl
        · exact .inr ⟨m, hm, (htree m hm l).1 hl⟩
    · obtain ⟨S'', hreaches', hread', hm'⟩ := hothers m hm
      exact ⟨S'', hreaches', hread', hm'.kept hgrows.kept⟩
    · exact hgrows.low (hlow m hm) (hi.budding m (List.mem_cons_of_mem _ hm)).sprout

include hv in
/-- A reference is followed whose declaration can be read. -/
theorem delivers_follow (hd : d.raw.Within R D) (hK : d.Readable K) {ref : Json}
    (h : c.Sketched A d q X (Eq (.ref ref))) (hread : K (.ref ref)) (href : ref ∈ R)
    (hcovers : Covers R D c (k + 1) (fuel + 1)) (f : NodeId → Node → Node) :
    Delivers (do
      let target ← resolve d v (some i) ref
      Run.update i (f target)) c := by
  refine Delivers.bind (delivers_resolve hv hd hK h hread (some i) fun j c' hbound => ?_)
    fun _ _ _ => ⟨(), _, rfl⟩
  exact hcovers.bound hbound h.sound href

end

section

variable (hv : Achieves A d q K R D fuel v) (ho : c.Opened i top)
  (hX : ∀ j, X j → c.Outside i top j) (hA : ∀ a, A a → ¬Tree c.graph i a)
  (h : c.Sketched A d q (fun j => X j ∨ Tree c.graph i j) S)

include hv ho hX hA h in
/-- The nodes below an opened one are visited, each for declarations that are led to. -/
theorem delivers_visitBelow {ks : List (Option NodeId)} (hks : ks.filterMap id = (c.graph.node i).below)
    (hfull : none ∉ ks)
    (hportrays : ∀ k ∈ (c.graph.node i).below, ∃ S', (∀ s', S' s' → ∃ s, S s ∧ d.Reaches s s') ∧
      (∀ s', S' s' → K s') ∧ c.graph.Portrays S' k)
    (hlow : ∀ j ∈ (c.graph.node i).below, Low R c.graph k j) (hcovers : Covers R D c k fuel) :
    Delivers (visitEach v ks) c := by
  obtain ⟨ends, hfanned⟩ := fanned_of_begun
    ⟨h.sound, ho, hX, fun a ha => ⟨h.spurned_lt a ha, hA a ha⟩, h.whole⟩
  have htree : ∀ j, X j ∨ Tree c.graph i j ↔
      (X j ∨ j = i) ∨ ∃ k ∈ (c.graph.node i).below, Tree c.graph k j := fun j =>
    (or_congr_right tree_iff).trans or_assoc.symm
  rw [← hks] at hfanned htree hportrays hlow
  exact delivers_visitEach hv hfanned h.faithful (h.pending.mono fun j => (htree j).2) hportrays hfull hlow
    hcovers

include hv ho hX hA h in
/-- The visit of a plain node succeeds when those of the nodes below do. -/
theorem delivers_around (hplain : (c.graph.node i).body.Plain)
    (hportrays : ∀ k ∈ (c.graph.node i).below, ∃ S', (∀ s', S' s' → ∃ s, S s ∧ d.Reaches s s') ∧
      (∀ s', S' s' → K s') ∧ c.graph.Portrays S' k)
    (hlow : ∀ j ∈ (c.graph.node i).below, Low R c.graph k j) (hcovers : Covers R D c k fuel) :
    Delivers (body d v i (c.graph.node i)) c := by
  have hbelow : ∀ {ks : List (Option NodeId)}, ks.filterMap id = (c.graph.node i).below → none ∉ ks →
      Delivers (visitEach v ks) c := fun hks hfull =>
    delivers_visitBelow hv ho hX hA h hks hfull hportrays hlow hcovers
  have hfull := hplain.full
  cases hbody : (c.graph.node i).body with
  | bare => exact absurd hbody hplain.kind
  | scalar type =>
    simp only [body, hbody]
    exact ⟨(), c, rfl⟩
  | object =>
    simp only [body, hbody]
    refine Delivers.bind ⟨(), _, rfl⟩ fun _ c₁ hin => ?_
    have hstill := (Run.idle_trace _ _).of_ok hin
    have h₁ := h.still hstill ((Run.silent_trace _ _).oracle_of_ok hin)
    have hgraph := hstill.graph
    refine Delivers.bind ?_ fun _ _ _ => ⟨(), _, rfl⟩
    rw [← visitEach_map_some]
    rw [← hgraph] at hbody hportrays hlow h₁ hA ⊢
    refine delivers_visitBelow hv (hstill.opened ho) (fun j hj => ?_) hA h₁ ?_ (by simp) hportrays hlow
      (hcovers.grows (hstill.grows (P := c.Old)))
    · rw [Outside, hgraph]
      exact hX j hj
    · simp [Node.below, hbody]
  | array items =>
    simp only [body, hbody]
    rw [hbody] at hfull
    rw [← visitEach_singleton]
    refine hbelow ?_ hfull
    rw [Node.below, hbody]
    exact filterMap_id_singleton items
  | ref link => exact absurd hplain.link (by simp [hbody, Body.link?])
  | property slot arguments link =>
    cases link with
    | some link => exact absurd hplain.link (by simp [hbody, Body.link?])
    | none =>
      simp only [body, hbody]
      rw [hbody] at hfull
      rw [← visitEach_append]
      refine hbelow ?_ hfull
      rw [Node.below, hbody, List.filterMap_append, filterMap_id_singleton]
  | parameter slot =>
    simp only [body, hbody]
    rw [hbody] at hfull
    rw [← visitEach_singleton]
    refine hbelow ?_ hfull
    rw [Node.below, hbody]
    exact filterMap_id_singleton slot.type
  | composed kind parts => exact absurd hplain.composed (by simp [hbody, Body.isComposed])
  | union shapes => exact absurd hbody (hplain.union shapes)

include hv ho h in
/-- A composition is visited by its kind. -/
theorem delivers_visitComposed (hd : d.Layered) (hK : d.Readable K) {kind : Composition} {parts : Json}
    (hs : S (.composed kind parts)) (hread : K (.composed kind parts))
    (hbody : (c.graph.node i).body = .composed kind (some parts)) (hw : parts.Within R k)
    (hcovers : Covers R D c k fuel) (n : Node) : Delivers (visitComposed v i n kind (some parts)) c := by
  have h' := (sketched_of_below_eq_nil h (by rw [Node.below, hbody])).only hs
  have hbud := ho.sprout.bud
  have hafter : ∀ m : Run Unit, (∀ c₁ : Context, c.Still c₁ → c₁.oracle = c.oracle → Delivers m c₁) →
      Delivers (do
        Run.trace "-> [composed]" ("in: " ++ n.nameOr "[object]")
        let c ← get
        unless c.inComposition i do
          Run.log .info .visit ("In composed schema: " ++ n.nameOr (c.graph.inlineOwner i))
        m) c := by
    intro m hm
    refine Delivers.bind ⟨(), _, rfl⟩ fun _ c₁ hin => ?_
    have h₁ := (Run.idle_trace _ _).of_ok hin
    have horacle₁ := (Run.silent_trace _ _).oracle_of_ok hin
    refine Delivers.of_eq ?_ (bind_of_ok (m := get) rfl)
    dsimp only
    split
    · exact hm c₁ h₁ horacle₁
    · refine Delivers.bind ⟨(), _, rfl⟩ fun _ c₂ hlog => ?_
      exact hm c₂ (h₁.trans ((Run.idle_log _ _ _).of_ok hlog))
        (((Run.silent_log _ _ _).oracle_of_ok hlog).trans horacle₁)
  cases kind with
  | allOf =>
    refine hafter _ fun c₁ hstill horacle => ?_
    have h₁ := h'.still hstill horacle
    rw [← hstill.graph] at hbody hbud
    exact Delivers.bind (delivers_visitAllOf hv hd hK h₁ hbud hread hbody hw
      (hcovers.grows (hstill.grows (P := c.Old)))) fun _ _ _ => ⟨(), _, rfl⟩
  | oneOf =>
    refine hafter _ fun c₁ hstill horacle => ?_
    have h₁ := h'.still hstill horacle
    rw [← hstill.graph] at hbody hbud
    exact Delivers.bind (delivers_visitOneOf hv hK h₁ hbud hread hbody hw
      (hcovers.grows (hstill.grows (P := c.Old)))) fun _ _ _ => ⟨(), _, rfl⟩

include hv ho hX hA h in
/-- A declaration is visited that can be read. -/
theorem delivers_declaration (hd : d.Layered) (hraw : d.raw.Within R D) (hK : d.Readable K)
    (hdepicts : c.graph.Depicts i s) (hs : S s) (hread : K s) (hlow : Low R c.graph (k + 1) i)
    (hcovers : Covers R D c (k + 1) (fuel + 1)) : Delivers (body d v i (c.graph.node i)) c := by
  obtain ⟨hshallow, hbelow⟩ := hlow
  have haround := fun hplain hportrays =>
    delivers_around hv ho hX hA h hplain hportrays hbelow hcovers.below
  cases s with
  | ref target =>
    rw [Graph.Depicts] at hdepicts
    obtain ⟨t, hbody⟩ := hdepicts
    have h' := (sketched_of_below_eq_nil h (by rw [Node.below, hbody])).only hs
    have href := hshallow.reference ⟨target, t⟩ (by rw [hbody]; rfl)
    simp only [body, hbody]
    exact delivers_follow hv hraw hK h' hread href hcovers _
  | scalar type =>
    rw [Graph.Depicts] at hdepicts
    refine haround ?_ fun k hk => ?_
    · rw [hdepicts]
      exact ⟨(by simp), rfl, rfl, (by simp), by simp [Body.inside]⟩
    · rw [Node.below, hdepicts] at hk
      cases hk
  | array items =>
    rw [Graph.Depicts] at hdepicts
    obtain ⟨k, hbody, hk⟩ := hdepicts
    refine haround ?_ fun k' hk' => ?_
    · rw [hbody]
      exact ⟨(by simp), rfl, rfl, (by simp), by simp [Body.inside]⟩
    · rw [Node.below, hbody] at hk'
      cases List.mem_singleton.1 hk'
      refine ⟨Eq items, ?_, fun _ he => he ▸ hK.items hread, .declaration hk rfl⟩
      rintro _ rfl
      exact ⟨_, hs, Relation.ReflTransGen.single (.items items)⟩
  | object properties =>
    have haligned := hdepicts.aligned
    rw [Graph.Depicts] at hdepicts
    obtain ⟨hbody, -⟩ := hdepicts
    refine haround ?_ fun k hk => ?_
    · rw [hbody]
      exact ⟨(by simp), rfl, rfl, (by simp), by simp [Body.inside]⟩
    · rw [Node.below, hbody] at hk
      obtain ⟨p, hp, hkp⟩ := exists_of_forall₂_left haligned.forall₂_values hk
      refine ⟨Eq p.type, ?_, fun _ he => he ▸ hK.property hread hp, hkp.portrays rfl⟩
      rintro _ rfl
      exact ⟨_, hs, Relation.ReflTransGen.single (.property (Document.mem_of_mem_declared hp))⟩
  | composed kind parts =>
    rw [Graph.Depicts] at hdepicts
    simp only [body, hdepicts]
    exact delivers_visitComposed hv ho h hd hK hs hread hdepicts
      (hshallow.members kind parts hdepicts) hcovers.below _

include hv ho hX hA h in
/-- What a visit does inside its node succeeds. -/
theorem delivers_body (hd : d.Layered) (hraw : d.raw.Within R D) (hK : d.Readable K)
    (hi : c.graph.Portrays S i) (hS : ∀ s, S s → K s) (hlow : Low R c.graph (k + 1) i)
    (hcovers : Covers R D c (k + 1) (fuel + 1)) : Delivers (body d v i (c.graph.node i)) c := by
  cases hi with
  | declaration hdepicts hs =>
    exact delivers_declaration hv ho hX hA h hd hraw hK hdepicts hs (hS _ hs) hlow hcovers
  | @reference _ slot arguments link hbody hs =>
    have h' := (sketched_of_below_eq_nil h (by rw [Node.below, hbody])).only hs
    have href := hlow.1.reference link (by rw [hbody]; rfl)
    simp only [body, hbody]
    exact delivers_follow hv hraw hK h' (hS _ hs) href hcovers _
  | around hplain hbelow =>
    exact delivers_around hv ho hX hA h hplain
      (fun k hk => ⟨S, fun s hs => ⟨s, hs, Relation.ReflTransGen.refl⟩, hS, hbelow k hk⟩) hlow.2
      hcovers.below
  | @choice _ declared shapes helements hbody hs =>
    have h' := (sketched_of_below_eq_nil h (by rw [Node.below, hbody])).only hs
    have hshapes := delivers_visitShapes hv hK helements h' ho.sprout.bud (hS _ hs)
      (hlow.1.shapes shapes hbody) hcovers.below
    simp only [body, hbody]
    cases shapes with
    | nil => exact absurd helements (hK.shape (hS _ hs))
    | cons first rest => exact hshapes

end

theorem delivers_within {m : Run Unit} (h : Delivers m (c.enter (some i))) : Delivers (Run.within i m) c := by
  obtain ⟨a, c', h⟩ := h
  exact ⟨a, c'.leave, by rw [Run.within, h]⟩

/-- One visit succeeds when those of the nodes below do. -/
theorem achieves_step (hv : Achieves A d q K R D fuel v) (hd : d.Layered) (hraw : d.raw.Within R D)
    (hK : d.Readable K) : Achieves A d q K R D (fuel + 1) (step d v) := by
  refine ⟨draws_step hv.draws hd, ?_⟩
  intro X S c i top k h hb hX hA hi hS hlow hcovers
  obtain ⟨k, rfl⟩ : ∃ m, k = m + 1 := ⟨k - 1, by have := hlow.pos; omega⟩
  show Delivers (do
    unless (c.graph.node i).visited do
      Run.within i do
        body d v i (c.graph.node i)
        Run.update i fun n => { n with visited := true } : Run Unit) c
  rw [hb.sprout.bud.unvisited]
  refine delivers_within (Delivers.bind ?_ fun _ _ _ => ⟨(), _, rfl⟩)
  exact delivers_body hv hb.opened hX hA (sketched_enter h hb) hd hraw hK hi hS hlow hcovers

/-- Visits of any depth that is enough succeed. -/
theorem achieves_visitWithin (hd : d.Layered) (hraw : d.raw.Within R D) (hK : d.Readable K)
    (depth : Nat) : Achieves A d q K R D depth (visitWithin d depth) := by
  induction depth with
  | zero =>
    refine ⟨draws_visitWithin hd 0, ?_⟩
    intro X S c i top k _ _ _ _ _ _ hlow hcovers
    have := hlow.pos
    rw [Covers] at hcovers
    omega
  | succ depth ih => exact achieves_step ih hd hraw hK

end Visit

end ApiGraph
