import ApiGraph.Proofs.Finishing.Gathering
import ApiGraph.Proofs.Grouping.Visits

/-!
# Groups of members

Some consecutive members of a composition are put into a composition of their own, which is declared in
their place. What it gathers is what they bring in.

* `OrderedMap.insertAll_assoc` — properties are gathered in any grouping;
* `Json.Regrouped` — the same members, some of them in groups;
* `Visit.step_of_group_ok`, `Visit.step_of_group_error` — what the visit of a group does;
* `Footing.alike_regrouped` — members are gathered alike, however they are grouped.
-/

namespace ApiGraph

open OrderedMap Context Visit

/-! ## Gathering in any grouping -/

namespace OrderedMap

variable {κ α : Type} [BEq κ] [EquivBEq κ] {key other : κ} {m more : OrderedMap κ α}

omit [EquivBEq κ] in
theorem distinct_nil : Distinct (keys ([] : OrderedMap κ α)) := List.Pairwise.nil

/-- Of two values of one key the last one stays. -/
theorem insert_insert (h : other == key) (value old : α) (m : OrderedMap κ α) :
    insert key value (insert other old m) = insert other value m := by
  induction m with
  | nil => simp [insert, h]
  | cons e rest ih =>
    obtain ⟨k, a⟩ := e
    by_cases hk : k == other
    · simp [insert, hk, BEq.trans hk h]
    · have hk' : (k == key) = false := by rw [← BEq.congr_right h]; simpa using hk
      simp [insert, hk, hk', ih]

/-- A key that is there stays where it is, so that it does not matter when it gets its new value. -/
theorem insert_comm (h : contains key m) (hne : (other == key) = false) (value a : α) :
    insert key value (insert other a m) = insert other a (insert key value m) := by
  induction m with
  | nil => cases h
  | cons e rest ih =>
    obtain ⟨k, b⟩ := e
    by_cases hk : k == key
    · have hk' : (k == other) = false := by
        rw [BEq.congr_left hk, BEq.comm]
        exact hne
      simp [insert, hk, hk']
    · have hrest : contains key rest := by
        rw [contains, get?_cons, if_neg hk] at h
        exact h
      by_cases hk' : k == other
      · simp [insert, hk, hk']
      · simp [insert, hk, hk', ih hrest]

theorem insert_insertAll_of_contains (h : contains key m) (hnew : get? key more = none) (value : α) :
    insert key value (insertAll m more) = insertAll (insert key value m) more := by
  induction more generalizing m with
  | nil => rfl
  | cons e rest ih =>
    obtain ⟨k, a⟩ := e
    have hkeys := get?_eq_none_iff_beq.1 hnew
    have hne : (k == key) = false := hkeys k List.mem_cons_self
    have hrest : get? key rest = none :=
      get?_eq_none_iff_beq.2 fun k' hk' => hkeys k' (List.mem_cons_of_mem _ hk')
    have hcontains : contains key (insert k a m) := by
      rw [contains, get?_insert_of_beq_false hne]
      exact h
    show insert key value (insertAll (insert k a m) rest) = insertAll (insert k a (insert key value m)) rest
    rw [ih hcontains hrest, insert_comm h hne]

theorem insert_insertAll (h : Distinct (keys more)) (key : κ) (value : α) (m : OrderedMap κ α) :
    insert key value (insertAll m more) = insertAll m (insert key value more) := by
  induction more generalizing m with
  | nil => rfl
  | cons e rest ih =>
    obtain ⟨k, a⟩ := e
    obtain ⟨hnew, hrest⟩ := List.pairwise_cons.1 h
    show insert key value (insertAll (insert k a m) rest) = _
    by_cases hk : k == key
    · have hcontains : contains key (insert k a m) := by
        rw [contains, get?_insert, if_pos hk]
        rfl
      have hnone : get? key rest = none := get?_eq_none_iff_beq.2 fun k' hk' => by
        rw [← BEq.congr_right hk, BEq.comm]
        exact hnew k' hk'
      rw [insert_insertAll_of_contains hcontains hnone, insert_insert hk, insert, if_pos hk]
      rfl
    · rw [ih hrest, insert, if_neg hk]
      rfl

/-- Properties that are gathered in two steps may be gathered in one. -/
theorem insertAll_assoc (h : Distinct (keys m)) (first more : OrderedMap κ α) :
    insertAll (insertAll first m) more = insertAll first (insertAll m more) := by
  induction more generalizing m with
  | nil => rfl
  | cons e rest ih =>
    show insertAll (insert e.1 e.2 (insertAll first m)) rest =
      insertAll first (insertAll (insert e.1 e.2 m) rest)
    rw [insert_insertAll h, ih (distinct_keys_insert h _ _)]

end OrderedMap

namespace Visit

variable {v : Visitor} {i : NodeId} {c c' : Context}

theorem collectFrom_append (v : Visitor) (i : NodeId) (collected : OrderedMap Key NodeId)
    (xs ys : List Json) : collectFrom v i collected (xs ++ ys) =
      collectFrom v i collected xs >>= fun gathered => collectFrom v i gathered ys := by
  induction xs generalizing collected with
  | nil => rfl
  | cons x xs ih => simp only [List.cons_append, collectFrom, bind_assoc, ih]

/-- What is gathered after something else is gathered on its own, and put after it. -/
theorem collectFrom_insertAll (v : Visitor) (i : NodeId) (before : OrderedMap Key NodeId)
    {collected : OrderedMap Key NodeId} (h : Distinct (keys collected)) (members : List Json) :
    collectFrom v i (insertAll before collected) members =
      (insertAll before ·) <$> collectFrom v i collected members := by
  induction members generalizing collected with
  | nil => simp [collectFrom]
  | cons schema rest ih =>
    simp only [collectFrom, map_bind]
    refine bind_congr fun member => bind_congr fun _ => bind_congr fun props => ?_
    rw [insertAll_assoc h, ih (distinct_keys_insertAll h props)]

/-- What some members bring in is gathered on its own first. -/
theorem collectFrom_append_insertAll (v : Visitor) (i : NodeId) (collected : OrderedMap Key NodeId)
    (xs ys : List Json) : collectFrom v i collected (xs ++ ys) =
      collectFrom v i [] xs >>= fun gathered => collectFrom v i (insertAll collected gathered) ys := by
  have hown : collectFrom v i collected xs = (insertAll collected ·) <$> collectFrom v i [] xs :=
    collectFrom_insertAll v i collected distinct_nil xs
  rw [collectFrom_append, hown, bind_map_left]

theorem collectFrom_cons (v : Visitor) (i : NodeId) (collected : OrderedMap Key NodeId) (schema : Json)
    (rest : List Json) : collectFrom v i collected (schema :: rest) = (do
      let member ← Build.fromSchema (some i) schema
      v member
      Run.onGraph fun g => g.propertiesOf member) >>= fun props =>
        collectFrom v i (insertAll collected props) rest := by
  simp only [bind_assoc]
  rfl

theorem distinct_of_collectFrom {collected gathered : OrderedMap Key NodeId} {members : List Json}
    (h : Distinct (keys collected)) (hrun : collectFrom v i collected members c = .ok gathered c') :
    Distinct (keys gathered) := by
  induction members generalizing collected c with
  | nil =>
    cases hrun
    exact h
  | cons schema rest ih =>
    obtain ⟨member, c₁, -, hrun⟩ := bind_eq_ok_iff.1 hrun
    obtain ⟨-, c₂, -, hrun⟩ := bind_eq_ok_iff.1 hrun
    obtain ⟨props, c₃, -, hrun⟩ := bind_eq_ok_iff.1 hrun
    exact ih (distinct_keys_insertAll h props) hrun

end Visit

/-! ## The visit of a group -/

/-- The same members, of which some consecutive ones are put into groups, to any depth. -/
inductive Json.Regrouped : List Json → List Json → Prop
  | nil : Regrouped [] []
  | member (schema : Json) {rest rest' : List Json} (h : Regrouped rest rest') :
    Regrouped (schema :: rest) (schema :: rest')
  | group {inner inner' rest rest' : List Json} (hinner : Regrouped inner inner')
    (hrest : Regrouped rest rest') : Regrouped (inner ++ rest) (.group inner' :: rest')

/-- The node of a group. -/
def Node.ofGroup (parent : NodeId) (members : List Json) : Node :=
  { body := .composed .allOf (some (.arr members)), parent := some parent }

namespace Context

/-- A node is made for a group. -/
def plantGroup (c : Context) (parent : NodeId) (members : List Json) : Context :=
  { c with
    graph := (c.graph.alloc (.ofGroup parent members)).2
    transcript := .planted (some parent) (.group members) ⟨c.graph.size⟩ :: c.transcript }

/-- The visit of a group begins. -/
def openGroup (c : Context) (g : NodeId) : Context :=
  after (Run.trace "-> [composed]" "in: [object]") (c.enter (some g))

theorem graph_openGroup (c : Context) (g : NodeId) : (c.openGroup g).graph = c.graph := rfl

/-- The visit of a group ends, and it has taken over some properties. -/
def closeGroup (c : Context) (g : NodeId) (gathered : OrderedMap Key NodeId) : Context :=
  let c₁ := after (Run.trace "<- [composed]" "out: [object]") { c with graph := c.graph.gather g gathered }
  leave { c₁ with graph := c₁.graph.update g fun n => { n with visited := true } }

end Context

namespace Visit

variable {d : Document} {v : Visitor} {c c₁ : Context} {g parent : NodeId} {members : List Json}

theorem fromSchema_group (c : Context) (parent : NodeId) (members : List Json) :
    Build.fromSchema (some parent) (.group members) c =
      .ok ⟨c.graph.size⟩ (c.plantGroup parent members) := by
  have hread : Schema.read (c.graph.owner (some parent)) (.group members) =
      .ok (.composed .allOf (.arr members)) := rfl
  rw [fromSchema_of_read_eq_ok hread, Graph.plant]
  rfl

theorem collect_of_body (hbody : (c.graph.node g).body = .composed .allOf (some (.arr members))) :
    collect v g c = collectFrom v g [] members c := by
  show (Run.lift (expect (c.graph.node g).allOfMembers?) >>= fun value =>
    Run.lift value.elements >>= collectFrom v g []) c = _
  rw [Node.allOfMembers?, hbody]
  rfl

/-- Deep inside of compositions, every place is inside of one. -/
theorem inComposition_of_lt (h : 1 < c.composeDepth) (j : Option NodeId) : c.inComposition j = true := by
  rw [Context.inComposition]
  split <;> simp <;> omega

/-- Inside of its node, the visit of a group gathers what its members bring in. -/
theorem body_of_group (hnode : c.graph.node g = .ofGroup parent members) (hdepth : 1 < c.composeDepth) :
    body d v g (c.graph.node g) c =
      (visitAllOf v g >>= fun _ => Run.trace "<- [composed]" "out: [object]")
        (after (Run.trace "-> [composed]" "in: [object]") c) := by
  have hin : (after (Run.trace "-> [composed]" "in: [object]") c).inComposition g = true :=
    inComposition_of_lt (c := after (Run.trace "-> [composed]" "in: [object]") c) hdepth _
  have htrace : Run.trace "-> [composed]" ("in: " ++ (Node.ofGroup parent members).nameOr "[object]") c =
      .ok () (after (Run.trace "-> [composed]" "in: [object]") c) := rfl
  rw [hnode]
  show (visitComposed v g (.ofGroup parent members) .allOf (some (.arr members))) c = _
  rw [visitComposed, bind_of_ok htrace, bind_of_ok (m := get) rfl]
  simp only [hin, if_true]
  rfl

/-- What is done inside of a group. -/
def insideGroup (v : Visitor) (g : NodeId) : Run Unit := do
  visitAllOf v g
  Run.trace "<- [composed]" "out: [object]"
  Run.update g fun n => { n with visited := true }

theorem composeDepth_enter_of_group (hnode : c.graph.node g = .ofGroup parent members) :
    (c.enter (some g)).composeDepth = c.composeDepth + 1 := by
  have hcomposed : c.isComposition (some g) = true := by
    show (c.graph.node g).body.isComposed = true
    rw [hnode]
    rfl
  show (if c.isComposition (some g) then c.composeDepth + 1 else c.composeDepth) = _
  rw [if_pos hcomposed]

/-- The visit of a group ends as what is done inside of it does. -/
theorem step_of_group (hnode : c.graph.node g = .ofGroup parent members) (hdepth : 0 < c.composeDepth) :
    outcome (step d v g) c = outcome (insideGroup v g) (c.openGroup g) ∧
      after (step d v g) c = (after (insideGroup v g) (c.openGroup g)).leave := by
  have hdepth' : 1 < (c.enter (some g)).composeDepth := by
    rw [composeDepth_enter_of_group hnode]
    omega
  have hbody := body_of_group (d := d) (v := v) (c := c.enter (some g)) hnode hdepth'
  have hinside : (do
      body d v g (c.graph.node g)
      Run.update g fun n => { n with visited := true } : Run Unit) (c.enter (some g)) =
        insideGroup v g (c.openGroup g) := by
    rw [insideGroup, ← bind_assoc]
    show EStateM.bind _ _ _ = EStateM.bind _ _ _
    rw [EStateM.bind, EStateM.bind]
    rw [graph_enter] at hbody
    rw [hbody]
    rfl
  have hstep : step d v g c = Run.within g (do
      body d v g (c.graph.node g)
      Run.update g fun n => { n with visited := true } : Run Unit) c := by
    show (if (c.graph.node g).visited then pure () else Run.within g (do
      body d v g (c.graph.node g)
      Run.update g fun n => { n with visited := true }) : Run Unit) c = _
    rw [hnode]
    rfl
  rw [outcome, after, hstep, ← outcome, ← after, outcome_within, after_within, outcome, after, hinside,
    ← outcome, ← after]
  exact ⟨rfl, rfl⟩

/-- Where its members can not be visited, a group can not either. -/
theorem step_of_group_error (hnode : c.graph.node g = .ofGroup parent members) (hdepth : 0 < c.composeDepth)
    {fault : Fault} (hrun : collectFrom v g [] members (c.openGroup g) = .error fault c₁) :
    step d v g c = .error fault c₁.leave := by
  obtain ⟨houtcome, hafter⟩ := step_of_group (d := d) (v := v) hnode hdepth
  have hcollect : collect v g (c.openGroup g) = .error fault c₁ :=
    (collect_of_body (by rw [graph_openGroup, hnode]; rfl)).trans hrun
  have hinside : insideGroup v g (c.openGroup g) = .error fault c₁ := bind_of_error (bind_of_error hcollect)
  rw [outcome_of_error hinside] at houtcome
  rw [after_of_error hinside] at hafter
  rw [eq_error_of_outcome houtcome, hafter]

variable {gathered : OrderedMap Key NodeId}

/-- Where its members can be visited, a group takes over what they bring in. -/
theorem step_of_group_ok (hnode : c.graph.node g = .ofGroup parent members) (hdepth : 0 < c.composeDepth)
    (hrun : collectFrom v g [] members (c.openGroup g) = .ok gathered c₁) (hdepth₁ : 1 < c₁.composeDepth)
    (hnode₁ : c₁.graph.node g = .ofGroup parent members) (hlt : g.index < c₁.graph.size)
    (hlabelled : ∀ e ∈ gathered, c₁.graph.Labelled e) :
    step d v g c = .ok () (c₁.closeGroup g gathered) := by
  obtain ⟨houtcome, hafter⟩ := step_of_group (d := d) (v := v) hnode hdepth
  have hcollect : collect v g (c.openGroup g) = .ok gathered c₁ :=
    (collect_of_body (by rw [graph_openGroup, hnode]; rfl)).trans hrun
  have hin : c₁.inComposition g = true := inComposition_of_lt hdepth₁ _
  have hname : ((c₁.graph.gather g gathered).node g).name = .null := by
    rw [(Graph.kept_gather (by rw [hnode₁]; rfl) gathered g).name, hnode₁]
    rfl
  have hstore : storeNamed g { c₁ with graph := c₁.graph.gather g gathered } =
      .ok () { c₁ with graph := c₁.graph.gather g gathered } := by
    show (if ((c₁.graph.gather g gathered).node g).name.isNull then pure () else _ : Run Unit) _ = _
    rw [hname]
    rfl
  have hvisit : visitAllOf v g (c.openGroup g) = .ok () { c₁ with graph := c₁.graph.gather g gathered } := by
    rw [visitAllOf, bind_of_ok hcollect, bind_of_ok (m := get) rfl]
    simp only [hin, if_true, pure_bind]
    rw [bind_of_ok (putEach_eq hlt hlabelled), hstore]
  have hinside : outcome (insideGroup v g) (c.openGroup g) = .ok () ∧
      (after (insideGroup v g) (c.openGroup g)).leave = c₁.closeGroup g gathered := by
    rw [outcome, after, insideGroup, bind_of_ok hvisit]
    exact ⟨rfl, rfl⟩
  rw [hinside.1] at houtcome
  rw [hinside.2] at hafter
  rw [eq_ok_of_outcome houtcome, hafter]

/-- What a group has gathered is what it brings in. -/
theorem propertiesOf_closeGroup (hnode : c.graph.node g = .ofGroup parent members)
    (hlt : g.index < c.graph.size) (h : Distinct (keys gathered)) :
    (c.closeGroup g gathered).graph.propertiesOf g = .ok gathered := by
  have hgraph : (c.closeGroup g gathered).graph =
      (c.graph.gather g gathered).update g fun n => { n with visited := true } := (still_leave _).graph
  have hlt' : g.index < (c.graph.gather g gathered).size := by rwa [Graph.size_gather]
  have hbody : ((c.graph.gather g gathered).node g).body = .composed .allOf (some (.arr members)) := by
    rw [(Graph.kept_gather (by rw [hnode]; rfl) gathered g).body_eq (by rw [hnode]; rfl), hnode]
    rfl
  have hprops : ((c.graph.gather g gathered).node g).props = gathered := by
    rw [Graph.props_gather hlt, hnode]
    exact insertAll_of_distinct h
  rw [hgraph, Graph.propertiesOf, Graph.propertiesWithin, Graph.node_update_self _ hlt', hbody]
  exact congrArg Except.ok hprops

end Visit

/-! ## Groups in one of two runs -/

/-- A node that only the second graph has takes over properties. -/
theorem Graph.Beside.gather {q : Option NodeId} {odd : NodeId → Prop} {k : NodeId} {n : Node}
    {spare : List (NodeId × Node)} {σ : NodeId → NodeId} {g g' : Graph}
    (h : Graph.Beside q odd ((k, n) :: spare) σ g g') (hspare : ∀ e ∈ spare, e.1 ≠ k)
    (m : OrderedMap Key NodeId) : ∃ n', Graph.Beside q odd ((k, n') :: spare) σ g (g'.gather k m) := by
  induction m generalizing n g' with
  | nil => exact ⟨n, h⟩
  | cons e rest ih => exact ih (h.change (Node.name_putProperty _ _ _) (Node.parent_putProperty _ _ _) hspare)

namespace Footing

variable {d : Document} {R : List Json} {D fuel k : Nat} {F : Footing} {σ τ : NodeId → NodeId}
  {c c' : Context} {i i' g : NodeId} {n : Node} {members members' : List Json}

/-- Both runs are inside of a composition. -/
structure Deep (F : Footing) : Prop where
  depth : 0 < F.depth
  depth' : 0 < F.depth'

theorem Deep.level (h : F.Deep) : F.Level := ⟨fun _ => h.depth', fun _ => h.depth⟩

/-- Where two runs are when the second one has gone into a group. -/
def inGroup (F : Footing) (g : NodeId) (n : Node) : Footing :=
  { F with stack' := some g :: F.stack', depth' := F.depth' + 1, spare := (g, n) :: F.spare }

theorem Deep.inGroup (h : F.Deep) (g : NodeId) (n : Node) : (F.inGroup g n).Deep :=
  ⟨h.depth, Nat.lt_succ_of_lt h.depth'⟩

/-- Nothing is stored that is not there. -/
theorem lt_size_of_mem_types {q : Option NodeId} (hs : c.Sound d q) {a : Option NodeId} {j : NodeId}
    (ha : a ∈ values c.types) (hj : a = some j) : j.index < c.graph.size := by
  obtain ⟨e, he, rfl⟩ := List.mem_map.1 ha
  obtain ⟨ref, j', hbuilt, -, hfound⟩ := hs.exists_some he
  rw [hfound] at hj
  cases hj
  exact (hs.built ref _ hbuilt).2.1

/-- The second run makes a node for a group and goes into it. -/
theorem Beside.openGroup (h : F.Beside σ c c') (hs : c.Sound d F.query) (hi : i.index < c.graph.size)
    (hrises : c'.graph.Rises σ (some i') (some (σ i))) (members : List Json) :
    (F.inGroup ⟨c'.graph.size⟩ (.ofGroup i' members)).Beside (Graph.Beside.shifted σ c.graph.size) c
      ((c'.plantGroup i' members).openGroup ⟨c'.graph.size⟩) := by
  have hp : ∀ k, some i = some k → k.index < c.graph.size := by
    rintro _ ⟨⟩
    exact hi
  have hname : (Node.ofGroup i' members).name = .null := rfl
  obtain ⟨hgraph, -⟩ := h.graph.insert hname hp hrises
  have htypes : c'.types = mapValues (Option.map (Graph.Beside.shifted σ c.graph.size)) c.types := by
    rw [h.types]
    refine mapValues_congr fun a ha => map_congr_of_mem_toList fun j hj => ?_
    exact (Graph.Beside.shifted_of_lt (lt_size_of_mem_types hs ha (Option.mem_toList.1 hj))).symm
  have hcomposed : (c'.plantGroup i' members).isComposition (some ⟨c'.graph.size⟩) = true := by
    show ((c'.graph.alloc (.ofGroup i' members)).2.node
      (c'.graph.alloc (.ofGroup i' members)).1).body.isComposed = true
    rw [Graph.node_alloc_self]
    rfl
  refine ⟨hgraph, htypes, h.stack, h.depth, ?_, ?_, h.oracle, ?_⟩
  · show some (⟨c'.graph.size⟩ : NodeId) :: c'.stack = _
    rw [h.stack']
    rfl
  · show (if (c'.plantGroup i' members).isComposition (some ⟨c'.graph.size⟩) then
      (c'.plantGroup i' members).composeDepth + 1 else _) = _
    rw [if_pos hcomposed]
    exact congrArg (· + 1) h.depth'
  · exact .aside' rfl (.aside' rfl (.group _ _ _
      (h.told.mono le_rfl fun j hj => Graph.Beside.shifted_of_lt hj)))

/-- The second run goes out of a group. -/
theorem Beside.leaveGroup (h : (F.inGroup g n).Beside τ c c')
    (hcomposed : (c'.graph.node g).body.isComposed = true) : F.Beside τ c c'.leave := by
  have hstack : c'.stack = some g :: F.stack' := h.stack'
  rw [leave_of_stack hstack]
  refine ⟨h.graph.forget, h.types, h.stack, h.depth, rfl, ?_, h.oracle, .aside' rfl h.told⟩
  show (if (c'.graph.node g).body.isComposed then c'.composeDepth - 1 else c'.composeDepth) = F.depth'
  rw [hcomposed, h.depth']
  rfl

/-- The second run goes out of a group that has taken over some properties. -/
theorem Beside.closeGroup (h : (F.inGroup g n).Beside τ c c') (hn : n.body.isComposed = true)
    (hspare : ∀ e ∈ F.spare, e.1 ≠ g) (gathered : OrderedMap Key NodeId) :
    F.Beside τ c (c'.closeGroup g gathered) := by
  obtain ⟨hlt, -, hnode⟩ := (List.forall_mem_cons.1 h.graph.spared).1
  obtain ⟨n₁, hgathered⟩ := h.graph.gather hspare gathered
  have hvisited := hgathered.change (f := fun n => { n with visited := true }) rfl rfl hspare
  have hcomposed : ((c'.graph.gather g gathered).node g).body.isComposed = true := by
    have hold : (c'.graph.node g).body.isComposed = true := by rwa [hnode]
    rw [(Graph.kept_gather hold gathered g).isComposed, hold]
  refine Beside.leaveGroup (n := { n₁ with visited := true })
    ⟨hvisited, h.types, h.stack, h.depth, h.stack', h.depth', h.oracle, .aside' rfl h.told⟩ ?_
  show (((c'.graph.gather g gathered).update g fun n =>
    { n with visited := true }).node g).body.isComposed = true
  rw [Graph.node_update_self _ (by rwa [Graph.size_gather])]
  exact hcomposed

/-- Places that only groups lie between. -/
inductive Leads (F : Footing) (j : NodeId) : NodeId → Prop
  | here : Leads F j j
  | up {p g : NodeId} {members : List Json} (hmem : (g, Node.ofGroup p members) ∈ F.spare)
    (h : Leads F j p) : Leads F j g

theorem Leads.rises {j : NodeId} (h : F.Leads j i') (hbeside : F.Beside σ c c') :
    c'.graph.Rises σ (some i') (some j) := by
  induction h with
  | here => exact .refl _
  | up hmem _ ih =>
    obtain ⟨hlt, hspare, hnode⟩ := hbeside.graph.spared _ hmem
    refine .step hlt hspare (by rw [hnode]; rfl) ?_
    rw [hnode]
    exact ih

theorem Leads.mono {j m : NodeId} (h : F.Leads j m) (g : NodeId) (n : Node) : (F.inGroup g n).Leads j m := by
  induction h with
  | here => exact .here
  | up hmem _ ih => exact .up (List.mem_cons_of_mem _ hmem) ih

theorem Leads.inGroup {j : NodeId} (h : F.Leads j i') (g : NodeId) (members : List Json) :
    (F.inGroup g (.ofGroup i' members)).Leads j g :=
  .up List.mem_cons_self (h.mono _ _)

/-- The properties are bound under their names in the second graph, too. -/
theorem Gathers.labelled' {m m' : OrderedMap Key NodeId} (h : Gathers τ c m m') (hbeside : F.Beside τ c c') :
    ∀ e ∈ m', c'.graph.Labelled e := by
  rw [h.eq]
  intro e he
  obtain ⟨e₀, he₀, rfl⟩ := List.mem_map.1 he
  obtain ⟨s, hkey, hname⟩ := h.labelled e₀ he₀
  exact ⟨s, hkey, (hbeside.graph.twins e₀.2).name.trans hname⟩

/-- What the members of a group bring in is what the group does. -/
theorem alike_group (hF : F.Deep) (h : F.Beside σ c c') (hs : c.Sound d F.query)
    (hi : i.index < c.graph.size) (hleads : F.Leads (σ i) i') {v' : Visitor}
    {gather : Run (OrderedMap Key NodeId)}
    (hgather : ∀ {τ c₁'}, (∀ j : NodeId, j.index < c.graph.size → τ j = σ j) →
      (F.inGroup ⟨c'.graph.size⟩ (.ofGroup i' members)).Beside τ c c₁' →
        (F.inGroup ⟨c'.graph.size⟩ (.ofGroup i' members)).Alike τ Gathers gather
          (collectFrom v' ⟨c'.graph.size⟩ [] members) c c₁')
    (hdistinct : ∀ m c₁, gather c = .ok m c₁ → Distinct (keys m)) :
    F.Alike σ Gathers gather (do
      let member ← Build.fromSchema (some i') (.group members)
      step d v' member
      Run.onGraph fun g => g.propertiesOf member) c c' := by
  have hopen := h.openGroup hs hi (hleads.rises h) members
  have hold : ∀ j : NodeId, j.index < c.graph.size → Graph.Beside.shifted σ c.graph.size j = σ j :=
    fun j hj => Graph.Beside.shifted_of_lt hj
  have hspare : ∀ e ∈ F.spare, e.1 ≠ (⟨c'.graph.size⟩ : NodeId) := by
    rintro e he heq
    have hlt := (h.graph.spared e he).1
    rw [heq] at hlt
    exact Nat.lt_irrefl _ hlt
  have hnode : (c'.plantGroup i' members).graph.node ⟨c'.graph.size⟩ = .ofGroup i' members :=
    Graph.node_alloc_self _ _
  have hdepth : 0 < (c'.plantGroup i' members).composeDepth := by
    show 0 < c'.composeDepth
    rw [h.depth']
    exact hF.depth'
  have hplant : (do
      let member ← Build.fromSchema (some i') (.group members)
      step d v' member
      Run.onGraph fun g => g.propertiesOf member : Run (OrderedMap Key NodeId)) c' = (do
      step d v' ⟨c'.graph.size⟩
      Run.onGraph fun g => g.propertiesOf ⟨c'.graph.size⟩ : Run (OrderedMap Key NodeId))
        (c'.plantGroup i' members) := bind_of_ok (fromSchema_group c' i' members)
  refine Alike.of_eq ?_ rfl hplant le_rfl fun _ _ => rfl
  -- The second run is inside of the group while it gathers, and goes out of it however that ends.
  obtain ⟨τ, c₁, c₁', hsize, hτ, hbeside, hends⟩ := (hgather hold hopen).ends
  have hτ' : ∀ j : NodeId, j.index < c.graph.size → τ j = σ j := fun j hj => (hτ j hj).trans (hold j hj)
  obtain ⟨hlt₁, -, hnode₁⟩ := (List.forall_mem_cons.1 hbeside.graph.spared).1
  dsimp only at hlt₁ hnode₁
  rcases hends with ⟨m, m', hrun, hrun', hgathers⟩ | ⟨fault, hrun, hrun'⟩
  · have hkeys : Distinct (keys m') := by
      rw [hgathers.eq, keys_mapValues]
      exact hdistinct m _ hrun
    have hdepth₁ : 1 < c₁'.composeDepth := by
      rw [hbeside.depth']
      exact Nat.succ_lt_succ hF.depth'
    have hstep := step_of_group_ok (d := d) hnode hdepth hrun' hdepth₁ hnode₁ hlt₁ (hgathers.labelled' hbeside)
    have hread : Run.onGraph (fun g => g.propertiesOf ⟨c'.graph.size⟩)
        (c₁'.closeGroup ⟨c'.graph.size⟩ m') = .ok m' (c₁'.closeGroup ⟨c'.graph.size⟩ m') := by
      show Run.lift ((c₁'.closeGroup ⟨c'.graph.size⟩ m').graph.propertiesOf ⟨c'.graph.size⟩) _ = _
      rw [propertiesOf_closeGroup hnode₁ hlt₁ hkeys]
      rfl
    exact (alike_pure (hbeside.closeGroup rfl hspare m') hgathers).of_eq hrun
      ((bind_of_ok hstep).trans hread) hsize hτ'
  · have hstep := step_of_group_error (d := d) hnode hdepth hrun'
    have hcomposed : (c₁'.graph.node ⟨c'.graph.size⟩).body.isComposed = true := by
      rw [hnode₁]
      rfl
    exact (alike_throw (hbeside.leaveGroup hcomposed) fault).of_eq hrun (bind_of_error hstep) hsize hτ'

/-- The same properties are gathered from members and from groups of them. -/
theorem alike_regrouped (hd : d.raw.Within R D) (hregrouped : Json.Regrouped members members')
    {collected collected' : OrderedMap Key NodeId} {depth depth' : Nat} (hF : F.Deep)
    (h : F.Beside σ c c') (hs : c.Sound d F.query) (hodd : F.Past c.graph.size)
    (hi : i.index < c.graph.size) (hleads : F.Leads (σ i) i') (hcollected : Gathers σ c collected collected')
    (hmembers : ∀ e ∈ members, e.isObject = true → e.Within R k) (hcovers : Covers R D c k fuel)
    (hfuel : fuel ≤ depth) (hfuel' : fuel + Json.depthItems members' ≤ depth') :
    F.Alike σ Gathers (collectFrom (visitWithin d depth) i collected members)
      (collectFrom (visitWithin d depth') i' collected' members') c c' := by
  have hv : ∀ q, Visits d q (visitWithin d depth) := fun _ => visits_visitWithin depth
  -- The second run may go as much deeper as what is left of the groups is deep, so that its depth is general.
  induction hregrouped generalizing F σ c c' i' collected collected' depth' with
  | nil => exact alike_pure h hcollected
  | member schema hrest ih =>
    obtain ⟨hschema, hmembers⟩ := List.forall_mem_cons.1 hmembers
    rw [Json.depthItems] at hfuel'
    refine alike_collectFrom_cons hv (lockstep_visitWithin hd hfuel (by omega)) hF.level h hs hodd hi
      (hleads.rises h) hschema hcovers fun τ c₁ c₁' props hτ hgrows hs₁ h₁ hprops => ?_
    exact ih hF h₁ hs₁ (hodd.mono hgrows.size_le) (hi.trans_le hgrows.size_le) ((hτ i hi).symm ▸ hleads)
      (hcollected.insertAll hτ hgrows hprops) hmembers (hcovers.grows hgrows) (by omega)
  | @group inner inner' rest rest' hinner hrest ihInner ihRest =>
    rw [Json.depthItems, Json.group, Json.depth, Json.depthMembers, Json.depth] at hfuel'
    obtain ⟨depth', rfl⟩ : ∃ m, depth' = m + 1 := ⟨depth' - 1, by omega⟩
    rw [collectFrom_append_insertAll, collectFrom_cons]
    have hgroup : F.Alike σ Gathers (collectFrom (visitWithin d depth) i [] inner) (do
        let member ← Build.fromSchema (some i') (.group inner')
        step d (visitWithin d depth') member
        Run.onGraph fun g => g.propertiesOf member) c c' := by
      refine alike_group hF h hs hi hleads (fun {τ c₁'} hτ hbeside => ?_) fun m c₁ hrun =>
        distinct_of_collectFrom distinct_nil hrun
      exact ihInner (hF.inGroup _ _) hbeside hs hodd hi
        ((hτ i hi).symm ▸ hleads.inGroup _ _) ⟨rfl, by simp⟩
        (fun e he => hmembers e (List.mem_append_left _ he)) hcovers (by omega)
    refine hgroup.works_bind (works_collectFrom (hv F.query) hs (P := c.Old) (fun _ hj => hj) i [] inner)
      fun τ m m' c₁ c₁' hτ hgrows hs₁ _ h₁ hgathers => ?_
    rw [hgathers.eq]
    exact ihRest hF h₁ hs₁ (hodd.mono hgrows.size_le) (hi.trans_le hgrows.size_le)
      ((hτ i hi).symm ▸ hleads) (hcollected.insertAll hτ hgrows hgathers.labelled)
      (fun e he => hmembers e (List.mem_append_right _ he)) (hcovers.grows hgrows) (by omega)

end Footing

end ApiGraph
