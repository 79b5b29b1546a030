import ApiGraph.Proofs.Grouping.Groups
import ApiGraph.Proofs.Visiting.Sequences

/-!
# Compositions with their members in groups

Whatever consecutive members of a composition are put into groups, its visit does the same.

* `Footing.ofState` — where two runs are that begin in one state;
* `Visit.Grown`, `Visit.Grown.kempt` — the graphs that are built and visited are kempt;
* `Context.withMembers` — the same state, but for the members of one composition;
* `Context.Matches` — what two runs have done to a composition is the same, as far as can be seen;
* `Visit.depthBound_slack` — groups do not go deeper than visits may;
* `Visit.visit_regrouped` — nothing is seen of groups.
-/

namespace ApiGraph

open OrderedMap Context Visit Footing

/-! ## Runs that begin in one state -/

section

variable {d : Document} {q : Option NodeId} {c : Context} {i : NodeId} {odd : NodeId → Prop}

/-- Where two runs are that begin in one state. -/
def Footing.ofState (q : Option NodeId) (odd : NodeId → Prop) (c : Context) : Footing :=
  ⟨q, odd, c.transcript, c.stack, c.composeDepth, c.stack, c.composeDepth, []⟩

theorem Footing.level_ofState : (ofState q odd c).Level := Iff.rfl

theorem Graph.Beside.refl {g : Graph} (h : g.Kempt q) (odd : NodeId → Prop) : g.Beside q odd [] id g where
  kempt := h
  mono _ _ hlt := hlt
  fresh _ := rfl
  twins _ := Node.twin_of_ids (fun _ _ => rfl) _
  risen j := by
    rw [Option.map_id]
    exact .refl _
  elder := h.elder
  spared := by simp

theorem Footing.beside_ofState (h : c.graph.Kempt q) (odd : NodeId → Prop) :
    (ofState q odd c).Beside id c c where
  graph := .refl h odd
  types := by simp [mapValues]
  stack := rfl
  depth := rfl
  stack' := rfl
  depth' := rfl
  oracle := rfl
  told := .start

end

/-! ## Graphs that are built -/

namespace Visit

variable {d : Document} {q : Option NodeId} {c : Context} {i : NodeId} {top : Nat}

theorem kempt_start (oracle : Oracle) (q : Option NodeId) : (Conversion.start oracle).graph.Kempt q := by
  have hbare : ∀ j, (Conversion.start oracle).graph.node j = { body := .bare } := fun j =>
    Graph.node_of_size_le (Nat.zero_le _)
  refine ⟨fun j k hk => ?_, fun j p hp => ?_, fun j _ e he => ?_⟩
  · rw [hbare] at hk
    cases hk
  · rw [hbare] at hp
    cases hp
  · rw [hbare] at he
    cases he

theorem kempt_of_alike {α : Type} {R : (NodeId → NodeId) → Context → α → α → Prop} {m : Run α}
    (h : (ofState q (fun _ => False) c).Alike id R m m c c) : (after m c).graph.Kempt q := by
  obtain ⟨-, τ, -, hbeside, -⟩ := h
  exact hbeside.graph.kempt

theorem kempt_fromSchema (hk : c.graph.Kempt q) {owner : Option NodeId}
    (howner : ∀ k, owner = some k → k.index < c.graph.size) (schema : Json) :
    (after (Build.fromSchema owner schema) c).graph.Kempt q := by
  refine kempt_of_alike (alike_fromSchema (beside_ofState hk _) schema howner ?_)
  rw [Option.map_id]
  exact .refl owner

theorem kempt_visit (hs : c.Sound d q) (hk : c.graph.Kempt q) (hb : c.Budding i top) :
    (after (visit d i) c).graph.Kempt q := by
  have hsize := hb.sprout.below_size
  have hcovers := (covers_depthBound d c c.graph).mono
    (Nat.add_le_add_left (show top - i.index ≤ c.graph.size by omega) _)
  have hd := within_raw d c.graph
  exact kempt_of_alike (alike_get_bind (lockstep_visitWithin hd le_rfl le_rfl level_ofState (beside_ofState hk _)
    hs hb (fun _ h => h.elim) (low_of_sprout hb.sprout) hcovers))

theorem kempt_resolveRef (hs : c.Sound d q) (hk : c.graph.Kempt q) {owner : Option NodeId}
    (howner : ∀ k, owner = some k → k.index < c.graph.size) (ref : Json) :
    (after (resolveRef d owner ref) c).graph.Kempt q := by
  have hrises : c.graph.Rises id owner (owner.map id) := by
    rw [Option.map_id]
    exact .refl owner
  have hd := within_raw d c.graph
  refine kempt_of_alike (alike_get_bind (alike_resolve hd (lockstep_visitWithin hd le_rfl le_rfl)
    level_ofState (beside_ofState hk _) hs (fun _ h => h.elim) howner hrises fun _ c' _ => ?_))
  exact (covers_depthBound d c' c.graph).mono (Nat.le_add_right _ _)

/-- States that were reached, inside of nodes or not, as nodes were made for declarations and visited, and
references resolved, however that went. -/
inductive Grown (d : Document) : Context → Prop
  | start (oracle : Oracle) : Grown d (Conversion.start oracle)
  | fromSchema {c : Context} {owner : Option NodeId} (h : Grown d c)
    (howner : ∀ k, owner = some k → k.index < c.graph.size) (schema : Json) :
    Grown d (after (Build.fromSchema owner schema) c)
  | visit {c : Context} {i : NodeId} {top : Nat} (h : Grown d c) (hb : c.Budding i top) :
    Grown d (after (visit d i) c)
  | resolveRef {c : Context} {owner : Option NodeId} (h : Grown d c)
    (howner : ∀ k, owner = some k → k.index < c.graph.size) (ref : Json) :
    Grown d (after (resolveRef d owner ref) c)
  | enter {c : Context} {i : NodeId} (h : Grown d c) (hi : i.index < c.graph.size) : Grown d (c.enter (some i))
  | leave {c : Context} (h : Grown d c) : Grown d c.leave

theorem Grown.sound (h : Grown d c) : c.Sound d none := by
  induction h with
  | start oracle => exact sound_start d oracle
  | fromSchema _ _ schema ih => exact (works_fromSchema ih _ schema).sound
  | visit _ hb ih => exact (works_get_bind (visits_visitWithin _ ih hb)).sound
  | resolveRef _ _ ref ih => exact (works_resolveRef ih _ ref).sound
  | enter _ hi ih => exact sound_enter ih hi
  | leave _ ih => exact (still_leave _).sound ih

theorem Grown.kempt (h : Grown d c) : c.graph.Kempt none := by
  induction h with
  | start oracle => exact kempt_start oracle none
  | fromSchema _ howner schema ih => exact kempt_fromSchema ih howner schema
  | visit h hb ih => exact kempt_visit h.sound ih hb
  | resolveRef h howner ref ih => exact kempt_resolveRef h.sound ih howner ref
  | enter _ _ ih => exact ih
  | leave _ ih =>
    rw [(still_leave _).graph]
    exact ih

end Visit

/-! ## Other members -/

namespace Json

theorem referencesItems_append (xs ys : List Json) :
    referencesItems (xs ++ ys) = referencesItems xs ++ referencesItems ys := by
  induction xs with
  | nil => rfl
  | cons x xs ih => rw [List.cons_append, referencesItems, ih, referencesItems, List.append_assoc]

theorem depthItems_append (xs ys : List Json) :
    depthItems (xs ++ ys) = max (depthItems xs) (depthItems ys) := by
  induction xs with
  | nil => simp [depthItems]
  | cons x xs ih => rw [List.cons_append, depthItems, ih, depthItems, max_assoc]

theorem references_group (members : List Json) : (group members).references = referencesItems members := by
  simp [group, references, referencesMembers]

theorem depth_group (members : List Json) : (group members).depth = depthItems members + 2 := by
  simp [group, depth, depthMembers]

/-- Groups refer to nothing more. -/
theorem Regrouped.references {flat grouped : List Json} (h : Regrouped flat grouped) :
    referencesItems grouped = referencesItems flat := by
  induction h with
  | nil => rfl
  | member schema _ ih => rw [referencesItems, ih, referencesItems]
  | group _ _ ihInner ihRest =>
    rw [referencesItems, references_group, ihInner, ihRest, referencesItems_append]

/-- Groups only lie deeper. -/
theorem Regrouped.depth_le {flat grouped : List Json} (h : Regrouped flat grouped) :
    depthItems flat ≤ depthItems grouped := by
  induction h with
  | nil => exact le_rfl
  | member schema _ ih =>
    rw [depthItems, depthItems]
    omega
  | group _ _ ihInner ihRest =>
    rw [depthItems_append, depthItems, depth_group]
    omega

end Json

/-- The same state, but for the members of a composition. -/
def Context.withMembers (c : Context) (i : NodeId) (members : List Json) : Context :=
  { c with graph := c.graph.update i fun n => { n with body := .composed .allOf (some (.arr members)) } }

section

variable {d : Document} {q : Option NodeId} {c : Context} {i : NodeId} {top : Nat} {flat grouped : List Json}

theorem Graph.toList_nodes (g : Graph) : g.nodes.toList = (List.range g.size).map fun k => g.node ⟨k⟩ := by
  refine List.ext_getElem (by simp [Graph.size]) fun k hk _ => ?_
  have hlt : k < g.nodes.size := by simpa using hk
  simp [Graph.node, Array.getD, hlt]

theorem Graph.Beside.withMembers (hk : c.graph.Kempt q) (hbody : (c.graph.node i).body.IsAllOf)
    (members : List Json) : Graph.Beside q (· = i) [] id c.graph (c.withMembers i members).graph := by
  have hnode : ∀ j, (c.withMembers i members).graph.node j = c.graph.node j ∨ j = i ∧
      (c.withMembers i members).graph.node j =
        { c.graph.node i with body := .composed .allOf (some (.arr members)) } := fun j => by
    rw [Context.withMembers, Graph.node_update_eq]
    split
    · next h => exact .inr ⟨h.1, rfl⟩
    · exact .inl rfl
  refine ⟨hk, fun _ _ hlt => hlt, fun n => ?_, fun j => ?_, fun j => ?_, hk.elder.update rfl, by simp⟩
  · rw [Context.withMembers, Graph.size_update]
    rfl
  · rcases hnode j with he | ⟨rfl, he⟩
    · rw [id, he]
      exact Node.twin_of_ids (fun _ _ => rfl) _
    · rw [id, he]
      have htwin := (c.graph.node j).twin_of_ids (σ := id) (fun _ _ => rfl) True
      exact ⟨.inr ⟨rfl, hbody, _, rfl⟩, rfl, rfl, htwin.props, htwin.children, htwin.attached⟩
  · rw [Option.map_id]
    rcases hnode j with he | ⟨rfl, he⟩
    · rw [id, he]
      exact .refl _
    · rw [id, he]
      exact .refl _

theorem Context.beside_withMembers (hk : c.graph.Kempt q) (hbody : (c.graph.node i).body.IsAllOf)
    (members : List Json) : (ofState q (· = i) c).Beside id c (c.withMembers i members) where
  graph := .withMembers hk hbody members
  types := by simp [mapValues, Context.withMembers]
  stack := rfl
  depth := rfl
  stack' := rfl
  depth' := rfl
  oracle := rfl
  told := .start

theorem Context.node_withMembers (hi : i.index < c.graph.size) (members : List Json) :
    (c.withMembers i members).graph.node i =
      { c.graph.node i with body := .composed .allOf (some (.arr members)) } :=
  Graph.node_update_self _ hi _

/-- What two runs from one state have done to a composition is the same, as far as can be seen. The same
questions were put and answered, and the same references were met, looked up and stored, in the same order.
The composition has the same properties in the same order. Every node has a twin, which was made for the same
declaration and brings in the twins of its properties. It is to the twins that the names are bound. -/
structure Context.Matches (i : NodeId) (c c₁ c₁' : Context) : Prop where
  questions : c₁'.transcript.questions = c₁.transcript.questions
  answers : c₁'.transcript.answers = c₁.transcript.answers
  oracle : c₁'.oracle = c₁.oracle
  met : c₁'.transcript.metReferences = c₁.transcript.metReferences
  lookups : c₁'.transcript.lookups = c₁.transcript.lookups
  stored : keys c₁'.types = keys c₁.types
  names : keys (c₁'.graph.node i).props = keys (c₁.graph.node i).props
  twins : ∃ σ : NodeId → NodeId, (∀ j : NodeId, j.index < c.graph.size → σ j = j) ∧
    (∀ j k : NodeId, j.index < k.index → (σ j).index < (σ k).index) ∧
    Transcript.Echoes c.transcript σ c₁.graph.size c₁.transcript c₁'.transcript ∧
    (∀ j, (c₁.graph.node j).Twin σ (j = i) (c₁'.graph.node (σ j))) ∧
    (∀ j, c₁'.graph.propertiesOf (σ j) = (c₁.graph.propertiesOf j).map (mapValues σ)) ∧
    c₁'.types = mapValues (Option.map σ) c₁.types ∧
    (c₁'.graph.node i).props = mapValues σ (c₁.graph.node i).props

namespace Visit

/-! ### The bound of a visit -/

theorem declarationDepth_le {g : Graph} {k : Nat} (hraw : d.raw.depth ≤ k)
    (h : ∀ n ∈ g.nodes.toList, (unread n).depth ≤ k) : declarationDepth d g ≤ k := by
  rw [declarationDepth, ← Array.foldl_toList]
  generalize d.raw.depth = start at hraw
  generalize g.nodes.toList = nodes at h
  induction nodes generalizing start with
  | nil => exact hraw
  | cons n rest ih =>
    obtain ⟨hn, hrest⟩ := List.forall_mem_cons.1 h
    exact ih (max start (unread n).depth) (by omega) hrest

theorem unread_of_body {n : Node} (hbody : n.body = .composed .allOf (some (.arr flat))) :
    unread n = .arr flat := by
  rw [unread, hbody]

theorem nodeReferences_of_body {n : Node} (hbody : n.body = .composed .allOf (some (.arr flat))) :
    nodeReferences n = Json.referencesItems flat := by
  rw [nodeReferences, unread_of_body hbody, hbody]
  rfl

theorem referencesIn_withMembers (hbody : (c.graph.node i).body = .composed .allOf (some (.arr flat)))
    (h : Json.Regrouped flat grouped) :
    referencesIn d (c.withMembers i grouped).graph = referencesIn d c.graph := by
  rw [referencesIn, referencesIn, Graph.toList_nodes, Graph.toList_nodes, Context.withMembers,
    Graph.size_update, List.flatMap_map, List.flatMap_map]
  refine congrArg (d.raw.references ++ List.flatMap · _) (funext fun k => ?_)
  rw [Graph.node_update_eq]
  split
  · next hk =>
    rw [nodeReferences_of_body rfl, h.references, hk.1, nodeReferences_of_body hbody]
  · rfl

theorem declarationDepth_withMembers (hbody : (c.graph.node i).body = .composed .allOf (some (.arr flat)))
    (h : Json.Regrouped flat grouped) :
    declarationDepth d c.graph ≤ declarationDepth d (c.withMembers i grouped).graph := by
  obtain ⟨hraw, hnodes⟩ := depth_le_declarationDepth d (c.withMembers i grouped).graph
  refine declarationDepth_le hraw fun n hn => ?_
  rw [Graph.toList_nodes] at hn hnodes
  obtain ⟨k, hk, rfl⟩ := List.mem_map.1 hn
  have hdeep := hnodes _ (List.mem_map.2 ⟨k, by rwa [Context.withMembers, Graph.size_update], rfl⟩)
  rw [Context.withMembers, Graph.node_update_eq] at hdeep
  split at hdeep
  · next he =>
    rw [unread_of_body rfl, Json.depth] at hdeep
    rw [he.1, unread_of_body hbody, Json.depth]
    exact (Nat.succ_le_succ h.depth_le).trans hdeep
  · exact hdeep

/-- Visits may go deeper than groups lie. -/
theorem depthBound_slack (hi : i.index < c.graph.size)
    (hbody : (c.graph.node i).body = .composed .allOf (some (.arr flat))) (h : Json.Regrouped flat grouped) :
    c.unstored (referencesIn d c.graph) * declarationDepth d c.graph + declarationDepth d c.graph +
      Json.depthItems grouped < depthBound d (c.withMembers i grouped).graph := by
  have hdepth := declarationDepth_withMembers (d := d) hbody h
  have hunstored : c.unstored (referencesIn d c.graph) ≤ referenceCount d (c.withMembers i grouped).graph := by
    rw [← length_referencesIn, referencesIn_withMembers hbody h]
    exact List.countP_le_length
  have hitems : Json.depthItems grouped + 1 ≤ declarationDepth d (c.withMembers i grouped).graph := by
    have hdeep := (depth_le_declarationDepth d (c.withMembers i grouped).graph).2
    rw [Graph.toList_nodes] at hdeep
    have hmem : i.index ∈ List.range (c.withMembers i grouped).graph.size := by
      rwa [Context.withMembers, Graph.size_update, List.mem_range]
    have hi' := hdeep _ (List.mem_map.2 ⟨i.index, hmem, rfl⟩)
    rwa [Context.node_withMembers hi, unread_of_body rfl] at hi'
  rw [depthBound]
  generalize declarationDepth d (c.withMembers i grouped).graph = deepest at hdepth hitems
  generalize c.unstored (referencesIn d c.graph) = unstored at hunstored
  have hleft := Nat.mul_le_mul_left unstored hdepth
  have hright : (unstored + 2) * deepest ≤
      (2 * deepest + 4) * (referenceCount d (c.withMembers i grouped).graph + 2) := by
    rw [Nat.mul_comm]
    exact Nat.mul_le_mul (by omega) (by omega)
  rw [Nat.add_mul] at hright
  omega

/-- What is to be read of the flat list is enough to go on in both runs. -/
theorem exists_depths (hi : i.index < c.graph.size)
    (hbody : (c.graph.node i).body = .composed .allOf (some (.arr flat))) (h : Json.Regrouped flat grouped) :
    ∃ k fuel depth depth', depthBound d c.graph = depth + 1 ∧
      depthBound d (c.withMembers i grouped).graph = depth' + 1 ∧
      fuel ≤ depth ∧ fuel + Json.depthItems grouped ≤ depth' ∧
      (∀ e ∈ flat, e.isObject = true → e.Within (referencesIn d c.graph) k) ∧
      Covers (referencesIn d c.graph) (declarationDepth d c.graph) c k fuel := by
  have hshallow := shallow_of_lt (d := d) hi le_rfl
  obtain ⟨k, hdeepest, hmembers⟩ := Json.within_element (hshallow.members .allOf (.arr flat) hbody) rfl
  have hslack := depthBound_slack (d := d) hi hbody h
  have hbound := covers_depthBound d c c.graph
  rw [Covers] at hbound
  obtain ⟨depth, hdepth⟩ : ∃ n, depthBound d c.graph = n + 1 := ⟨depthBound d c.graph - 1, by omega⟩
  obtain ⟨depth', hdepth'⟩ : ∃ n, depthBound d (c.withMembers i grouped).graph = n + 1 :=
    ⟨depthBound d (c.withMembers i grouped).graph - 1, by omega⟩
  refine ⟨k, c.unstored (referencesIn d c.graph) * declarationDepth d c.graph + declarationDepth d c.graph,
    depth, depth', hdepth, hdepth', by omega, by omega, hmembers, ?_⟩
  rw [Covers]
  omega

/-! ### The visit -/

/-- A composition is visited alike if some of its members are put into groups. -/
theorem alike_visit (hs : c.Sound d q) (hk : c.graph.Kempt q) (hb : c.Budding i top)
    (hbody : (c.graph.node i).body = .composed .allOf (some (.arr flat))) (h : Json.Regrouped flat grouped) :
    (ofState q (· = i) c).Alike id (fun _ _ _ _ => True) (visit d i) (visit d i) c
      (c.withMembers i grouped) := by
  have hi := hb.sprout.lt_size
  have hcomposed : (c.graph.node i).body.isComposed = true := by rw [hbody]; rfl
  have hbody' : ((c.withMembers i grouped).graph.node i).body = .composed .allOf (some (.arr grouped)) := by
    rw [node_withMembers hi]
  obtain ⟨k, fuel, depth, depth', hdepth, hdepth', hfuel, hfuel', hmembers, hcovers⟩ :=
    exists_depths (d := d) hi hbody h
  have hv : ∀ q, Visits d q (visitWithin d depth) := fun _ => visits_visitWithin depth
  have hbeside := beside_withMembers hk ⟨_, hbody⟩ grouped
  have hs₁ := sound_enter hs hi
  refine alike_get_bind ?_
  rw [hdepth, hdepth']
  refine alike_step hv hbeside hs hb ?_
  have h₁ := hbeside.enter i
  rw [hcomposed] at h₁ ⊢
  unfold body
  rw [id, hbody, hbody']
  refine alike_visitComposed (level_ofState.inside _ _) h₁ hcomposed _ _ .allOf _ _ ?_ (by simp)
  rintro - c₁ c₁' hstill hstill' h₂
  have hi₁ : i.index < c₁.graph.size := by rwa [hstill.graph]
  refine alike_visitAllOf hv (level_ofState.inside _ _) (hstill.sound hs₁) hi₁ (by rwa [hstill.graph]) ?_
  refine Alike.of_eq ?_ (collect_of_body (by rwa [hstill.graph])) (collect_of_body (by rwa [hstill'.graph]))
    le_rfl fun _ _ => rfl
  have hodd : ((ofState q (· = i) c).enter (some i) (some i) true).Past c₁.graph.size := by
    rintro _ rfl
    exact hi₁
  have hcovers₁ : Covers (referencesIn d c.graph) (declarationDepth d c.graph) (c.enter (some i)) k fuel := hcovers
  exact alike_regrouped (within_raw d c.graph) h ⟨Nat.succ_pos _, Nat.succ_pos _⟩ h₂ (hstill.sound hs₁) hodd hi₁
    .here ⟨rfl, by simp⟩ hmembers (hcovers₁.grows (hstill.grows (P := (c.enter (some i)).Old))) hfuel hfuel'

/-- Whatever consecutive members of a composition are put into groups, to any depth, its visit ends as it
does without them, and nothing is seen of them. -/
theorem visit_regrouped (hs : c.Sound d q) (hk : c.graph.Kempt q) (hb : c.Budding i top)
    (hbody : (c.graph.node i).body = .composed .allOf (some (.arr flat))) (h : Json.Regrouped flat grouped) :
    outcome (visit d i) (c.withMembers i grouped) = outcome (visit d i) c ∧
      c.Matches i (after (visit d i) c) (after (visit d i) (c.withMembers i grouped)) := by
  obtain ⟨-, σ, hσ, hbeside, hsame⟩ := alike_visit hs hk hb hbody h
  have htold := hbeside.told
  have hprops := (hbeside.graph.twins i).props
  rw [hσ i hb.sprout.lt_size, id] at hprops
  refine ⟨hsame.eq, htold.questions, htold.answers, hbeside.oracle, htold.metReferences, htold.lookups,
    ?_, ?_, σ, hσ, hbeside.graph.mono, htold, hbeside.graph.twins, hbeside.graph.propertiesOf, hbeside.types,
    hprops⟩
  · rw [hbeside.types, keys_mapValues]
  · rw [hprops, keys_mapValues]

end Visit

end

namespace Visit

/-- The members of a composition: a pet, and a tag. -/
def taggedPet : List Json :=
  [.obj [("$ref", .str "#/components/schemas/Pet")],
    .obj [("type", .str "object"), ("properties", .obj [("tag", .obj [("type", .str "string")])])]]

/-- A state in which a composition was made. -/
def withTaggedPet : Context :=
  after (Build.fromSchema none (.group taggedPet)) (Conversion.start (.ofRecording [.subset, .no, .yes]))

theorem visit_regrouped_taggedPet :
    outcome (visit ownersAndPets ⟨0⟩)
      (withTaggedPet.withMembers ⟨0⟩ [.group [], .group [.group taggedPet]]) = .ok () ∧
    (keys (after (visit ownersAndPets ⟨0⟩)
      (withTaggedPet.withMembers ⟨0⟩ [.group [], .group [.group taggedPet]])).types).map Key.value =
        [.text "#/components/schemas/Pet", .text "#/components/schemas/Owner"] ∧
    (keys ((after (visit ownersAndPets ⟨0⟩)
      (withTaggedPet.withMembers ⟨0⟩ [.group [], .group [.group taggedPet]])).graph.node ⟨0⟩).props).map
        Key.value = [.text "tag"] := by
  have hgrown : Grown ownersAndPets withTaggedPet := .fromSchema (.start _) (by simp) _
  have hplanted : Build.fromSchema none (.group taggedPet)
      (Conversion.start (.ofRecording [.subset, .no, .yes])) = .ok ⟨0⟩ withTaggedPet := rfl
  have hb := (sprouted_fromSchema hplanted).budding (sound_start ownersAndPets _)
  have hbody : (withTaggedPet.graph.node ⟨0⟩).body = .composed .allOf (some (.arr taggedPet)) := rfl
  have hregrouped : Json.Regrouped taggedPet [.group [], .group [.group taggedPet]] :=
    .group .nil (.group (.group (.member _ (.member _ .nil)) .nil) .nil)
  obtain ⟨houtcome, hmatches⟩ := visit_regrouped hgrown.sound hgrown.kempt hb hbody hregrouped
  have hrun : visit ownersAndPets ⟨0⟩ withTaggedPet =
      .ok () (after (visit ownersAndPets ⟨0⟩) withTaggedPet) := eq_ok_of_toOption_outcome (by decide +kernel)
  rw [hmatches.stored, hmatches.names]
  exact ⟨houtcome.trans (outcome_of_ok hrun), by decide +kernel, by decide +kernel⟩

end Visit

end ApiGraph
