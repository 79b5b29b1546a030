import ApiGraph.Proofs.Grouping.Contexts

/-!
# Visits beside one another

The same node is visited in two runs that stand beside one another.

* `Visit.Lockstep` — what is promised of the visits of nodes below;
* `Footing.alike_resolve`, `Footing.alike_visitAllOf`, … — one lemma for each step of a visit;
* `Footing.alike_collectFrom_cons` — one member of a composition;
* `Visit.lockstep_visitWithin` — visits of any depth keep the promise, however deep they may go.
-/

namespace ApiGraph

open OrderedMap Context Visit

/-! ## What is gathered -/

section

variable {d : Document} {q : Option NodeId} {c c' : Context} {P : NodeId → Prop} {i : NodeId}

theorem Context.Grows.labelled (h : c.Grows P c') {e : Key × NodeId} (he : c.graph.Labelled e) :
    c'.graph.Labelled e := by
  have hlt := he.lt_size
  obtain ⟨s, hkey, hname⟩ := he
  exact ⟨s, hkey, (h.kept _ hlt).name.trans hname⟩

/-- What a node brings into a composition is bound under its name. -/
theorem Context.Sound.labelled_of_propertiesWithin (hs : c.Sound d q) (hk : c.graph.Kempt q) (hi : q ≠ some i)
    {steps : Nat} {props : OrderedMap Key NodeId} (h : c.graph.propertiesWithin steps i = .ok props) :
    ∀ e ∈ props, c.graph.Labelled e := by
  induction steps generalizing i with
  | zero => cases h
  | succ steps ih =>
    rw [Graph.propertiesWithin] at h
    split at h
    · next ref target hbody =>
      have hbuilt := hs.stored?_eq_some_iff.1
        (hs.linked i ⟨ref, some target⟩ target (by rw [hbody]; rfl) rfl)
      exact ih (hs.built ref target hbuilt).2.2.1 h
    · cases h
      exact hk.labelled i hi
    · cases h
      exact hk.labelled i hi
    · cases h
      simp

/-- A node that is new was not made by hand. -/
theorem Context.Sound.ne_of_size_le (hs : c.Sound d q) (hi : c.graph.size ≤ i.index) : q ≠ some i := by
  intro hq
  exact absurd (hs.handmade i hq).1 (Nat.not_lt.2 hi)

/-- A composition that the run has gone into is inside of another one if it is not the only one. -/
theorem inComposition_of_mem (hcomposed : (c.graph.node i).body.isComposed = true) (hmem : some i ∈ c.stack) :
    c.inComposition i = decide (1 < c.composeDepth) := by
  have hboth : (c.isComposition i && c.stack.contains i) = true := by
    rw [Bool.and_eq_true]
    exact ⟨hcomposed, List.contains_iff_mem.2 hmem⟩
  rw [Context.inComposition, if_pos hboth]
  simp only [decide_eq_decide]
  omega

end

namespace Footing

/-- The compositions whose members may differ all lie before a place. -/
def Past (F : Footing) (place : Nat) : Prop := ∀ j, F.odd j → j.index < place

/-- Both runs are inside of a composition, or none of them is. -/
def Level (F : Footing) : Prop := 0 < F.depth ↔ 0 < F.depth'

/-- Both runs have gone into a composition, and both are inside of another one, or none of them is. -/
structure Inside (F : Footing) (i i' : NodeId) : Prop where
  mem : some i ∈ F.stack
  mem' : some i' ∈ F.stack'
  level : 1 < F.depth ↔ 1 < F.depth'

variable {F : Footing} {σ : NodeId → NodeId} {c c' : Context} {i : NodeId}

theorem Past.mono {m n : Nat} (h : F.Past m) (hm : m ≤ n) : F.Past n := fun j hj => (h j hj).trans_le hm

theorem Level.enter (h : F.Level) (j j' : Option NodeId) (composed : Bool) :
    (F.enter j j' composed).Level := by
  cases composed
  · exact h
  · exact ⟨fun _ => Nat.succ_pos _, fun _ => Nat.succ_pos _⟩

theorem Level.inside (h : F.Level) (i i' : NodeId) : (F.enter (some i) (some i') true).Inside i i' := by
  refine ⟨List.mem_cons_self, List.mem_cons_self, ?_⟩
  show 1 < F.depth + 1 ↔ 1 < F.depth' + 1
  rw [Level] at h
  omega

theorem Inside.inComposition (h : F.Inside i (σ i)) (hbeside : F.Beside σ c c')
    (hcomposed : (c.graph.node i).body.isComposed = true) :
    c'.inComposition (σ i) = c.inComposition i := by
  have hcomposed' := (hbeside.graph.twins i).isComposed.trans hcomposed
  rw [inComposition_of_mem hcomposed (hbeside.stack ▸ h.mem),
    inComposition_of_mem hcomposed' (hbeside.stack' ▸ h.mem'), hbeside.depth, hbeside.depth']
  exact decide_eq_decide.2 h.level.symm

end Footing

/-- What is promised of the visits of nodes below: they end alike if the depth of the first ones is
enough. -/
def Visit.Lockstep (R : List Json) (D : Nat) (d : Document) (fuel : Nat) (v v' : Visitor) : Prop :=
  ∀ {F : Footing} {σ : NodeId → NodeId} {c c' : Context} {j : NodeId} {top k : Nat}, F.Level →
    F.Beside σ c c' → c.Sound d F.query → c.Budding j top → F.Past j.index → Low R c.graph k j →
      Covers R D c k fuel → F.Alike σ (fun _ _ _ _ => True) (v j) (v' (σ j)) c c'

namespace Footing

variable {α : Type} {d : Document} {R : List Json} {D fuel k : Nat} {v v' : Visitor} {F : Footing}
  {σ : NodeId → NodeId} {c c' : Context} {i i' : NodeId} {p p' : Option NodeId}
  {Q : (NodeId → NodeId) → Context → α → α → Prop}

/-! ## References -/

/-- A reference is found, or built and stored, in both runs. -/
theorem alike_locate (h : F.Beside σ c c') (hp : ∀ k, p = some k → k.index < c.graph.size)
    (hrises : c'.graph.Rises σ p' (p.map σ)) (ref : Json) :
    F.Alike σ (fun τ _ x y => y = (τ x.1, x.2)) (locate d p ref) (locate d p' ref) c c' := by
  refine alike_say_bind (alike_stored?_bind (h.say (.plain rfl h.told)) ?_)
  have hmet := h.say (.plain (e := .met ref) rfl h.told)
  cases ({ c with transcript := .met ref :: c.transcript } : Context).stored? ref with
  | some found => exact alike_pure hmet rfl
  | none =>
    refine alike_trace_bind hmet fun c₁ c₁' hstill hstill' h₁ => alike_say_bind ?_
    have h₂ := h₁.say (.plain (e := .lookedUp ref) rfl h₁.told)
    refine alike_lift_bind h₂ fun declaration _ => ?_
    rw [← hstill.graph] at hp
    rw [← hstill'.graph] at hrises
    refine (alike_fromSchema h₂ (.obj declaration) hp hrises).bind fun τ j j' c₃ c₃' hrun _ _ h₃ he => ?_
    subst he
    have hsprouted := sprouted_fromSchema hrun
    have h₄ := h₃.say (.built ref hsprouted.planted.sprout.lt_size h₃.told)
    refine alike_say_bind (alike_update_bind h₄ (h₃.graph.rename hsprouted.name ref) fun h₅ => ?_)
    exact (alike_store h₅ ref j).bind fun υ k k' c₆ c₆' _ _ _ h₆ he => alike_pure h₆ (by rw [he])

/-- A reference is resolved in both runs. -/
theorem alike_resolve (hd : d.raw.Within R D) (hl : Lockstep R D d fuel v v') (hF : F.Level)
    (h : F.Beside σ c c') (hs : c.Sound d F.query) (hodd : F.Past c.graph.size)
    (hp : ∀ k, p = some k → k.index < c.graph.size) (hrises : c'.graph.Rises σ p' (p.map σ)) {ref : Json}
    (hcovers : ∀ i c', Bound d c p ref i c' → Covers R D c' D fuel) :
    F.Alike σ (fun τ _ x y => y = τ x) (resolve d v p ref) (resolve d v' p' ref) c c' := by
  rw [resolve_eq_locate_bind, resolve_eq_locate_bind]
  refine (alike_locate h hp hrises ref).bind fun τ x y c₁ c₁' hrun _ _ h₁ he => ?_
  subst he
  rcases locate_cases d p ref c with ⟨i, -, hfound⟩ | ⟨i, c₂, hbound, hbuilt⟩ | ⟨fault, c₂, -, -, -, hfault⟩
  · rw [hfound] at hrun
    cases hrun
    exact alike_trace_bind h₁ fun c₂ c₂' _ _ h₂ => alike_pure h₂ rfl
  · rw [hbuilt] at hrun
    cases hrun
    have hindex := hbound.index
    refine (hl hF h₁ (hbound.sound hs) (hbound.budding hs) (hodd.mono hindex.ge) (hbound.low hd)
      (hcovers i _ hbound)).bind fun υ _ _ c₃ c₃' _ _ hυ h₃ _ => alike_trace_bind h₃ fun c₄ c₄' _ _ h₄ => ?_
    exact alike_pure h₄ (hυ i (hbound.budding hs).sprout.lt_size).symm
  · rw [hfault] at hrun
    cases hrun

/-! ## Members -/

/-- The same properties were gathered, each under its name. -/
structure Gathers (σ : NodeId → NodeId) (c : Context) (m m' : OrderedMap Key NodeId) : Prop where
  eq : m' = mapValues σ m
  labelled : ∀ e ∈ m, c.graph.Labelled e

theorem Gathers.names {m m' : OrderedMap Key NodeId} (h : Gathers σ c m m') :
    ∀ prop ∈ values m, ∃ s, (c.graph.node prop).name = .str s := by
  intro prop hprop
  obtain ⟨e, he, rfl⟩ := List.mem_map.1 hprop
  obtain ⟨s, -, hname⟩ := h.labelled e he
  exact ⟨s, hname⟩

/-- What was gathered before stays, and more is gathered. -/
theorem Gathers.insertAll {τ : NodeId → NodeId} {P : NodeId → Prop} {c₁ : Context}
    {m m' props : OrderedMap Key NodeId} (h : Gathers σ c m m')
    (hτ : ∀ j : NodeId, j.index < c.graph.size → τ j = σ j) (hgrows : c.Grows P c₁)
    (hprops : ∀ e ∈ props, c₁.graph.Labelled e) :
    Gathers τ c₁ (insertAll m props) (insertAll m' (mapValues τ props)) := by
  have hsame : mapValues σ m = mapValues τ m := mapValues_congr fun a ha => by
    obtain ⟨e, he, rfl⟩ := List.mem_map.1 ha
    exact (hτ _ (h.labelled e he).lt_size).symm
  refine ⟨?_, Graph.labelled_insertAll (fun e he => hgrows.labelled (h.labelled e he)) hprops⟩
  rw [h.eq, hsame, insertAll_mapValues]

/-- The next member is built and visited in both runs, and what it brings in is gathered. -/
theorem alike_collectFrom_cons (hv : ∀ q, Visits d q v) (hl : Lockstep R D d fuel v v') (hF : F.Level)
    (h : F.Beside σ c c') (hs : c.Sound d F.query) (hodd : F.Past c.graph.size)
    (hi : i.index < c.graph.size) (hrises : c'.graph.Rises σ (some i') (some (σ i))) {schema : Json}
    (hschema : schema.isObject = true → schema.Within R k) (hcovers : Covers R D c k fuel)
    {collected collected' : OrderedMap Key NodeId} {rest rest' : List Json}
    {Q : (NodeId → NodeId) → Context → OrderedMap Key NodeId → OrderedMap Key NodeId → Prop}
    (hrest : ∀ τ c₁ c₁' props, (∀ j : NodeId, j.index < c.graph.size → τ j = σ j) → c.Grows c.Old c₁ →
      c₁.Sound d F.query → F.Beside τ c₁ c₁' → (∀ e ∈ props, c₁.graph.Labelled e) →
        F.Alike τ Q (collectFrom v i (insertAll collected props) rest)
          (collectFrom v' i' (insertAll collected' (mapValues τ props)) rest') c₁ c₁') :
    F.Alike σ Q (collectFrom v i collected (schema :: rest))
      (collectFrom v' i' collected' (schema :: rest')) c c' := by
  have hp : ∀ k, some i = some k → k.index < c.graph.size := by
    rintro _ ⟨⟩
    exact hi
  refine (alike_fromSchema h schema hp hrises).works_bind (works_fromSchema hs (some i) schema)
    fun τ member member' c₁ c₁' hτ hgrows₁ hs₁ hsprouted h₁ he => ?_
  subst he
  have hindex := hsprouted.planted.index
  have hbudding := hsprouted.budding hs
  have hold : ∀ j, c.Old j → c₁.Outside member c₁.graph.size j := by
    intro j hj
    have hlt : j.index < c.graph.size := hj
    have := hsprouted.size_lt
    exact ⟨by omega, by omega⟩
  refine (hl hF h₁ hs₁ hbudding (hodd.mono hindex.ge) (hsprouted.low hschema) (hcovers.grows hgrows₁)).works_bind
    ((hv F.query hs₁ hbudding).mono hold fun _ _ h => h)
    fun υ _ _ c₂ c₂' hυ hgrows₂ hs₂ _ h₂ _ => ?_
  rw [← hυ member hsprouted.planted.sprout.lt_size]
  have hsame : Same (fun x y => y = mapValues υ x) (c₂.graph.propertiesOf member)
      (c₂'.graph.propertiesOf (υ member)) := by
    rw [h₂.graph.propertiesOf]
    exact same_map _ fun _ => rfl
  refine alike_onGraph_bind h₂ hsame fun props props' ho he => ?_
  subst he
  refine hrest υ c₂ c₂' props (fun j hj => ?_) (hgrows₁.trans hgrows₂) hs₂ h₂ ?_
  · exact (hυ j (hj.trans_le hgrows₁.size_le)).trans (hτ j hj)
  · exact hs₂.labelled_of_propertiesWithin h₂.graph.kempt (hs.ne_of_size_le hindex.ge) ho

/-- The same members are built and visited in both runs. -/
theorem alike_collectFrom (hv : ∀ q, Visits d q v) (hl : Lockstep R D d fuel v v') (hF : F.Level)
    (h : F.Beside σ c c') (hs : c.Sound d F.query) (hodd : F.Past c.graph.size)
    (hi : i.index < c.graph.size) {collected collected' : OrderedMap Key NodeId}
    (hcollected : Gathers σ c collected collected') {members : List Json}
    (hmembers : ∀ e ∈ members, e.isObject = true → e.Within R k) (hcovers : Covers R D c k fuel) :
    F.Alike σ Gathers (collectFrom v i collected members) (collectFrom v' (σ i) collected' members) c c' := by
  induction members generalizing σ c c' collected collected' with
  | nil => exact alike_pure h hcollected
  | cons schema rest ih =>
    obtain ⟨hschema, hrest⟩ := List.forall_mem_cons.1 hmembers
    refine alike_collectFrom_cons hv hl hF h hs hodd hi (.refl _) hschema hcovers
      fun τ c₁ c₁' props hτ hgrows hs₁ h₁ hprops => ?_
    rw [← hτ i hi]
    exact ih h₁ hs₁ (hodd.mono hgrows.size_le) (hi.trans_le hgrows.size_le)
      (hcollected.insertAll hτ hgrows hprops) hrest (hcovers.grows hgrows)

theorem alike_storeNamed (h : F.Beside σ c c') (i : NodeId) :
    F.Alike σ (fun _ _ _ _ => True) (storeNamed i) (storeNamed (σ i)) c c' := by
  refine alike_node_bind ?_
  rw [(h.graph.twins i).name]
  cases (c.graph.node i).name.isNull with
  | true => exact alike_pure h trivial
  | false => exact (alike_store h _ i).bind fun τ _ _ c₁ c₁' _ _ _ h₁ _ => alike_pure h₁ trivial

/-- Some properties are kept, and the composition is stored if it has a name. -/
theorem alike_keep (h : F.Beside σ c c') (hi : i.index < c.graph.size) {kept : List NodeId}
    (hkept : ∀ prop ∈ kept, ∃ s, (c.graph.node prop).name = .str s) :
    F.Alike σ (fun _ _ _ _ => True) (do kept.forM (Run.put i); storeNamed i)
      (do (kept.map σ).forM (Run.put (σ i)); storeNamed (σ i)) c c' := by
  refine (alike_putEach h i hkept).bind fun τ _ _ c₁ c₁' _ _ hτ h₁ _ => ?_
  rw [← hτ i hi]
  exact alike_storeNamed h₁ i

/-- The properties of the same members are gathered. -/
theorem alike_collect (hv : ∀ q, Visits d q v) (hl : Lockstep R D d fuel v v') (hF : F.Level)
    (h : F.Beside σ c c') (hs : c.Sound d F.query) (hodd : F.Past c.graph.size)
    (hi : i.index < c.graph.size) {parts : Option Json}
    (hbody : (c.graph.node i).body = .composed .allOf parts)
    (hbody' : (c'.graph.node (σ i)).body = .composed .allOf parts)
    (hparts : ∀ value, parts = some value → value.Within R k) (hcovers : Covers R D c k fuel) :
    F.Alike σ Gathers (collect v i) (collect v' (σ i)) c c' := by
  refine alike_node_bind ?_
  have hmembers : (c.graph.node i).allOfMembers? = parts := by rw [Node.allOfMembers?, hbody]
  have hmembers' : (c'.graph.node (σ i)).allOfMembers? = parts := by rw [Node.allOfMembers?, hbody']
  rw [hmembers, hmembers']
  refine alike_lift_bind h fun value hvalue => alike_lift_bind h fun elements helements => ?_
  have hvalue' : parts = some value := by
    cases parts with
    | none => cases hvalue
    | some _ => exact congrArg some (Except.ok.inj hvalue)
  obtain ⟨m, rfl, hmembers⟩ := Json.within_element (hparts value hvalue') helements
  exact alike_collectFrom hv hl hF h hs hodd hi ⟨rfl, by simp⟩ hmembers (hcovers.mono (Nat.le_succ m))

/-! ### What is kept of them -/

/-- The same candidates are chosen one by one. -/
theorem alike_selectEach (h : F.Beside σ c c') {candidates : List NodeId}
    (hcandidates : ∀ prop ∈ candidates, prop.index < c.graph.size) :
    F.Alike σ (fun τ _ kept kept' => kept' = kept.map τ ∧ kept ⊆ candidates) (selectEach candidates)
      (selectEach (candidates.map σ)) c c' := by
  induction candidates generalizing c c' with
  | nil => exact alike_pure h ⟨rfl, List.Subset.refl _⟩
  | cons prop rest ih =>
    obtain ⟨hprop, hrest⟩ := List.forall_mem_cons.1 hcandidates
    have hwords : Same Eq (c.graph.describe prop) (c'.graph.describe (σ prop)) := by
      rw [h.graph.describe]
      exact same_refl _
    refine alike_onGraph_bind h hwords fun words words' _ he => ?_
    subst he
    simp only [Run.askYesNo, bind_assoc, pure_bind]
    refine alike_ask_bind h fun answer c₁ c₁' hstill h₁ => ?_
    rw [← hstill.graph] at hprop hrest
    refine (ih h₁ hrest).bind fun τ others others' c₂ c₂' _ _ hτ h₂ hothers => alike_pure h₂ ?_
    obtain ⟨rfl, hsub⟩ := hothers
    split
    · exact ⟨by rw [List.map_cons, hτ prop hprop], List.cons_subset_cons _ hsub⟩
    · exact ⟨rfl, List.subset_cons_of_subset _ hsub⟩

theorem joinNames_mapValues (separator : String) (m : OrderedMap Key NodeId) :
    Graph.joinNames separator (mapValues σ m) = Graph.joinNames separator m := by
  unfold Graph.joinNames mapValues
  rw [List.mapM_map]
  refine congrArg (· >>= _) (congrArg (List.mapM · m) ?_)
  funext e
  rcases e with ⟨_ | _ | _ | _, _⟩ <;> rfl

/-- The same properties are chosen. -/
theorem alike_select (h : F.Beside σ c c') (hi : i.index < c.graph.size) {m m' : OrderedMap Key NodeId}
    (hgathers : Gathers σ c m m') :
    F.Alike σ (fun τ _ kept kept' => kept' = kept.map τ ∧ kept ⊆ values m) (select i m) (select (σ i) m')
      c c' := by
  have hempty : (mapValues σ m).isEmpty = m.isEmpty := by cases m <;> rfl
  have hlt : ∀ prop ∈ values m, prop.index < c.graph.size := by
    intro prop hprop
    obtain ⟨e, he, rfl⟩ := List.mem_map.1 hprop
    exact (hgathers.labelled e he).lt_size
  rw [hgathers.eq]
  unfold select
  rw [hempty, joinNames_mapValues, values_mapValues]
  split
  · exact alike_pure h ⟨rfl, List.nil_subset _⟩
  · refine alike_lift_bind h fun names _ => alike_get_bind ?_
    have hname := (h.graph.twins i).name
    have howner : (c'.graph.node (σ i)).nameOr (c'.graph.inlineOwner (σ i)) =
        (c.graph.node i).nameOr (c.graph.inlineOwner i) := by
      rw [Node.nameOr, Node.nameOr, hname, h.graph.inlineOwner hi]
    dsimp only
    rw [howner]
    refine alike_ask_bind h fun answer c₁ c₁' hstill h₁ => ?_
    cases answer with
    | yes => exact alike_pure h₁ ⟨rfl, List.Subset.refl _⟩
    | subset => exact alike_selectEach h₁ (by rwa [hstill.graph])
    | no => exact alike_pure h₁ ⟨rfl, List.nil_subset _⟩

/-- The properties of the members are gathered, and the same ones are kept. -/
theorem alike_visitAllOf (hv : ∀ q, Visits d q v) (hF : F.Inside i (σ i))
    (hs : c.Sound d F.query) (hi : i.index < c.graph.size)
    (hcomposed : (c.graph.node i).body.isComposed = true)
    (hcollect : F.Alike σ Gathers (collect v i) (collect v' (σ i)) c c') :
    F.Alike σ (fun _ _ _ _ => True) (visitAllOf v i) (visitAllOf v' (σ i)) c c' := by
  refine hcollect.works_bind (works_collect (hv F.query) hs i)
    fun τ collected collected' c₁ c₁' hτ hgrows _ _ h₁ hgathers => alike_get_bind ?_
  have hi₁ := hi.trans_le hgrows.size_le
  have hcomposed₁ := (hgrows.kept i hi).isComposed.trans hcomposed
  rw [← hτ i hi] at hF ⊢
  rw [hF.inComposition h₁ hcomposed₁]
  cases c₁.inComposition i with
  | true =>
    simp only [if_true, pure_bind, hgathers.eq, values_mapValues]
    exact alike_keep h₁ hi₁ hgathers.names
  | false =>
    refine (alike_select h₁ hi₁ hgathers).bind fun υ kept kept' c₂ c₂' hrun _ hυ h₂ hkept => ?_
    obtain ⟨rfl, hsub⟩ := hkept
    rw [← hυ i hi₁]
    have hstill := idle_select i collected c₁
    rw [after_of_ok hrun] at hstill
    refine alike_keep h₂ (by rwa [hstill.graph]) fun prop hprop => ?_
    rw [hstill.graph]
    exact hgathers.names prop (hsub hprop)

/-! ## Choices -/

/-- The shapes of a choice are built and visited one by one. -/
theorem alike_visitShapes (hv : ∀ q, Visits d q v) (hl : Lockstep R D d fuel v v') (hF : F.Level)
    (h : F.Beside σ c c') (hs : c.Sound d F.query) (hodd : F.Past c.graph.size)
    (hi : i.index < c.graph.size) (position : Nat) {shapes : List Json}
    (hshapes : ∀ e ∈ shapes, e.isObject = true → e.Within R k) (hcovers : Covers R D c k fuel) :
    F.Alike σ (fun _ _ _ _ => True) (visitShapes v i position shapes) (visitShapes v' (σ i) position shapes)
      c c' := by
  induction shapes generalizing σ c c' position with
  | nil => exact alike_pure h trivial
  | cons schema rest ih =>
    obtain ⟨hschema, hrest⟩ := List.forall_mem_cons.1 hshapes
    have hp : ∀ k, some i = some k → k.index < c.graph.size := by
      rintro _ ⟨⟩
      exact hi
    refine (alike_fromSchema h schema hp (.refl _)).works_bind (works_fromSchema hs (some i) schema)
      fun τ member member' c₁ c₁' hτ hgrows₁ hs₁ hsprouted h₁ he => ?_
    subst he
    have hindex := hsprouted.planted.index
    have hbudding := hsprouted.budding hs
    have hcovers₁ := hcovers.grows hgrows₁
    refine (hl hF h₁ hs₁ hbudding (hodd.mono hindex.ge) (hsprouted.low hschema) hcovers₁).works_bind
      (hv F.query hs₁ hbudding) fun υ _ _ c₂ c₂' hυ hgrows₂ hs₂ _ h₂ _ => ?_
    have hlt₁ := hsprouted.planted.sprout.lt_size
    have hi₂ := (hi.trans_le hgrows₁.size_le).trans_le hgrows₂.size_le
    have hodd₂ := (hodd.mono hgrows₁.size_le).mono hgrows₂.size_le
    have hcovers₂ := hcovers₁.grows hgrows₂
    rw [← hυ member hlt₁, ← hτ i hi, ← hυ i (hi.trans_le hgrows₁.size_le)]
    by_cases hposition : position = 0
    · simp only [if_pos hposition]
      have hchild := works_addChild hs₂ hi₂ (some member)
      refine alike_update_bind h₂ (h₂.graph.addChild (hlt₁.trans_le hgrows₂.size_le)) fun h₃ => ?_
      exact ih h₃ hchild.sound (hodd₂.mono hchild.grows.size_le) (hi₂.trans_le hchild.grows.size_le) _
        hrest (hcovers₂.grows hchild.grows)
    · simp only [if_neg hposition]
      refine alike_trace_bind h₂ fun c₃ c₃' hstill _ h₃ => ?_
      have hgrows₃ := hstill.grows (P := c₂.Old)
      exact ih h₃ (hstill.sound hs₂) (hodd₂.mono hgrows₃.size_le) (hi₂.trans_le hgrows₃.size_le) _
        hrest (hcovers₂.grows hgrows₃)

/-- The union of the members becomes a child. -/
theorem alike_visitOneOf (hl : Lockstep R D d fuel v v') (hF : F.Level)
    (h : F.Beside σ c c') (hs : c.Sound d F.query) (hodd : F.Past c.graph.size)
    (hi : i.index < c.graph.size) {parts : Option Json}
    (hparts : ∀ value, parts = some value → value.Within R k) (hcovers : Covers R D c k fuel) :
    F.Alike σ (fun _ _ _ _ => True) (visitOneOf v i parts) (visitOneOf v' (σ i) parts) c c' := by
  refine alike_lift_bind h fun value hvalue => ?_
  have hvalue' : parts = some value := by
    cases parts with
    | none => cases hvalue
    | some _ => exact congrArg some (Except.ok.inj hvalue)
  refine (alike_fromUnion h value hi).works_bind (works_fromUnion hs (some i) value)
    fun τ union union' c₁ c₁' hτ hgrows₁ hs₁ hunion h₁ he => ?_
  subst he
  obtain ⟨shapes, helements, hplanted, -, hnode, hbudding⟩ := hunion
  have hindex := hplanted.index
  obtain ⟨m, rfl, hshapes⟩ := Json.within_element (hparts value hvalue') helements
  have hlt₁ := hi.trans_le hgrows₁.size_le
  have hlow : Low R c₁.graph (m + 1) union := by
    rw [Low, hnode]
    refine ⟨⟨(by rintro _ ⟨⟩), (by simp), ?_⟩, (by rintro _ ⟨⟩)⟩
    rintro shapes' ⟨⟩
    exact hshapes
  have hchild := works_addChild hs₁ hlt₁ (some union)
  have hbudding₂ := hchild.grows.budding hbudding fun j hj _ => by rintro rfl; omega
  rw [← hτ i hi]
  refine alike_update_bind h₁ (h₁.graph.addChild hplanted.sprout.lt_size) fun h₂ => ?_
  refine (hl hF h₂ hchild.sound hbudding₂ (hodd.mono hindex.ge) (hchild.grows.low hlow hbudding.sprout)
    ((hcovers.grows hgrows₁).grows hchild.grows)).bind fun υ _ _ c₃ c₃' _ _ hυ h₃ _ => ?_
  rw [← hυ i (hlt₁.trans_le hchild.grows.size_le)]
  exact alike_storeNamed h₃ i

/-! ## Nodes below -/

/-- Sprouts apart from one another are visited one by one. -/
theorem alike_visitEach (hv : ∀ q, Visits d q v) (hl : Lockstep R D d fuel v v') (hF : F.Level)
    (h : F.Beside σ c c') (hs : c.Sound d F.query) (ends : NodeId → Nat) {ks : List (Option NodeId)}
    (hbudding : ∀ j ∈ ks.filterMap id, c.Budding j (ends j))
    (hapart : (ks.filterMap id).Pairwise fun i j => ends i ≤ j.index ∨ ends j ≤ i.index)
    (hodd : ∀ j ∈ ks.filterMap id, F.Past j.index)
    (hlow : ∀ j ∈ ks.filterMap id, Low R c.graph k j) (hcovers : Covers R D c k fuel) :
    F.Alike σ (fun _ _ _ _ => True) (visitEach v ks) (visitEach v' (ks.map (Option.map σ))) c c' := by
  induction ks generalizing σ c c' with
  | nil => exact alike_pure h trivial
  | cons j rest ih =>
    cases j with
    | none => exact alike_of_error rfl rfl le_rfl h
    | some j =>
      have hks : (some j :: rest).filterMap id = j :: rest.filterMap id := rfl
      rw [hks] at hbudding hapart hodd hlow
      obtain ⟨hj, hrest⟩ := List.pairwise_cons.1 hapart
      obtain ⟨hfirst, hbudding⟩ := List.forall_mem_cons.1 hbudding
      obtain ⟨hlowFirst, hlow⟩ := List.forall_mem_cons.1 hlow
      obtain ⟨hoddFirst, hodd⟩ := List.forall_mem_cons.1 hodd
      show F.Alike σ _ (v j >>= fun _ => visitEach v rest)
        (v' (σ j) >>= fun _ => visitEach v' (rest.map (Option.map σ))) c c'
      refine (hl hF h hs hfirst hoddFirst hlowFirst hcovers).works_bind (hv F.query hs hfirst)
        fun τ _ _ c₁ c₁' hτ hgrows hs₁ _ h₁ _ => ?_
      have hsame : rest.map (Option.map σ) = rest.map (Option.map τ) :=
        map_map_congr_of_mem_filterMap fun m hm => (hτ m (hbudding m hm).sprout.lt_size).symm
      rw [hsame]
      refine ih h₁ hs₁ (fun m hm => ?_) hrest hodd (fun m hm => ?_) (hcovers.grows hgrows)
      · have hb := hbudding m hm
        refine hgrows.budding hb fun l hml hl => ⟨?_, ?_⟩
        · have := hb.sprout.below_size
          omega
        · have := hj m hm
          omega
      · exact hgrows.low (hlow m hm) (hbudding m hm).sprout

/-- The nodes below an opened one are visited. -/
theorem alike_visitBelow (hv : ∀ q, Visits d q v) (hl : Lockstep R D d fuel v v') (hF : F.Level)
    (h : F.Beside σ c c') (hs : c.Sound d F.query) (hodd : F.Past i.index) {top : Nat}
    (ho : c.Opened i top) {ks : List (Option NodeId)}
    (hks : ks.filterMap id = (c.graph.node i).below)
    (hlow : ∀ j ∈ (c.graph.node i).below, Low R c.graph k j) (hcovers : Covers R D c k fuel) :
    F.Alike σ (fun _ _ _ _ => True) (visitEach v ks) (visitEach v' (ks.map (Option.map σ))) c c' := by
  obtain ⟨ends, -, -, -, order, apart, sprouts⟩ := ho.sprout
  rw [← hks] at order apart sprouts hlow
  have hbudding : ∀ j ∈ ks.filterMap id, c.Budding j (ends j) := by
    intro j hj
    obtain ⟨hij, htop⟩ := order j hj
    exact ⟨sprouts j hj, fun m hjm hm => ho.fresh m (by omega) (by omega)⟩
  exact alike_visitEach hv hl hF h hs ends hbudding apart (fun j hj => hodd.mono (order j hj).1.le) hlow hcovers

/-! ## One visit -/

/-- A reference is followed in both runs. -/
theorem alike_follow (hd : d.raw.Within R D) (hv : ∀ q, Visits d q v) (hl : Lockstep R D d fuel v v')
    (hF : F.Level) (h : F.Beside σ c c') (hs : c.Sound d F.query) (hodd : F.Past c.graph.size)
    (hi : i.index < c.graph.size) {ref : Json} (href : ref ∈ R) (hcovers : Covers R D c (k + 1) (fuel + 1))
    {b b' : NodeId → Body}
    (hb : ∀ (τ : NodeId → NodeId) t, (∀ j : NodeId, j.index < c.graph.size → τ j = σ j) →
      b' (τ t) = (b t).rename τ)
    (hids : ∀ t, ∀ j ∈ (b t).ids, j = t ∨ j.index < c.graph.size) :
    F.Alike σ (fun _ _ _ _ => True) (do
        let target ← resolve d v (some i) ref
        Run.update i fun n => { n with body := b target }.addChild target) (do
        let target ← resolve d v' (some (σ i)) ref
        Run.update (σ i) fun n => { n with body := b' target }.addChild target) c c' := by
  have hp : ∀ k, some i = some k → k.index < c.graph.size := by
    rintro _ ⟨⟩
    exact hi
  refine (alike_resolve hd hl hF h hs hodd hp (.refl _) fun j c' hbound => hcovers.bound hbound hs href).works_bind
    (works_resolve (hv F.query) hs (some i) ref) fun τ target target' c₁ c₁' hτ hgrows hs₁ hstored h₁ he => ?_
  subst he
  have htarget := (hs₁.built ref target (hs₁.stored?_eq_some_iff.1 hstored)).2.1
  rw [← hτ i hi]
  refine alike_update h₁ (h₁.graph.link (hb τ target hτ) (fun j hj => ?_) htarget)
  rcases hids target j hj with rfl | hlt
  · exact htarget
  · exact hlt.trans_le hgrows.size_le

/-- What a composition does is done between log records, of which the first one is left out inside of
another composition. -/
theorem alike_recorded (h : F.Beside σ c c') (inside : Bool) {m m' : Run Unit}
    (hm : ∀ c₁ c₁' : Context, c.Still c₁ → c'.Still c₁' → F.Beside σ c₁ c₁' →
      F.Alike σ (fun _ _ _ _ => True) m m' c₁ c₁') (text text' tag out out' : String) :
    F.Alike σ (fun _ _ _ _ => True)
      (do
        unless inside do
          Run.log .info .visit text
        m
        Run.trace tag out)
      (do
        unless inside do
          Run.log .info .visit text'
        m'
        Run.trace tag out') c c' := by
  have hlast : ∀ c₁ c₁' : Context, c.Still c₁ → c'.Still c₁' → F.Beside σ c₁ c₁' →
      F.Alike σ (fun _ _ _ _ => True) (m >>= fun _ => Run.trace tag out) (m' >>= fun _ => Run.trace tag out')
        c₁ c₁' := fun c₁ c₁' hstill hstill' h₁ =>
    (hm c₁ c₁' hstill hstill' h₁).bind fun τ _ _ c₂ c₂' _ _ _ h₂ _ => alike_trace h₂ _ _ _
  cases inside with
  | true => exact hlast c c' (.refl c) (.refl c') h
  | false => exact alike_log_bind h hlast

/-- Compositions of one kind are visited alike if what is done by their kinds is. -/
theorem alike_visitComposed (hF : F.Inside i (σ i)) (h : F.Beside σ c c')
    (hcomposed : (c.graph.node i).body.isComposed = true) (n n' : Node) (kind : Composition)
    (parts parts' : Option Json)
    (hall : kind = .allOf → ∀ c₁ c₁' : Context, c.Still c₁ → c'.Still c₁' → F.Beside σ c₁ c₁' →
      F.Alike σ (fun _ _ _ _ => True) (visitAllOf v i) (visitAllOf v' (σ i)) c₁ c₁')
    (hone : kind = .oneOf → ∀ c₁ c₁' : Context, c.Still c₁ → c'.Still c₁' → F.Beside σ c₁ c₁' →
      F.Alike σ (fun _ _ _ _ => True) (visitOneOf v i parts) (visitOneOf v' (σ i) parts') c₁ c₁') :
    F.Alike σ (fun _ _ _ _ => True) (visitComposed v i n kind parts) (visitComposed v' (σ i) n' kind parts')
      c c' := by
  refine alike_trace_bind h fun c₁ c₁' hstill hstill' h₁ => alike_get_bind ?_
  rw [← hstill.graph] at hcomposed
  rw [hF.inComposition h₁ hcomposed]
  cases kind with
  | allOf => exact alike_recorded h₁ _ (fun c₂ c₂' hstill₂ hstill₂' =>
      hall rfl c₂ c₂' (hstill.trans hstill₂) (hstill'.trans hstill₂')) _ _ _ _ _
  | oneOf => exact alike_recorded h₁ _ (fun c₂ c₂' hstill₂ hstill₂' =>
      hone rfl c₂ c₂' (hstill.trans hstill₂) (hstill'.trans hstill₂')) _ _ _ _ _

/-- A composition of the same members is visited alike. -/
theorem alike_composition (hv : ∀ q, Visits d q v) (hl : Lockstep R D d fuel v v') (hF : F.Level)
    (hinside : F.Inside i (σ i)) (h : F.Beside σ c c') (hs : c.Sound d F.query) (hodd : F.Past c.graph.size)
    (hi : i.index < c.graph.size) {kind : Composition} {parts : Option Json}
    (hbody : (c.graph.node i).body = .composed kind parts)
    (hbody' : (c'.graph.node (σ i)).body = .composed kind parts)
    (hparts : ∀ value, parts = some value → value.Within R k) (hcovers : Covers R D c k fuel) (n n' : Node) :
    F.Alike σ (fun _ _ _ _ => True) (visitComposed v i n kind parts) (visitComposed v' (σ i) n' kind parts)
      c c' := by
  have hcomposed : (c.graph.node i).body.isComposed = true := by rw [hbody]; rfl
  refine alike_visitComposed hinside h hcomposed n n' kind parts parts ?_ ?_
  · rintro rfl c₁ c₁' hstill hstill' h₁
    rw [← hstill.graph] at hi hbody hcomposed hodd
    rw [← hstill'.graph] at hbody'
    exact alike_visitAllOf hv hinside (hstill.sound hs) hi hcomposed (alike_collect hv hl hF h₁ (hstill.sound hs)
      hodd hi hbody hbody' hparts (hcovers.grows (hstill.grows (P := c.Old))))
  · rintro rfl c₁ c₁' hstill _ h₁
    rw [← hstill.graph] at hodd hi
    exact alike_visitOneOf hl hF h₁ (hstill.sound hs) hodd hi hparts
      (hcovers.grows (hstill.grows (P := c.Old)))

/-- The properties of an object are visited one by one. -/
theorem alike_visitObject (hv : ∀ q, Visits d q v) (hl : Lockstep R D d fuel v v') (hF : F.Level)
    (h : F.Beside σ c c') (hs : c.Sound d F.query) (hodd : F.Past i.index) {top : Nat} (ho : c.Opened i top)
    (hbody : (c.graph.node i).body = .object) (hlow : ∀ j ∈ (c.graph.node i).below, Low R c.graph k j)
    (hcovers : Covers R D c k fuel) :
    F.Alike σ (fun _ _ _ _ => True) (visitObject v (c.graph.node i)) (visitObject v' (c'.graph.node (σ i)))
      c c' := by
  have hks : ((values (c.graph.node i).props).map some).filterMap id = (c.graph.node i).below := by
    rw [Node.below, hbody]
    simp
  refine alike_trace_bind h fun c₁ c₁' hstill _ h₁ => ?_
  rw [← hstill.graph] at hks hlow
  have hvisit := alike_visitBelow hv hl hF h₁ (hstill.sound hs) hodd (hstill.opened ho) hks hlow
    (hcovers.grows (hstill.grows (P := c.Old)))
  have hmap : ((values (c.graph.node i).props).map some).map (Option.map σ) =
      (values (c'.graph.node (σ i)).props).map some := by
    rw [(h.graph.twins i).props, values_mapValues, List.map_map, List.map_map]
    rfl
  rw [hstill.graph, hmap, visitEach_map_some, visitEach_map_some] at hvisit
  exact hvisit.bind fun τ _ _ c₂ c₂' _ _ _ h₂ _ => alike_trace h₂ _ _ _

/-- The arguments and the type of a property are visited one by one. -/
theorem alike_visitProperty (hv : ∀ q, Visits d q v) (hl : Lockstep R D d fuel v v') (hF : F.Level)
    (h : F.Beside σ c c') (hs : c.Sound d F.query) (hodd : F.Past i.index) {top : Nat} (ho : c.Opened i top)
    {slot : Slot} {arguments : List (Option NodeId)}
    (hbody : (c.graph.node i).body = .property slot arguments none)
    (hlow : ∀ j ∈ (c.graph.node i).below, Low R c.graph k j) (hcovers : Covers R D c k fuel) :
    F.Alike σ (fun _ _ _ _ => True)
      (do
        arguments.forM fun a => do v (← Run.lift (expect a))
        v (← Run.lift (expect slot.type)))
      (do
        (arguments.map (Option.map σ)).forM fun a => do v' (← Run.lift (expect a))
        v' (← Run.lift (expect (slot.type.map σ)))) c c' := by
  rw [← visitEach_append, ← visitEach_append]
  have hmap : arguments.map (Option.map σ) ++ [slot.type.map σ] =
      (arguments ++ [slot.type]).map (Option.map σ) := by simp
  rw [hmap]
  refine alike_visitBelow hv hl hF h hs hodd ho ?_ hlow hcovers
  rw [Node.below, hbody, List.filterMap_append, filterMap_id_singleton]

/-- A property with a reference for its type takes over the target. -/
theorem alike_followProperty (hd : d.raw.Within R D) (hv : ∀ q, Visits d q v)
    (hl : Lockstep R D d fuel v v') (hF : F.Level) (h : F.Beside σ c c') (hs : c.Sound d F.query)
    (hodd : F.Past c.graph.size) (hi : i.index < c.graph.size) {slot : Slot} {arguments : List (Option NodeId)}
    {link : Link} (hbody : (c.graph.node i).body = .property slot arguments (some link)) (href : link.ref ∈ R)
    (hcovers : Covers R D c (k + 1) (fuel + 1)) :
    F.Alike σ (fun _ _ _ _ => True)
      (do
        let target ← resolve d v (some i) link.ref
        Run.update i fun n =>
          { n with body := .property slot arguments (some ⟨link.ref, some target⟩) }.addChild target)
      (do
        let target ← resolve d v' (some (σ i)) link.ref
        Run.update (σ i) fun n =>
          { n with
            body := .property (slot.rename σ) (arguments.map (Option.map σ))
              (some ⟨link.ref, some target⟩) }.addChild target) c c' := by
  have hbefore : ∀ j ∈ slot.type.toList ++ arguments.filterMap id, j.index < c.graph.size := by
    refine fun j hj => h.graph.kempt.closed i j (Node.mem_ids.2 (.inl ?_))
    rw [hbody]
    exact List.mem_append_left _ hj
  refine alike_follow hd hv hl hF h hs hodd hi href hcovers
    (b := fun t => .property slot arguments (some ⟨link.ref, some t⟩)) (fun τ t hτ => ?_) fun t j hj => ?_
  · have hslot : slot.rename σ = slot.rename τ := Slot.rename_congr fun j hj =>
      (hτ j (hbefore j (List.mem_append_left _ hj))).symm
    have harguments : arguments.map (Option.map σ) = arguments.map (Option.map τ) :=
      map_map_congr_of_mem_filterMap fun j hj => (hτ j (hbefore j (List.mem_append_right _ hj))).symm
    rw [hslot, harguments]
    rfl
  · rcases List.mem_append.1 hj with hj | hj
    · exact .inr (hbefore j hj)
    · exact .inl (List.mem_singleton.1 hj)

/-- What a visit does inside its node. -/
theorem alike_body (hd : d.raw.Within R D) (hv : ∀ q, Visits d q v) (hl : Lockstep R D d fuel v v')
    (hF : F.Level) (h : F.Beside σ c c') (hs : c.Sound d F.query) (hodd : F.Past i.index) {top : Nat}
    (ho : c.Opened i top) (hinside : (c.graph.node i).body.isComposed = true → F.Inside i (σ i))
    (hlow : Low R c.graph (k + 1) i) (hcovers : Covers R D c (k + 1) (fuel + 1)) :
    F.Alike σ (fun _ _ _ _ => True) (body d v i (c.graph.node i)) (body d v' (σ i) (c'.graph.node (σ i)))
      c c' := by
  have hi := ho.sprout.lt_size
  have hodd' := hodd.mono hi.le
  have hbody' := (h.graph.twins i).body_eq fun he => (hodd i he).false
  obtain ⟨hshallow, hbelow⟩ := hlow
  have hbelow' := hcovers.below
  unfold body
  rw [hbody']
  cases hbody : (c.graph.node i).body with
  | bare => exact alike_throw h _
  | scalar type => exact alike_pure h trivial
  | object => exact alike_visitObject hv hl hF h hs hodd ho hbody hbelow hbelow'
  | array items =>
    show F.Alike σ _ (do v (← Run.lift (expect items))) (do v' (← Run.lift (expect (items.map σ)))) c c'
    rw [← visitEach_singleton, ← visitEach_singleton]
    refine alike_visitBelow hv hl hF h hs hodd ho ?_ hbelow hbelow'
    rw [Node.below, hbody]
    exact filterMap_id_singleton items
  | ref link =>
    exact alike_follow hd hv hl hF h hs hodd' hi (hshallow.reference link (by rw [hbody]; rfl)) hcovers
      (fun _ _ _ => rfl) fun t j hj => .inl (List.mem_singleton.1 hj)
  | property slot arguments link =>
    cases link with
    | none => exact alike_visitProperty hv hl hF h hs hodd ho hbody hbelow hbelow'
    | some link =>
      exact alike_followProperty hd hv hl hF h hs hodd' hi hbody
        (hshallow.reference link (by rw [hbody]; rfl)) hcovers
  | parameter slot =>
    show F.Alike σ _ (do v (← Run.lift (expect slot.type))) (do v' (← Run.lift (expect (slot.type.map σ))))
      c c'
    rw [← visitEach_singleton, ← visitEach_singleton]
    refine alike_visitBelow hv hl hF h hs hodd ho ?_ hbelow hbelow'
    rw [Node.below, hbody]
    exact filterMap_id_singleton slot.type
  | composed kind parts =>
    rw [hbody] at hbody'
    have hcomposed : (c.graph.node i).body.isComposed = true := by rw [hbody]; rfl
    have hparts : ∀ value, parts = some value → value.Within R k := by
      rintro value rfl
      exact hshallow.members kind value hbody
    exact alike_composition hv hl hF (hinside hcomposed) h hs hodd' hi hbody hbody' hparts hbelow' _ _
  | union members =>
    cases members with
    | nil =>
      refine alike_get_bind ?_
      rw [h.graph.inlineOwner hi]
      exact alike_throw h _
    | cons first others =>
      exact alike_visitShapes hv hl hF h hs hodd' hi 0 (hshallow.shapes _ hbody) hbelow'

/-- A visit of a node ends alike if what is done inside of it does. -/
theorem alike_step (hv : ∀ q, Visits d q v) (h : F.Beside σ c c') (hs : c.Sound d F.query) {top : Nat}
    (hb : c.Budding i top)
    (hbody : (F.enter (some i) (some (σ i)) (c.graph.node i).body.isComposed).Alike σ (fun _ _ _ _ => True)
      (body d v i (c.graph.node i)) (body d v' (σ i) (c'.graph.node (σ i))) (c.enter (some i))
      (c'.enter (some (σ i)))) :
    F.Alike σ (fun _ _ _ _ => True) (step d v i) (step d v' (σ i)) c c' := by
  have hi := hb.sprout.lt_size
  refine alike_node_bind ?_
  rw [(h.graph.twins i).visited, hb.sprout.bud.unvisited]
  have hinside := works_inside (hv F.query) (sound_enter hs hi) hb.opened
  refine alike_within (R := fun _ _ _ _ => True) hi ?_ (hinside.grows.kept i hi)
  refine hbody.bind fun τ _ _ c₁ c₁' _ _ hτ h₁ _ => ?_
  have hupdate := alike_update h₁ (h₁.graph.visit (j := i))
  rwa [hτ i hi] at hupdate

end Footing

namespace Visit

open Footing

variable {d : Document} {R : List Json} {D fuel : Nat} {v v' : Visitor}

/-- Visits of one node in both runs end alike when those of the nodes below do. -/
theorem lockstep_step (hd : d.raw.Within R D) (hv : ∀ q, Visits d q v) (hl : Lockstep R D d fuel v v') :
    Lockstep R D d (fuel + 1) (step d v) (step d v') := by
  intro F σ c c' i top k hF h hs hb hodd hlow hcovers
  obtain ⟨k, rfl⟩ : ∃ m, k = m + 1 := ⟨k - 1, by have := hlow.pos; omega⟩
  refine alike_step hv h hs hb ?_
  refine alike_body hd hv hl (hF.enter _ _ _) (h.enter i) (sound_enter hs hb.sprout.lt_size) hodd hb.opened
    (fun hcomposed => ?_) hlow hcovers
  rw [graph_enter] at hcomposed
  rw [hcomposed]
  exact hF.inside _ _

/-- Visits within any depths end alike if the first depth is enough. -/
theorem lockstep_visitWithin (hd : d.raw.Within R D) {depth depth' : Nat} (hfuel : fuel ≤ depth)
    (hfuel' : fuel ≤ depth') : Lockstep R D d fuel (visitWithin d depth) (visitWithin d depth') := by
  -- The induction is on what is enough, since the two depths need not have anything in common.
  induction fuel generalizing depth depth' with
  | zero =>
    intro F σ c c' j top k _ _ _ _ _ hlow hcovers
    have := hlow.pos
    rw [Covers] at hcovers
    omega
  | succ fuel ih =>
    obtain ⟨depth, rfl⟩ : ∃ m, depth = m + 1 := ⟨depth - 1, by omega⟩
    obtain ⟨depth', rfl⟩ : ∃ m, depth' = m + 1 := ⟨depth' - 1, by omega⟩
    exact lockstep_step hd (fun _ => visits_visitWithin depth) (ih (by omega) (by omega))

end Visit

end ApiGraph
