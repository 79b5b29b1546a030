import ApiGraph.Proofs.Visiting.Resolution

/-!
# Visits keep a run sound

A visit of a sprout goes into each of its nodes at most once, grows the graph, and leaves alone what
was there before outside of the sprout.

* `Visits` — what is promised of the visits of nodes below;
* `works_resolve`, `works_body`, … — one lemma for each step of a visit;
* `visits_visitWithin` — visits of any depth keep the promise.
-/

namespace ApiGraph

open OrderedMap Context Visit

section

variable {α : Type} {d : Document} {q : Option NodeId} {P P' : NodeId → Prop} {c c' c₁ : Context}

/-- A step from a state that a few events and new nodes lead to. -/
theorem Works.of_eq {m m' : Run α} {R : α → Context → Prop} (h : Works d q P m' c₁ R)
    (he : m c = m' c₁) (hgrows : c.Grows P c₁) (hpursued : c.Pursued → c₁.Pursued) :
    Works d q P m c R := by
  have hafter : after m c = after m' c₁ := by rw [after, he, after]
  have houtcome : outcome m c = outcome m' c₁ := by rw [outcome, he, outcome]
  refine ⟨?_, ?_, fun a ha hp => ?_, fun a ha => ?_⟩
  · rw [hafter]
    exact hgrows.trans h.grows
  · rw [hafter]
    exact h.sound
  · rw [houtcome] at ha
    rw [hafter]
    exact h.pursued a ha (hpursued hp)
  · rw [houtcome] at ha
    rw [hafter]
    exact h.ok a ha

/-- What a step spares is known after it. -/
theorem Works.keep {m : Run α} {R : α → Context → Prop} (h : Works d q P' m c R)
    (hP : ∀ j, P j → P' j) : Works d q P m c fun a c' => R a c' ∧ c.Grows P' c' :=
  ⟨h.grows.mono hP, h.sound, h.pursued, fun a ha => ⟨h.ok a ha, h.grows⟩⟩

/-! ## References -/

theorem Missed.grows {ref : Json} (h : Missed c ref c') : c.Grows P c' := by
  have hentered : c'.entered = c.entered := by
    obtain ⟨new, hnew, hevents⟩ := h.transcript
    rw [Context.entered, hnew]
    refine Transcript.filterMap_reverse_of_none (fun e he => ?_) _
    rcases hevents e he with he | rfl | ⟨rfl, -⟩
    · exact he.entered
    · rfl
    · rfl
  refine ⟨by rw [h.graph], fun j _ => ?_, fun j _ => ?_, h.types ▸ List.prefix_refl _,
    by rw [hentered]; exact id, ?_, Graph.closedFrom_of_size_le (by rw [h.graph])⟩
  · rw [h.graph, hentered]
    exact ⟨rfl, id⟩
  · rw [h.graph]
    exact Node.Kept.refl _
  · obtain ⟨new, hnew, -⟩ := h.transcript
    exact ⟨new, hnew.symm⟩

/-- Events that are about references only, and look up none that is stored. -/
theorem Context.Sound.append {new : Transcript} (hs : c.Sound d q)
    (hnew : ∀ e ∈ new, e.Idle ∨ (∃ ref, e = .met ref) ∨
      ∃ ref, e = .lookedUp ref ∧ c.stored? ref = none) :
    ({ c with transcript := new ++ c.transcript } : Context).Sound d q := by
  have hentered : (Context.entered { c with transcript := new ++ c.transcript }) = c.entered := by
    refine Transcript.filterMap_reverse_of_none (fun e he => ?_) _
    rcases hnew e he with he | ⟨_, rfl⟩ | ⟨_, rfl, -⟩
    · exact he.entered
    · rfl
    · rfl
  have hunbuilt : ∀ e ∈ new, e.built? = none := by
    intro e he
    rcases hnew e he with he | ⟨_, rfl⟩ | ⟨_, rfl, -⟩
    · exact he.built
    · rfl
    · rfl
  have hbuilds : Transcript.builds (new ++ c.transcript) = c.transcript.builds :=
    Transcript.filterMap_reverse_of_none hunbuilt _
  refine ⟨?_, hs.distinct, ?_, hs.linked, hs.named, ?_, ?_, hs.handmade⟩
  · rw [hbuilds]
    exact hs.types_eq
  · rw [hbuilds]
    exact hs.built
  · rw [hentered]
    exact hs.entered_lt
  · refine List.pairwise_append.2 ⟨?_, hs.once, ?_⟩
    · refine List.Pairwise.imp_of_mem (R := fun _ _ => True) ?_
        (List.pairwise_of_forall fun _ _ => trivial)
      rintro later earlier - hearlier - ref i rfl
      cases hunbuilt _ hearlier
    · rintro later hlater earlier hearlier ref i rfl
      refine ⟨?_, fun j => ?_⟩ <;> rintro rfl
      · rcases hnew _ hlater with he | ⟨_, he⟩ | ⟨ref', he, hnone⟩
        · cases he.lookedUp
        · cases he
        · cases he
          have hstored := hs.stored?_eq_some_iff.2 (Transcript.mem_builds.2 hearlier)
          rw [hnone] at hstored
          cases hstored
      · cases hunbuilt _ hlater

theorem Missed.sound {ref : Json} (h : Missed c ref c') (hs : c.Sound d q) : c'.Sound d q := by
  obtain ⟨new, hnew, hevents⟩ := h.transcript
  have happend := hs.append fun e he => (hevents e he).imp id
    (Or.imp (fun he => ⟨ref, he⟩) fun he => ⟨ref, he⟩)
  have hstill : ({ c with transcript := new ++ c.transcript } : Context).Still c' :=
    ⟨h.graph, h.types, [], hnew, (by simp)⟩
  exact hstill.sound happend

theorem missed_meet (c : Context) (ref : Json) : Missed c ref (c.meet ref) :=
  ⟨rfl, rfl, [.met ref], rfl, fun _ he => .inr (.inl (List.mem_singleton.1 he))⟩

theorem grows_meet (c : Context) (ref : Json) : c.Grows P (c.meet ref) := (missed_meet c ref).grows

theorem sound_meet (hs : c.Sound d q) (ref : Json) : (c.meet ref).Sound d q :=
  (missed_meet c ref).sound hs

theorem pursued_meet {ref : Json} {i : NodeId} (h : c.stored? ref = some i) (hp : c.Pursued) :
    (c.meet ref).Pursued := by
  have hmet : (c.meet ref).transcript.metReferences = c.transcript.metReferences ++ [ref] := by
    simp [Context.meet, Transcript.metReferences, Event.metReference?]
  have hlookups : (c.meet ref).transcript.lookups = c.transcript.lookups := by
    simp [Context.meet, Transcript.lookups, Event.lookedUp?]
  have hbuilds : (c.meet ref).transcript.builds = c.transcript.builds := by
    simp [Context.meet, Transcript.builds, Event.built?]
  refine ⟨fun ref' href => ?_, by rw [hlookups, hbuilds, hp.lookups]⟩
  rw [hmet] at href
  rcases List.mem_append.1 href with href | href
  · exact hp.stored ref' href
  · rw [List.mem_singleton.1 href]
    exact ⟨i, h⟩

/-- What is promised of the visits of nodes below. -/
def Visits (d : Document) (q : Option NodeId) (v : Visitor) : Prop :=
  ∀ {c : Context} {i : NodeId} {top : Nat}, c.Sound d q → c.Budding i top →
    Works d q (c.Outside i top) (v i) c fun _ _ => True

variable {v : Visitor}

/-- A reference is resolved to the node that is stored for it. -/
theorem works_resolve (hv : Visits d q v) (hs : c.Sound d q) (owner : Option NodeId) (ref : Json) :
    Works d q c.Old (resolve d v owner ref) c fun i c' => c'.stored? ref = some i := by
  rcases resolve_cases d v owner ref c with
    ⟨i, text, hstored, he⟩ | ⟨i, text, c', hbound, he⟩ | ⟨fault, c', -, hmissed, -, he⟩
  · refine Works.of_eq ?_ he (grows_meet c ref) (pursued_meet hstored)
    have hs' := sound_meet hs ref
    exact (Run.idle_trace _ _).works_bind hs' fun _ c₁ _ hstill hs₁ =>
      works_pure hs₁ ((hstill.stored? ref).trans hstored)
  · refine Works.of_eq ?_ he (hbound.grows hs) (hbound.pursued hs)
    have hs' := hbound.sound hs
    have hindex := hbound.index
    have hold : ∀ j, c.Old j → c'.Outside i c'.graph.size j := by
      intro j hj
      have hlt : j.index < c.graph.size := hj
      have hsize := hbound.size_lt
      exact ⟨by omega, by omega⟩
    refine Works.bind ((hv hs' (hbound.budding hs)).keep hold) fun _ c₁ _ hs₁ h₁ => ?_
    refine (Run.idle_trace _ _).works_bind hs₁ fun _ c₂ _ hstill hs₂ => works_pure hs₂ ?_
    rw [hstill.stored? ref]
    exact h₁.2.stored? hbound.stored?
  · refine ⟨?_, ?_, fun a ha => ?_, fun a ha => ?_⟩
    · rw [after_of_error he]
      exact hmissed.grows
    · rw [after_of_error he]
      exact hmissed.sound hs
    all_goals
      rw [outcome_of_error he] at ha
      cases ha

/-! ## Compositions -/

theorem works_collectFrom (hv : Visits d q v) (hs : c.Sound d q) (hP : ∀ j, P j → c.Old j)
    (i : NodeId) (collected : OrderedMap Key NodeId) (members : List Json) :
    Works d q P (collectFrom v i collected members) c fun _ _ => True := by
  induction members generalizing c collected with
  | nil => exact works_pure hs trivial
  | cons schema rest ih =>
    refine Works.bind ((works_fromSchema hs (some i) schema).mono hP fun _ _ h => h)
      fun member c₁ _ hs₁ hsprouted => ?_
    have hout : ∀ j, P j → c₁.Outside member c₁.graph.size j := by
      intro j hj
      have hlt : j.index < c.graph.size := hP j hj
      have := hsprouted.size_lt
      have := hsprouted.planted.index
      exact ⟨by omega, by omega⟩
    refine Works.bind ((hv hs₁ (hsprouted.budding hs)).mono hout fun _ _ h => h)
      fun _ c₂ hgrows hs₂ _ => ?_
    refine (Run.idle_onGraph _).works_bind hs₂ fun props c₃ _ hstill hs₃ => ih hs₃ ?_ _
    intro j hj
    have hlt : j.index < c.graph.size := hP j hj
    have := hsprouted.size_lt
    have := hgrows.size_le
    show j.index < c₃.graph.size
    rw [hstill.graph]
    omega

theorem works_collect (hv : Visits d q v) (hs : c.Sound d q) (i : NodeId) :
    Works d q c.Old (collect v i) c fun _ _ => True := by
  refine (Run.idle_node i).works_bind hs fun n c₁ _ h₁ hs₁ => ?_
  refine (Run.idle_lift _).works_bind hs₁ fun members c₂ _ h₂ hs₂ => ?_
  refine (Run.idle_lift _).works_bind hs₂ fun elements c₃ _ h₃ hs₃ => ?_
  refine works_collectFrom hv hs₃ (fun j hj => ?_) i [] elements
  have hlt : j.index < c.graph.size := hj
  show j.index < c₃.graph.size
  rwa [h₃.graph, h₂.graph, h₁.graph]

theorem idle_selectEach (candidates : List NodeId) : Idle (selectEach candidates) := by
  induction candidates with
  | nil => exact idle_pure _
  | cons i rest ih =>
    exact (Run.idle_onGraph _).bind fun _ => (Run.idle_askYesNo _).bind fun _ =>
      ih.bind fun _ => idle_pure _

theorem idle_select (i : NodeId) (candidates : OrderedMap Key NodeId) :
    Idle (select i candidates) := by
  unfold select
  split
  · exact idle_pure _
  · refine (Run.idle_lift _).bind fun _ => idle_get_bind fun c => (Run.idle_ask _).bind fun answer => ?_
    cases answer with
    | yes => exact idle_pure _
    | subset => exact idle_selectEach _
    | no => exact idle_pure _

/-- Storing a node under a name that is taken changes nothing. -/
theorem still_store {name : Json} {j : NodeId} (h : c.stored? name = some j) (i : NodeId) :
    c.Still (after (Run.store name i) c) := by
  obtain ⟨e, he, htrace⟩ := trace_eq "   [store]" ("storing: " ++ name.display) c
  have hfirst : c.Still { c with transcript := e :: c.transcript } :=
    ⟨rfl, rfl, [e], rfl, fun e' he' => List.mem_singleton.1 he' ▸ he⟩
  refine hfirst.trans ?_
  rw [Context.stored?] at h
  cases hkey : name.key? with
  | none => rw [hkey] at h; cases h
  | some key =>
    rw [hkey, Option.bind_some] at h
    have hstore : Run.store name i c =
        (do if j ≠ i then Run.warnTaken name i
            return j : Run NodeId) { c with transcript := e :: c.transcript } := by
      have hread : Run.keyOf name { c with transcript := e :: c.transcript } =
          .ok key { c with transcript := e :: c.transcript } := by
        rw [Run.keyOf, hkey]
        rfl
      rw [Run.store, bind_of_ok htrace, bind_of_ok hread, bind_of_ok (m := get) rfl]
      simp only [h]
    rw [after, hstore]
    by_cases hne : j ≠ i
    · rw [if_pos hne]
      exact ((Run.idle_warnTaken name i).bind fun _ => idle_pure j) _
    · rw [if_neg hne]
      exact Still.refl _

/-- A composition with a name is stored under it. -/
theorem stored?_of_composed (hs : c.Sound d q) {i : NodeId}
    (hi : (c.graph.node i).body.isComposed = true) (hname : (c.graph.node i).name.isNull = false) :
    c.stored? (c.graph.node i).name = some i := by
  refine hs.named i ?_ ?_ hname
  · rintro rfl
    rw [(hs.handmade i rfl).2] at hi
    cases hi
  · rw [Node.slot?]
    split
    · next hbody => rw [hbody] at hi; cases hi
    · next hbody => rw [hbody] at hi; cases hi
    · rfl

/-- A composition with a name is stored under it already. -/
theorem works_storeNamed (hs : c.Sound d q) {i : NodeId}
    (hi : (c.graph.node i).body.isComposed = true) :
    Works d q P (storeNamed i) c fun _ c' => c.Still c' := by
  have hstill : c.Still (after (storeNamed i) c) := by
    show c.Still (after (do
      unless (c.graph.node i).name.isNull do
        let _ ← Run.store (c.graph.node i).name i : Run Unit) c)
    cases hname : (c.graph.node i).name.isNull with
    | true => exact Still.refl c
    | false =>
      have hstore := still_store (stored?_of_composed hs hi hname) i
      have hafter : after (do
          unless false do
            let _ ← Run.store (c.graph.node i).name i : Run Unit) c =
          after (Run.store (c.graph.node i).name i) c := by
        show after (Run.store _ i >>= fun _ => pure ()) c = _
        cases ho : outcome (Run.store (c.graph.node i).name i) c with
        | ok j => rw [after_bind_of_ok ho]; rfl
        | error fault => rw [after_bind_of_error ho]
      rw [hafter]
      exact hstore
  exact ⟨hstill.grows, hstill.sound hs, fun _ _ => hstill.pursued, fun _ _ => hstill⟩

/-- A composition takes over a property. -/
theorem works_put (hs : c.Sound d q) {i : NodeId} (hlt : i.index < c.graph.size) (hP : ¬P i)
    (hi : (c.graph.node i).body.isComposed = true) (prop : NodeId) :
    Works d q P (Run.put i prop) c fun _ _ => True := by
  refine (Run.idle_node prop).works_bind hs fun n c₁ _ h₁ hs₁ => ?_
  refine (Run.idle_keyOf _).works_bind hs₁ fun key c₂ _ h₂ hs₂ => ?_
  have hgraph : c₂.graph = c.graph := h₂.graph.trans h₁.graph
  refine Works.mono (works_update hs₂ (by rwa [hgraph]) hP ?_ fun link t hlink ht => ?_)
    (fun _ h => h) fun _ _ _ => trivial
  · rw [hgraph]
    exact Node.kept_putProperty hi key prop
  · rw [Node.body_putProperty] at hlink
    exact hs₂.linked i link t hlink ht

theorem works_putEach (hs : c.Sound d q) {i : NodeId} (hlt : i.index < c.graph.size) (hP : ¬P i)
    (hi : (c.graph.node i).body.isComposed = true) (props : List NodeId) :
    Works d q P (props.forM (Run.put i)) c fun _ _ => True := by
  induction props generalizing c with
  | nil => exact works_pure hs trivial
  | cons prop rest ih =>
    refine Works.bind (works_put hs hlt hP hi prop) fun _ c₁ hgrows hs₁ _ => ?_
    refine ih hs₁ (hlt.trans_le hgrows.size_le) ?_
    rw [(hgrows.kept i hlt).isComposed]
    exact hi

theorem works_visitAllOf (hv : Visits d q v) (hs : c.Sound d q) {i : NodeId}
    (hlt : i.index < c.graph.size) (hP : ∀ j, P j → c.Old j ∧ j ≠ i)
    (hi : (c.graph.node i).body.isComposed = true) :
    Works d q P (visitAllOf v i) c fun _ _ => True := by
  have hPi : ¬P i := fun h => (hP i h).2 rfl
  refine Works.bind ((works_collect hv hs i).mono (fun j hj => (hP j hj).1) fun _ _ h => h)
    fun collected c₁ hgrows hs₁ _ => ?_
  have hi₁ : (c₁.graph.node i).body.isComposed = true := by
    rw [(hgrows.kept i hlt).isComposed]
    exact hi
  have hlt₁ := hlt.trans_le hgrows.size_le
  have hrest : ∀ kept (c₂ : Context), c₁.Still c₂ → c₂.Sound d q →
      Works d q P (do List.forM kept (Run.put i); storeNamed i : Run Unit) c₂
        fun _ _ => True := by
    intro kept c₂ h₂ hs₂
    have hlt₂ : i.index < c₂.graph.size := by rwa [h₂.graph]
    have hi₂ : (c₂.graph.node i).body.isComposed = true := by rwa [h₂.graph]
    refine Works.bind (works_putEach hs₂ hlt₂ hPi hi₂ kept) fun _ c₃ hgrows₃ hs₃ _ => ?_
    have hi₃ : (c₃.graph.node i).body.isComposed = true := by
      rw [(hgrows₃.kept i hlt₂).isComposed]
      exact hi₂
    exact (works_storeNamed hs₃ hi₃).mono (fun _ h => h) fun _ _ _ => trivial
  refine works_get_bind ?_
  extract_lets rest
  split
  · exact (idle_pure _).works_bind hs₁ fun kept c₂ _ h₂ hs₂ => hrest kept c₂ h₂ hs₂
  · exact (idle_select i collected).works_bind hs₁ fun kept c₂ _ h₂ hs₂ => hrest kept c₂ h₂ hs₂

/-! ## Choices -/

/-- A choice between shapes is made, and nothing else has happened. -/
theorem works_fromUnion (hs : c.Sound d q) (parent : Option NodeId) (members : Json) :
    Works d q c.Old (Build.fromUnion parent members) c fun u c' => ∃ shapes,
      members.elements = .ok shapes ∧ Planted c.graph c'.graph u ∧
        ({ c with graph := c'.graph } : Context).Still c' ∧
        c'.graph.node u = { body := .union shapes, parent := parent } ∧
        c'.Budding u c'.graph.size := by
  cases helements : members.elements with
  | error fault =>
    have hrun : Build.fromUnion parent members c = .error fault c := by
      rw [Build.fromUnion, helements]
      rfl
    refine ⟨?_, ?_, fun a ha => ?_, fun a ha => ?_⟩
    · rw [after_of_error hrun]
      exact (Still.refl c).grows
    · rw [after_of_error hrun]
      exact hs
    all_goals
      rw [outcome_of_error hrun] at ha
      cases ha
  | ok shapes =>
    have hrun : Build.fromUnion parent members c =
        .ok (c.graph.alloc { body := .union shapes, parent := parent }).1
          { c with
            graph := (c.graph.alloc { body := .union shapes, parent := parent }).2 } := by
      rw [Build.fromUnion, helements]
      rfl
    have hplanted := Graph.planted_alloc c.graph
      (n := { body := .union shapes, parent := parent }) (Graph.loose_of_body rfl (by simp)) (by simp) rfl
      rfl rfl rfl
    have hsize : c.graph.size ≤
        (c.graph.alloc { body := .union shapes, parent := parent }).2.size := by
      rw [Graph.size_alloc]
      exact Nat.le_succ _
    have hkept : ∀ j, j.index < c.graph.size → (c.graph.node j).Kept
        ((c.graph.alloc { body := .union shapes, parent := parent }).2.node j) := by
      intro j hj
      rw [hplanted.node_eq j hj]
      exact Node.Kept.refl _
    refine ⟨?_, ?_, fun a ha hp => ?_, fun a ha => ?_⟩
    · rw [after_of_ok hrun]
      exact Grows.setGraph hsize (fun j hj => hplanted.node_eq j hj) hkept hplanted.closed
    · rw [after_of_ok hrun]
      refine hs.setGraph hsize hkept (fun j link t hj hlink ht => ?_) fun j hj =>
        (hplanted.loose j hj).unlinked
      rw [hplanted.node_eq j hj] at hlink
      exact hs.linked j link t hlink ht
    · rw [after_of_ok hrun]
      exact ⟨hp.stored, hp.lookups⟩
    · rw [outcome_of_ok hrun] at ha
      cases ha
      rw [after_of_ok hrun]
      refine ⟨shapes, rfl, hplanted, Still.refl _, Graph.node_alloc_self _ _, hplanted.sprout,
        fun j hj _ hmem => ?_⟩
      exact absurd (hs.entered_lt j hmem) (Nat.not_lt.2 hj)

/-- A node gets another child. -/
theorem works_addChild (hs : c.Sound d q) {i : NodeId} (hlt : i.index < c.graph.size)
    (child : Option NodeId) :
    Works d q (· ≠ i) (Run.update i fun n => n.addChild child) c fun _ c' =>
      c' = { c with graph := c.graph.update i fun n => n.addChild child } := by
  refine works_update hs hlt (fun h => h rfl) ((Node.Kept.refl _).addChild child)
    fun link t hlink ht => ?_
  rw [Node.body_addChild] at hlink
  exact hs.linked i link t hlink ht

theorem works_visitOneOf (hv : Visits d q v) (hs : c.Sound d q) {i : NodeId}
    (hlt : i.index < c.graph.size) (hP : ∀ j, P j → c.Old j ∧ j ≠ i)
    (hi : (c.graph.node i).body.isComposed = true) (members : Option Json) :
    Works d q P (visitOneOf v i members) c fun _ _ => True := by
  have hPi : ¬P i := fun h => (hP i h).2 rfl
  refine (Run.idle_lift _).works_bind hs fun declared c₁ _ h₁ hs₁ => ?_
  have hP₁ : ∀ j, P j → c₁.Old j := by
    intro j hj
    show j.index < c₁.graph.size
    rw [h₁.graph]
    exact (hP j hj).1
  refine Works.bind ((works_fromUnion hs₁ (some i) declared).mono hP₁ fun _ _ h => h)
    fun union c₂ hgrows₂ hs₂ hunion => ?_
  obtain ⟨shapes, -, hplanted, -, -, hbudding⟩ := hunion
  have hindex := hplanted.index
  have hlt₂ : i.index < c₂.graph.size := by
    have := hgrows₂.size_le
    rw [h₁.graph] at this
    omega
  have hiu : i.index < union.index := by rwa [hindex, h₁.graph]
  refine Works.bind ((works_addChild hs₂ hlt₂ (some union)).keep fun j hj => (hP j hj).2)
    fun _ c₃ _ hs₃ h₃ => ?_
  have hbudding₃ : c₃.Budding union c₂.graph.size :=
    h₃.2.budding hbudding fun j hj _ => by rintro rfl; omega
  have hout : ∀ j, P j → c₃.Outside union c₂.graph.size j := by
    intro j hj
    have hlt : j.index < c.graph.size := (hP j hj).1
    have := h₃.2.size_le
    have := hgrows₂.size_le
    rw [h₁.graph] at hindex this
    exact ⟨by omega, by omega⟩
  refine Works.bind ((hv hs₃ hbudding₃).mono hout fun _ _ h => h) fun _ c₄ hgrows₄ hs₄ _ => ?_
  have hi₄ : (c₄.graph.node i).body.isComposed = true := by
    rw [(hgrows₄.kept i (hlt₂.trans_le h₃.2.size_le)).isComposed, (h₃.2.kept i hlt₂).isComposed,
      (hgrows₂.kept i (by rwa [h₁.graph])).isComposed, h₁.graph]
    exact hi
  exact (works_storeNamed hs₄ hi₄).mono (fun _ h => h) fun _ _ _ => trivial

theorem works_visitShapes (hv : Visits d q v) (hs : c.Sound d q) {i : NodeId}
    (hlt : i.index < c.graph.size) (hP : ∀ j, P j → c.Old j ∧ j ≠ i) (position : Nat)
    (shapes : List Json) :
    Works d q P (visitShapes v i position shapes) c fun _ _ => True := by
  have hPi : ¬P i := fun h => (hP i h).2 rfl
  induction shapes generalizing c position with
  | nil => exact works_pure hs trivial
  | cons schema rest ih =>
    refine Works.bind ((works_fromSchema hs (some i) schema).mono (fun j hj => (hP j hj).1)
      fun _ _ h => h) fun member c₁ _ hs₁ hsprouted => ?_
    have hsize := hsprouted.size_lt
    have hindex := hsprouted.planted.index
    have hout : ∀ j, P j → c₁.Outside member c₁.graph.size j := by
      intro j hj
      have hlt : j.index < c.graph.size := (hP j hj).1
      exact ⟨by omega, by omega⟩
    refine Works.bind ((hv hs₁ (hsprouted.budding hs)).mono hout fun _ _ h => h)
      fun _ c₂ hgrows₂ hs₂ _ => ?_
    have hlt₂ : i.index < c₂.graph.size := hlt.trans (hsize.trans_le hgrows₂.size_le)
    have hrest : ∀ c₃ : Context, c₂.graph.size ≤ c₃.graph.size → c₃.Sound d q →
        Works d q P (visitShapes v i (position + 1) rest) c₃ fun _ _ => True := by
      intro c₃ hsize₃ hs₃
      refine ih hs₃ (hlt₂.trans_le hsize₃) (fun j hj => ⟨?_, (hP j hj).2⟩) _
      have hlt : j.index < c.graph.size := (hP j hj).1
      have := hgrows₂.size_le
      show j.index < c₃.graph.size
      omega
    dsimp only
    split
    · exact Works.bind ((works_addChild hs₂ hlt₂ (some member)).mono (fun j hj => (hP j hj).2)
        fun _ _ h => h) fun _ c₃ hgrows₃ hs₃ _ => hrest c₃ hgrows₃.size_le hs₃
    · exact (Run.idle_trace _ _).works_bind hs₂ fun _ c₃ _ hstill hs₃ =>
        hrest c₃ (by rw [hstill.graph]) hs₃

/-! ## One visit -/

/-- The nodes that are there, except those of the sprouts of a list of nodes. -/
def OutsideAll (c : Context) (ends : NodeId → Nat) (ks : List NodeId) (j : NodeId) : Prop :=
  c.Old j ∧ ∀ k ∈ ks, ¬(k.index ≤ j.index ∧ j.index < ends k)

/-- Visits the nodes of a list, none of which may be missing. -/
def visitEach (v : Visitor) (ks : List (Option NodeId)) : Run Unit :=
  ks.forM fun k => do v (← Run.lift (expect k))

theorem filterMap_id_singleton (k : Option NodeId) : [k].filterMap id = k.toList := by
  cases k <;> rfl

theorem visitEach_map_some (v : Visitor) (ks : List NodeId) :
    visitEach v (ks.map some) = ks.forM v := by
  induction ks with
  | nil => rfl
  | cons k ks ih => exact congrArg (fun m => v k >>= fun _ => m) ih

theorem visitEach_singleton (v : Visitor) (k : Option NodeId) :
    visitEach v [k] = (do v (← Run.lift (expect k))) :=
  bind_pure (Run.lift (expect k) >>= v)

theorem visitEach_append (v : Visitor) (ks : List (Option NodeId)) (k : Option NodeId) :
    visitEach v (ks ++ [k]) = (do
      ks.forM fun k => do v (← Run.lift (expect k))
      v (← Run.lift (expect k))) := by
  induction ks with
  | nil => exact visitEach_singleton v k
  | cons k' ks ih =>
    show (Run.lift (expect k') >>= v >>= fun _ => visitEach v (ks ++ [k])) = _
    rw [ih]
    exact (bind_assoc _ _ _).symm

/-- Sprouts apart from one another are visited one by one. One that is missing is a fault. -/
theorem works_visitEach (hv : Visits d q v) (hs : c.Sound d q) (ends : NodeId → Nat)
    (ks : List (Option NodeId)) (hbudding : ∀ k ∈ ks.filterMap id, c.Budding k (ends k))
    (hapart : (ks.filterMap id).Pairwise fun j k => ends j ≤ k.index ∨ ends k ≤ j.index) :
    Works d q (OutsideAll c ends (ks.filterMap id)) (visitEach v ks) c fun _ _ => True := by
  induction ks generalizing c with
  | nil => exact works_pure hs trivial
  | cons k rest ih =>
    cases k with
    | none =>
      refine Works.bind (R := fun _ _ => False) ?_ fun _ _ _ _ h => h.elim
      exact Works.bind (R := fun _ _ => False) (works_throw hs) fun _ _ _ _ h => h.elim
    | some k =>
      have hks : (some k :: rest).filterMap id = k :: rest.filterMap id := rfl
      rw [hks] at hbudding hapart ⊢
      obtain ⟨hk, hrest⟩ := List.pairwise_cons.1 hapart
      have hfirst : Works d q (c.Outside k (ends k))
          (do v (← Run.lift (expect (some k))) : Run Unit) c fun _ _ => True :=
        hv hs (hbudding k List.mem_cons_self)
      refine Works.bind (hfirst.keep fun j hj => ⟨hj.1, hj.2 k List.mem_cons_self⟩)
        fun _ c₁ _ hs₁ h₁ => ?_
      have hbudding₁ : ∀ m ∈ rest.filterMap id, c₁.Budding m (ends m) := by
        intro m hm
        have hb := hbudding m (List.mem_cons_of_mem _ hm)
        refine h₁.2.budding hb fun j hmj hj => ⟨?_, ?_⟩
        · have := hb.sprout.below_size
          omega
        · have := hk m hm
          omega
      refine (ih hs₁ hbudding₁ hrest).mono (fun j hj => ⟨?_, fun m hm => ?_⟩) fun _ _ h => h
      · exact hj.1.trans_le h₁.2.size_le
      · exact hj.2 m (List.mem_cons_of_mem _ hm)

/-- A node whose own sprout is visited: only the node itself was gone into. -/
structure Context.Opened (c : Context) (i : NodeId) (top : Nat) : Prop where
  sprout : Sprout c.graph i top
  fresh : ∀ j, i.index < j.index → j.index < top → j ∉ c.entered

theorem Context.Still.opened {i : NodeId} {top : Nat} (h : c.Still c') (ho : c.Opened i top) :
    c'.Opened i top := by
  refine ⟨?_, ?_⟩
  · rw [h.graph]
    exact ho.sprout
  · rw [h.entered]
    exact ho.fresh

/-- Going into the root of a sprout opens it. -/
theorem Context.Budding.opened {i : NodeId} {top : Nat} (h : c.Budding i top) :
    (c.enter (some i)).Opened i top := by
  refine ⟨h.sprout, fun j hij hj hmem => ?_⟩
  rw [entered_enter] at hmem
  rcases List.mem_append.1 hmem with hmem | hmem
  · exact h.fresh j hij.le hj hmem
  · rw [List.mem_singleton.1 hmem] at hij
    exact hij.false

/-- The nodes below an opened one are visited. -/
theorem works_visitBelow (hv : Visits d q v) (hs : c.Sound d q) {i : NodeId} {top : Nat}
    (ho : c.Opened i top) {ks : List (Option NodeId)}
    (hks : ks.filterMap id = (c.graph.node i).below) :
    Works d q (c.Outside i top) (visitEach v ks) c fun _ _ => True := by
  obtain ⟨ends, -, -, -, order, apart, sprouts⟩ := ho.sprout
  rw [← hks] at order apart sprouts
  have hbudding : ∀ k ∈ ks.filterMap id, c.Budding k (ends k) := by
    intro k hk
    obtain ⟨hik, htop⟩ := order k hk
    exact ⟨sprouts k hk, fun j hkj hj => ho.fresh j (by omega) (by omega)⟩
  refine (works_visitEach hv hs ends ks hbudding apart).mono (fun j hj => ⟨hj.1, fun k hk h => ?_⟩)
    fun _ _ h => h
  obtain ⟨hik, htop⟩ := order k hk
  have := hj.2
  omega

/-- A node is linked to where its reference leads. -/
theorem works_link (hs : c.Sound d q) {i : NodeId} (hlt : i.index < c.graph.size) {ref : Json}
    {body : Link → Body} (hbody : ∀ link, (body link).link? = some link)
    (hunlinked : ∀ target, (body ⟨ref, target⟩).unlinked = (c.graph.node i).body.unlinked)
    {target : NodeId} (hstored : c.stored? ref = some target) :
    Works d q (· ≠ i) (Run.update i fun n =>
        { n with body := body ⟨ref, some target⟩ }.addChild target) c fun _ c' =>
      c' = { c with
        graph := c.graph.update i fun n =>
          { n with body := body ⟨ref, some target⟩ }.addChild target } := by
  refine works_update hs hlt (fun h => h rfl) ?_ fun link t hlink ht => ?_
  · have hkept : (c.graph.node i).Kept { c.graph.node i with body := body ⟨ref, some target⟩ } :=
      ⟨hunlinked (some target), rfl, rfl, rfl, fun _ => rfl⟩
    exact hkept.addChild _
  · rw [Node.body_addChild, hbody] at hlink
    cases hlink
    cases ht
    exact hstored

/-- A reference is followed, and the node linked to where it leads. -/
theorem works_follow (hv : Visits d q v) (hs : c.Sound d q) {i : NodeId}
    (hlt : i.index < c.graph.size) (hP : ∀ j, P j → c.Old j ∧ j ≠ i) {ref : Json} (body : Link → Body)
    (hbody : ∀ link, (body link).link? = some link)
    (hunlinked : ∀ target, (body ⟨ref, target⟩).unlinked = (c.graph.node i).body.unlinked) :
    Works d q P (do
      let target ← resolve d v (some i) ref
      Run.update i fun n => { n with body := body ⟨ref, some target⟩ }.addChild target) c
      fun _ _ => True := by
  refine Works.bind ((works_resolve hv hs (some i) ref).keep fun j hj => (hP j hj).1)
    fun target c₁ hgrows₁ hs₁ h₁ => ?_
  obtain ⟨hstored, hgrows⟩ := h₁
  have hsame : c₁.graph.node i = c.graph.node i := (hgrows.spared i hlt).1
  have hlink := works_link hs₁ (hlt.trans_le hgrows₁.size_le) hbody
    (fun target => by rw [hsame]; exact hunlinked target) hstored
  exact hlink.mono (fun j hj => (hP j hj).2) fun _ _ _ => trivial

theorem works_visitComposed (hv : Visits d q v) (hs : c.Sound d q) {i : NodeId}
    (hlt : i.index < c.graph.size) (hP : ∀ j, P j → c.Old j ∧ j ≠ i)
    (hi : (c.graph.node i).body.isComposed = true) (n : Node) (kind : Composition)
    (members : Option Json) :
    Works d q P (visitComposed v i n kind members) c fun _ _ => True := by
  have hplace : ∀ c₁ : Context, c.Still c₁ → i.index < c₁.graph.size ∧
      (c₁.graph.node i).body.isComposed = true ∧ ∀ j, P j → c₁.Old j ∧ j ≠ i := by
    intro c₁ h₁
    refine ⟨by rwa [h₁.graph], by rwa [h₁.graph], fun j hj => ⟨?_, (hP j hj).2⟩⟩
    rw [Old, h₁.graph]
    exact (hP j hj).1
  -- the last trace comes after what either kind of composition does
  have hout : ∀ {step : Run Unit} {c₁ : Context}, Works d q P step c₁ (fun _ _ => True) →
      Works d q P (do step; Run.trace "<- [composed]" ("out: " ++ n.nameOr "[object]")) c₁
        fun _ _ => True := fun hstep =>
    Works.bind hstep fun _ _ _ hs₂ _ =>
      ((Run.idle_trace _ _).works hs₂).mono (fun _ h => h) fun _ _ _ => trivial
  have hall : ∀ c₁ : Context, c.Still c₁ → c₁.Sound d q →
      Works d q P (visitAllOf v i) c₁ fun _ _ => True := by
    intro c₁ h₁ hs₁
    obtain ⟨hlt₁, hi₁, hP₁⟩ := hplace c₁ h₁
    exact works_visitAllOf hv hs₁ hlt₁ hP₁ hi₁
  have hone : ∀ c₁ : Context, c.Still c₁ → c₁.Sound d q →
      Works d q P (visitOneOf v i members) c₁ fun _ _ => True := by
    intro c₁ h₁ hs₁
    obtain ⟨hlt₁, hi₁, hP₁⟩ := hplace c₁ h₁
    exact works_visitOneOf hv hs₁ hlt₁ hP₁ hi₁ members
  refine (Run.idle_trace _ _).works_bind hs fun _ c₁ _ h₁ hs₁ => works_get_bind ?_
  extract_lets out rest
  split
  · cases kind with
    | allOf => exact hout (hall c₁ h₁ hs₁)
    | oneOf => exact hout (hone c₁ h₁ hs₁)
  · refine (Run.idle_log _ _ _).works_bind hs₁ fun _ c₂ _ h₂ hs₂ => ?_
    cases kind with
    | allOf => exact hout (hall c₂ (h₁.trans h₂) hs₂)
    | oneOf => exact hout (hone c₂ (h₁.trans h₂) hs₂)

/-- What a visit does inside its node. -/
theorem works_body (hv : Visits d q v) (hs : c.Sound d q) {i : NodeId} {top : Nat}
    (ho : c.Opened i top) :
    Works d q (c.Outside i top) (body d v i (c.graph.node i)) c fun _ _ => True := by
  have hlt := ho.sprout.lt_size
  have hinside := ho.sprout.inside
  have hP : ∀ j, c.Outside i top j → c.Old j ∧ j ≠ i := by
    refine fun j hj => ⟨hj.1, ?_⟩
    rintro rfl
    exact hj.2 ⟨le_rfl, hinside⟩
  unfold body
  split
  · exact works_throw hs
  · exact works_pure hs trivial
  · next hbody =>
    have hks : ((values (c.graph.node i).props).map some).filterMap id =
        (c.graph.node i).below := by
      rw [Node.below, hbody]
      simp
    refine (Run.idle_trace _ _).works_bind hs fun _ c₁ _ h₁ hs₁ => ?_
    have hvisit := works_visitBelow hv hs₁ (h₁.opened ho) (hks.trans (by rw [h₁.graph]))
    rw [visitEach_map_some] at hvisit
    refine Works.bind (hvisit.mono (fun j hj => ?_) fun _ _ h => h) fun _ c₂ _ hs₂ _ => ?_
    · rw [Outside, h₁.graph]
      exact hj
    · exact ((Run.idle_trace _ _).works hs₂).mono (fun _ h => h) fun _ _ _ => trivial
  · next items hbody =>
    rw [← visitEach_singleton]
    refine works_visitBelow hv hs ho ?_
    rw [Node.below, hbody]
    exact filterMap_id_singleton items
  · next link hbody =>
    exact works_follow hv hs hlt hP _ (fun _ => rfl) fun _ => by rw [hbody]; rfl
  · next slot arguments link hbody =>
    refine works_follow hv hs hlt hP (fun link => .property slot arguments (some link))
      (fun _ => rfl) fun _ => by rw [hbody]; rfl
  · next slot arguments hbody =>
    rw [← visitEach_append]
    refine works_visitBelow hv hs ho ?_
    rw [Node.below, hbody, List.filterMap_append, filterMap_id_singleton]
  · next slot hbody =>
    rw [← visitEach_singleton]
    refine works_visitBelow hv hs ho ?_
    rw [Node.below, hbody]
    exact filterMap_id_singleton slot.type
  · next kind members hbody =>
    refine works_visitComposed hv hs hlt hP ?_ _ kind members
    rw [hbody]
    rfl
  · next members hbody =>
    extract_lets rest
    split
    · exact works_get_bind (Works.bind (R := fun _ _ => False) (works_throw hs)
        fun _ _ _ _ h => h.elim)
    · exact works_visitShapes hv hs hlt hP 0 members

/-- What is done inside a node, which is marked as visited last. -/
theorem works_inside (hv : Visits d q v) (hs : c.Sound d q) {i : NodeId} {top : Nat}
    (ho : c.Opened i top) :
    Works d q (c.Outside i top) (do
      body d v i (c.graph.node i)
      Run.update i fun n => { n with visited := true }) c fun _ _ => True := by
  refine Works.bind (works_body hv hs ho) fun _ c₁ hgrows hs₁ _ => ?_
  refine Works.mono (works_update hs₁ (ho.sprout.lt_size.trans_le hgrows.size_le)
    (fun h => h.2 ⟨le_rfl, ho.sprout.inside⟩) (Node.Kept.refl _).visit fun link t hlink ht => ?_)
    (fun _ h => h) fun _ _ _ => trivial
  exact hs₁.linked i link t hlink ht

/-- One visit keeps the promise when those of the nodes below do. -/
theorem visits_step (hv : Visits d q v) : Visits d q (step d v) := by
  intro c i top hs hb
  have hlt := hb.sprout.lt_size
  have hinside := hb.sprout.inside
  refine (Run.idle_node i).works_bind hs fun n c₁ hn h₁ hs₁ => ?_
  obtain rfl : c.graph.node i = n := Except.ok.inj hn
  have hb₁ := h₁.budding hb
  have hout : ∀ j, c.Outside i top j → c₁.Outside i top j := by
    intro j hj
    rw [Outside, h₁.graph]
    exact hj
  rw [← h₁.graph] at hlt ⊢
  simp only [hb₁.sprout.bud.unvisited]
  exact Works.mono (works_within (R := fun _ _ => True) hs₁ (hb₁.fresh i le_rfl hinside) hlt
    (fun h : c₁.Outside i top i => h.2 ⟨le_rfl, hinside⟩) fun hs₂ => works_inside hv hs₂ hb₁.opened) hout
    fun _ _ _ => trivial

/-- Visits of any depth keep the promise. -/
theorem visits_visitWithin (depth : Nat) : Visits d q (visitWithin d depth) := by
  induction depth with
  | zero => exact fun hs _ => works_throw hs
  | succ depth ih => exact visits_step ih

end

end ApiGraph
