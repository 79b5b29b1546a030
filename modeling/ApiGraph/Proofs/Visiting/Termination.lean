import Mathlib.Data.List.Nodup
import Mathlib.Data.List.Perm.Subperm
import ApiGraph.Proofs.Visiting.Depth
import ApiGraph.Proofs.Visiting.Visits

/-!
# Visits come to an end

No visit runs into its bound, as long as no declarations refer to one another in a ring.

* `Ends`, `Tame` — a step that does not run into a bound, from one state or from any;
* `Context.Sound.ends_propertiesOf` — the way of references from a node has no repetition;
* `Context.unstored` — the references that are still to be stored: the measure that goes down when a
  declaration is built;
* `Covers` — the depth that is left is enough for the references that are left and for the node;
* `ends_visitWithin` — so a visit within it comes to an end.
-/

namespace ApiGraph

open OrderedMap Context

/-- No declarations refer to one another in a ring. -/
def Document.Ringless (d : Document) : Prop := ∀ ref, ¬Relation.TransGen d.Alias ref ref

/-- A step from a state ends with a value, or with a fault that is not the bound of a walk. -/
def Ends {α : Type} (m : Run α) (c : Context) : Prop := outcome m c ≠ .error .endless

/-- A step that ends whatever the state is. -/
def Tame {α : Type} (m : Run α) : Prop := ∀ c, Ends m c

section

variable {α β : Type} {d : Document} {q : Option NodeId} {P : NodeId → Prop} {c c' c₁ : Context}

/-! ## Sequences -/

theorem Ends.bind {m : Run α} {f : α → Run β} (hm : Ends m c)
    (hf : ∀ a, outcome m c = .ok a → Ends (f a) (after m c)) : Ends (m >>= f) c := by
  rw [Ends]
  cases hmc : outcome m c with
  | ok a =>
    rw [outcome_bind_of_ok hmc]
    exact hf a hmc
  | error fault =>
    rw [outcome_bind_of_error hmc]
    rintro ⟨⟩
    exact hm hmc

/-- Two steps, of which the first does what is known of it. -/
theorem Ends.works_bind {m : Run α} {f : α → Run β} {R : α → Context → Prop} (hm : Ends m c)
    (hw : Works d q P m c R)
    (hf : ∀ a c', c.Grows P c' → c'.Sound d q → R a c' → Ends (f a) c') : Ends (m >>= f) c :=
  hm.bind fun a ha => hf a _ hw.grows hw.sound (hw.ok a ha)

theorem Ends.of_eq {m m' : Run α} (h : Ends m' c₁) (he : m c = m' c₁) : Ends m c := by
  rw [Ends, outcome, he]
  exact h

theorem ends_of_error {m : Run α} {fault : Fault} (h : m c = .error fault c')
    (hfault : fault ≠ .endless) : Ends m c := by
  rw [Ends, outcome_of_error h]
  rintro ⟨⟩
  exact hfault rfl

theorem tame_pure (a : α) : Tame (pure a : Run α) := fun _ => nofun

theorem tame_throw {fault : Fault} (h : fault ≠ .endless) : Tame (throw fault : Run α) :=
  fun _ => ends_of_error rfl h

theorem Tame.bind {m : Run α} {f : α → Run β} (hm : Tame m) (hf : ∀ a, Tame (f a)) :
    Tame (m >>= f) :=
  fun c => (hm c).bind fun a _ => hf a _

theorem ends_get_bind {f : Context → Run α} (h : Ends (f c) c) : Ends (get >>= f) c := h

theorem tame_get_bind {f : Context → Run α} (hf : ∀ c, Tame (f c)) : Tame (get >>= f) :=
  fun c => hf c c

theorem tame_forM {f : α → Run Unit} (hf : ∀ a, Tame (f a)) (xs : List α) : Tame (xs.forM f) := by
  induction xs with
  | nil => exact tame_pure _
  | cons x xs ih => exact (hf x).bind fun _ => ih

/-! ## Steps that end from any state -/

namespace Run

theorem ends_lift {a : Attempt α} (h : a ≠ .error .endless) : Ends (lift a) c := by
  rw [Ends, outcome_lift]
  exact h

theorem tame_lift {a : Attempt α} (h : Attempt.Fails Fault.Plain a) : Tame (lift a) :=
  fun _ => ends_lift fun ha => (h .endless ha).2 rfl

theorem tame_onGraph {f : Graph → Attempt α} (h : ∀ g, Attempt.Fails Fault.Plain (f g)) :
    Tame (onGraph f) :=
  tame_get_bind fun c => tame_lift (h c.graph)

theorem tame_node (i : NodeId) : Tame (node i) := fun _ => nofun

theorem tame_update (i : NodeId) (f : Node → Node) : Tame (update i f) := fun _ => nofun

theorem tame_say (e : Event) : Tame (say e) := fun _ => nofun

theorem tame_trace (tag text : String) : Tame (trace tag text) := fun _ => nofun

theorem tame_log (level : Level) (channel : Channel) (text : String) :
    Tame (log level channel text) := tame_say _

theorem ne_endless_respond (question : Question) (o : Oracle) :
    (o.respond question).result ≠ .error .endless := by
  cases o with
  | policy decide => rintro ⟨⟩
  | replay used rest => cases rest <;> rintro ⟨⟩
  | terminal console | recorder console recorded =>
    show console.answer question ≠ _
    rw [Console.answer]
    split <;> nofun

theorem tame_ask (question : Question) : Tame (ask question) := by
  refine (tame_say _).bind fun _ => tame_get_bind fun c => ?_
  refine Tame.bind (fun _ => (by rintro ⟨⟩)) fun _ => ?_
  refine Tame.bind (fun _ => ends_lift (ne_endless_respond question c.oracle)) fun _ => ?_
  exact (tame_say _).bind fun _ => tame_pure _

theorem tame_askYesNo (text : String) : Tame (askYesNo text) :=
  (tame_ask _).bind fun _ => tame_pure _

theorem tame_keyOf (name : Json) : Tame (keyOf name) := tame_lift (fails_expect_plain _)

theorem tame_store (name : Json) (i : NodeId) : Tame (store name i) := by
  refine (tame_trace _ _).bind fun _ => (tame_keyOf _).bind fun key => tame_get_bind fun c => ?_
  split
  · exact Tame.bind (fun _ => (by rintro ⟨⟩)) fun _ => tame_pure _
  · split
    · exact (tame_get_bind fun _ => tame_log _ _ _).bind fun _ => tame_pure _
    · exact tame_pure _

theorem tame_put (i prop : NodeId) : Tame (put i prop) :=
  (tame_node prop).bind fun _ => (tame_keyOf _).bind fun _ => tame_update _ _

end Run

theorem Build.tame_fromSchema (parent : Option NodeId) (schema : Json) :
    Tame (fromSchema parent schema) := by
  refine (Run.tame_onGraph fun g => Schema.fails_read _ _).bind fun declared => ?_
  exact Tame.bind (fun _ => (by rintro ⟨⟩)) fun _ => (Run.tame_say _).bind fun _ => tame_pure _

theorem Build.tame_fromUnion (parent : Option NodeId) (members : Json) :
    Tame (fromUnion parent members) :=
  (Run.tame_lift (fails_elements members)).bind fun _ _ => nofun

namespace Visit

theorem tame_selectEach (candidates : List NodeId) : Tame (selectEach candidates) := by
  induction candidates with
  | nil => exact tame_pure _
  | cons i rest ih =>
    exact (Run.tame_onGraph fun g => g.fails_describe i).bind fun _ =>
      (Run.tame_askYesNo _).bind fun _ => ih.bind fun _ => tame_pure _

theorem tame_select (i : NodeId) (candidates : OrderedMap Key NodeId) :
    Tame (select i candidates) := by
  unfold select
  split
  · exact tame_pure _
  · refine (Run.tame_lift (Graph.fails_joinNames _ _)).bind fun _ => tame_get_bind fun c => ?_
    refine (Run.tame_ask _).bind fun answer => ?_
    cases answer with
    | yes => exact tame_pure _
    | subset => exact tame_selectEach _
    | no => exact tame_pure _

theorem tame_storeNamed (i : NodeId) : Tame (storeNamed i) := by
  refine (Run.tame_node i).bind fun n => ?_
  split
  · exact tame_pure _
  · exact (Run.tame_store _ _).bind fun _ => tame_pure _

end Visit

/-! ## Ways of references -/

/-- There are no more different nodes than there are places. -/
theorem Graph.length_le_size {g : Graph} {seen : List NodeId} (hnodup : seen.Nodup)
    (hlt : ∀ j ∈ seen, j.index < g.size) : seen.length ≤ g.size := by
  have hsub : seen.map NodeId.index ⊆ List.range g.size := by
    intro n hn
    obtain ⟨j, hj, rfl⟩ := List.mem_map.1 hn
    exact List.mem_range.2 (hlt j hj)
  have hindices : (seen.map NodeId.index).Nodup := hnodup.map fun i j h => Graph.eq_of_index_eq h
  have hlength := (List.subperm_of_subset hindices hsub).length_le
  rwa [List.length_map, List.length_range] at hlength

/-- The way of references from a node does not come back to one of the nodes seen before, and so it
ends within the number of nodes. -/
theorem Context.Sound.propertiesWithin_ne_endless (hs : c.Sound d q) (hring : d.Ringless)
    {steps : Nat} {i : NodeId} (seen : List NodeId) (hnodup : seen.Nodup)
    (hlt : ∀ j ∈ seen, j.index < c.graph.size)
    (hseen : ∀ j ∈ seen, ∀ link, (c.graph.node i).body = .ref link →
      Relation.TransGen d.Alias (c.graph.node j).name link.ref)
    (hsteps : c.graph.size < steps + seen.length) :
    c.graph.propertiesWithin steps i ≠ .error .endless := by
  induction steps generalizing i seen with
  | zero =>
    have := Graph.length_le_size hnodup hlt
    omega
  | succ steps ih =>
    rw [Graph.propertiesWithin]
    split
    · next ref target hbody =>
      have hbuilt := hs.stored?_eq_some_iff.1
        (hs.linked i ⟨ref, some target⟩ target (by rw [hbody]; rfl) rfl)
      obtain ⟨-, htarget, -, hname, -, halias⟩ := hs.built ref target hbuilt
      have hnew : target ∉ seen := by
        intro hmem
        have hloop := hseen target hmem _ hbody
        rw [hname] at hloop
        exact hring ref hloop
      refine ih (target :: seen) (List.nodup_cons.2 ⟨hnew, hnodup⟩) ?_ ?_ ?_
      · exact List.forall_mem_cons.2 ⟨htarget, hlt⟩
      · refine List.forall_mem_cons.2 ⟨fun link hlink => ?_, fun j hj link hlink => ?_⟩
        · rw [hname]
          exact .single (halias link hlink)
        · exact (hseen j hj _ hbody).tail (halias link hlink)
      · rw [List.length_cons]
        omega
    all_goals simp

theorem Context.Sound.ends_propertiesOf (hs : c.Sound d q) (hring : d.Ringless) (i : NodeId) :
    Ends (Run.onGraph fun g => g.propertiesOf i) c := by
  rw [Ends, Run.outcome_onGraph]
  exact hs.propertiesWithin_ne_endless hring [] List.nodup_nil (by simp) (by simp) (Nat.lt_succ_self _)

/-! ## What is left -/

variable {R : List Json} {D : Nat}

/-- How many of some references have no node stored under them. -/
def Context.unstored (c : Context) (R : List Json) : Nat :=
  R.countP fun ref => (c.stored? ref).isNone

theorem Context.Grows.isNone_stored? (h : c.Grows P c') {ref : Json}
    (hnone : (c'.stored? ref).isNone = true) : (c.stored? ref).isNone = true := by
  cases hstored : c.stored? ref with
  | none => rfl
  | some i =>
    rw [h.stored? hstored] at hnone
    cases hnone

theorem Context.Grows.unstored_le (h : c.Grows P c') : c'.unstored R ≤ c.unstored R :=
  List.countP_mono_left fun _ _ => h.isNone_stored?

/-- A reference is stored once. -/
theorem Bound.unstored_lt {owner : Option NodeId} {ref : Json} {i : NodeId}
    (h : Bound d c owner ref i c') (hs : c.Sound d q) (href : ref ∈ R) :
    c'.unstored R < c.unstored R := by
  obtain ⟨before, rest, hsplit⟩ := List.append_of_mem href
  have hle : ∀ refs : List Json, refs.countP (fun ref => (c'.stored? ref).isNone) ≤
      refs.countP fun ref => (c.stored? ref).isNone := fun refs =>
    List.countP_mono_left fun _ _ => (h.grows hs).isNone_stored?
  have hbefore := hle before
  have hrest := hle rest
  simp only [Context.unstored, hsplit, List.countP_append, List.countP_cons, h.stored?, h.new,
    Option.isNone_none, Option.isNone_some, if_true, Bool.false_eq_true, if_false]
  omega

/-- A number of nested visits that is enough for the declarations of all references that are left, none
of which is deeper than `D`, and for a node so deep. -/
def Covers (R : List Json) (D : Nat) (c : Context) (k fuel : Nat) : Prop :=
  c.unstored R * D + k ≤ fuel

theorem Covers.grows {k fuel : Nat} (h : Covers R D c k fuel) (hgrows : c.Grows P c') :
    Covers R D c' k fuel := by
  have := Nat.mul_le_mul_right D (hgrows.unstored_le (R := R))
  rw [Covers] at h ⊢
  omega

theorem Covers.mono {k m fuel : Nat} (h : Covers R D c k fuel) (hm : m ≤ k) : Covers R D c m fuel :=
  (Nat.add_le_add_left hm _).trans h

theorem Covers.below {k fuel : Nat} (h : Covers R D c (k + 1) (fuel + 1)) : Covers R D c k fuel := by
  rw [Covers] at h ⊢
  omega

theorem Covers.bound {k fuel : Nat} {owner : Option NodeId} {ref : Json} {i : NodeId}
    (h : Covers R D c (k + 1) (fuel + 1)) (hbound : Bound d c owner ref i c') (hs : c.Sound d q)
    (href : ref ∈ R) : Covers R D c' D fuel := by
  have hlt := hbound.unstored_lt hs href
  have := Nat.mul_le_mul_right D (Nat.succ_le_of_lt hlt)
  rw [Nat.succ_mul] at this
  rw [Covers] at h ⊢
  omega

/-! ## New nodes -/

/-- The elements of a value that are objects lie one level deeper. -/
theorem Json.within_element {R : List Json} {k : Nat} {parts : Json} {elements : List Json}
    (hw : parts.Within R k) (h : parts.elements = .ok elements) :
    ∃ m, k = m + 1 ∧ ∀ e ∈ elements, e.isObject = true → e.Within R m := by
  obtain ⟨k, rfl⟩ : ∃ m, k = m + 1 := by
    have := hw.depth
    have := depth_pos parts
    exact ⟨k - 1, by omega⟩
  refine ⟨k, rfl, fun e he hobject => ?_⟩
  cases parts with
  | arr items =>
    cases h
    exact within_item he hw
  | obj members =>
    cases h
    obtain ⟨_, -, rfl⟩ := List.mem_map.1 he
    cases hobject
  | str s =>
    cases h
    obtain ⟨_, -, rfl⟩ := List.mem_map.1 he
    cases hobject
  | _ => cases h

theorem Sprouted.low {R : List Json} {k : Nat} {parent : Option NodeId} {schema : Json} {i : NodeId}
    (h : Sprouted c parent schema i c') (hw : schema.isObject = true → schema.Within R k) :
    Low R c'.graph k i := by
  obtain ⟨owner, s, hread, hplant⟩ := h.grown
  have hobject : schema.isObject = true := by
    cases schema with
    | obj members => rfl
    | _ => cases hread
  have hlow := Graph.low_plant parent c.graph s (Schema.low_read owner schema (hw hobject) hread)
  rwa [hplant] at hlow

/-- The name of a node does not matter for how deep it is. -/
theorem Low.rename {R : List Json} {g : Graph} {i : NodeId} {top k : Nat} (h : Low R g k i)
    (hsprout : Sprout g i top) (name : Json) :
    Low R (g.update i fun n => { n with name := name }) k i := by
  have hself := Graph.node_update_self g hsprout.lt_size fun n => { n with name := name }
  cases k with
  | zero => exact h
  | succ k =>
    obtain ⟨⟨hreference, hmembers, hshapes⟩, hbelow⟩ := h
    obtain ⟨ends, -, -, -, order, -, sprouts⟩ := hsprout
    rw [Low, hself]
    refine ⟨⟨hreference, hmembers, hshapes⟩, fun j hj => ?_⟩
    have hij := (order j hj).1
    refine (hbelow j hj).kept (sprouts j hj) fun m hm _ => ?_
    rw [Graph.node_update_of_ne g (by rintro rfl; omega)]
    exact Node.Kept.refl _

/-- The node of a reference is as deep as the document. -/
theorem Bound.low {owner : Option NodeId} {ref : Json} {i : NodeId} (h : Bound d c owner ref i c')
    (hd : d.raw.Within R D) : Low R c'.graph D i := by
  obtain ⟨declaration, c₁, c₂, hlookup, -, hsprouted, hgraph'⟩ := h.built
  have hlow := hsprouted.low fun _ => Document.within_of_lookupValue hd hlookup
  rw [hgraph']
  exact hlow.rename hsprouted.planted.sprout ref

/-- What happens elsewhere does not make a sprout deeper. -/
theorem Context.Grows.low {R : List Json} {i : NodeId} {top k : Nat} (h : c.Grows P c')
    (hlow : Low R c.graph k i) (hsprout : Sprout c.graph i top) : Low R c'.graph k i := by
  have hsize := hsprout.below_size
  exact hlow.kept hsprout fun j _ hj => h.kept j (hj.trans_le hsize)

/-! ## Visits -/

namespace Visit

/-- What is promised of the visits of nodes below: those for which the depth is enough come to an
end. -/
def Terminates (R : List Json) (D : Nat) (d : Document) (q : Option NodeId) (fuel : Nat) (v : Visitor) :
    Prop :=
  ∀ {c : Context} {i : NodeId} {top k : Nat}, c.Sound d q → c.Budding i top →
    Low R c.graph k i → Covers R D c k fuel → Ends (v i) c

variable {v : Visitor} {fuel k : Nat} {i : NodeId}

/-- A reference is resolved when the depth is enough for its declaration. -/
theorem ends_resolve (hd : d.raw.Within R D) (ht : Terminates R D d q fuel v) (hs : c.Sound d q)
    (owner : Option NodeId) (ref : Json)
    (hcovers : ∀ i c', Bound d c owner ref i c' → Covers R D c' D fuel) :
    Ends (resolve d v owner ref) c := by
  rcases resolve_cases d v owner ref c with
    ⟨i, text, -, he⟩ | ⟨i, text, c', hbound, he⟩ | ⟨fault, c', hfault, -, -, he⟩
  · exact Ends.of_eq ((Run.tame_trace _ _).bind (fun _ => tame_pure i) _) he
  · refine Ends.of_eq ?_ he
    refine (ht (hbound.sound hs) (hbound.budding hs) (hbound.low hd) (hcovers i c' hbound)).bind ?_
    exact fun _ _ => (Run.tame_trace _ _).bind (fun _ => tame_pure i) _
  · exact ends_of_error he hfault

/-- The members of a composition are built and visited one by one. -/
theorem ends_collectFrom (hv : Visits d q v) (ht : Terminates R D d q fuel v) (hring : d.Ringless)
    (hs : c.Sound d q) (i : NodeId) (collected : OrderedMap Key NodeId) {members : List Json}
    (hmembers : ∀ e ∈ members, e.isObject = true → e.Within R k)
    (hcovers : Covers R D c k fuel) : Ends (collectFrom v i collected members) c := by
  induction members generalizing c collected with
  | nil => exact tame_pure collected c
  | cons schema rest ih =>
    obtain ⟨hschema, hrest⟩ := List.forall_mem_cons.1 hmembers
    refine (Build.tame_fromSchema (some i) schema c).works_bind (works_fromSchema hs (some i) schema)
      fun member c₁ hgrows₁ hs₁ hsprouted => ?_
    have hcovers₁ := hcovers.grows hgrows₁
    have hbudding := hsprouted.budding hs
    refine (ht hs₁ hbudding (hsprouted.low hschema) hcovers₁).works_bind (hv hs₁ hbudding)
      fun _ c₂ hgrows₂ hs₂ _ => ?_
    have hcovers₂ := hcovers₁.grows hgrows₂
    refine (hs₂.ends_propertiesOf hring member).works_bind (P := c₂.Old)
      ((Run.idle_onGraph _).works hs₂) fun props c₃ hgrows₃ hs₃ _ => ?_
    exact ih hs₃ _ hrest (hcovers₂.grows hgrows₃)

theorem ends_visitAllOf (hv : Visits d q v) (ht : Terminates R D d q fuel v) (hring : d.Ringless)
    (hs : c.Sound d q) {parts : Option Json} (hi : (c.graph.node i).body = .composed .allOf parts)
    (hparts : ∀ value, parts = some value → value.Within R k)
    (hcovers : Covers R D c k fuel) : Ends (visitAllOf v i) c := by
  have hcollect : Ends (collect v i) c := by
    show Ends (do
      let members ← Run.lift (expect (c.graph.node i).allOfMembers?)
      collectFrom v i [] (← Run.lift members.elements)) c
    have hmembers : (c.graph.node i).allOfMembers? = parts := by rw [Node.allOfMembers?, hi]
    rw [hmembers]
    cases parts with
    | none =>
      exact (Run.tame_lift (fails_expect_plain (none : Option Json)) c).bind fun _ h => by cases h
    | some value =>
      show Ends (Run.lift value.elements >>= collectFrom v i []) c
      cases helements : value.elements with
      | error fault =>
        have hlift : Run.lift (.error fault : Attempt (List Json)) c = .error fault c := rfl
        refine (ends_of_error hlift (fails_elements value fault helements).2).bind fun _ h => ?_
        cases h
      | ok elements =>
        obtain ⟨m, rfl, hmembers⟩ := Json.within_element (hparts value rfl) helements
        exact ends_collectFrom hv ht hring hs i [] hmembers ((Nat.le_succ _).trans hcovers)
  refine hcollect.bind fun collected _ => ?_
  have hrest : ∀ kept : List NodeId, Tame (do kept.forM (Run.put i); storeNamed i : Run Unit) :=
    fun kept => (tame_forM (Run.tame_put i) kept).bind fun _ => tame_storeNamed i
  refine tame_get_bind (fun c₁ => ?_) _
  extract_lets rest
  split
  · exact (tame_pure _).bind hrest
  · exact (tame_select i collected).bind hrest

/-- The shapes of a union are built and visited one by one. -/
theorem ends_visitShapes (hv : Visits d q v) (ht : Terminates R D d q fuel v) (hs : c.Sound d q)
    (hlt : i.index < c.graph.size) (position : Nat) {shapes : List Json}
    (hshapes : ∀ e ∈ shapes, e.isObject = true → e.Within R k)
    (hcovers : Covers R D c k fuel) : Ends (visitShapes v i position shapes) c := by
  induction shapes generalizing c position with
  | nil => exact tame_pure () c
  | cons schema rest ih =>
    obtain ⟨hschema, hrest⟩ := List.forall_mem_cons.1 hshapes
    refine (Build.tame_fromSchema (some i) schema c).works_bind (works_fromSchema hs (some i) schema)
      fun member c₁ hgrows₁ hs₁ hsprouted => ?_
    have hcovers₁ := hcovers.grows hgrows₁
    have hbudding := hsprouted.budding hs
    refine (ht hs₁ hbudding (hsprouted.low hschema) hcovers₁).works_bind (hv hs₁ hbudding)
      fun _ c₂ hgrows₂ hs₂ _ => ?_
    have hcovers₂ := hcovers₁.grows hgrows₂
    have hlt₂ := (hlt.trans_le hgrows₁.size_le).trans_le hgrows₂.size_le
    dsimp only
    split
    · refine (Run.tame_update i _ c₂).works_bind (works_addChild hs₂ hlt₂ (some member))
        fun _ c₃ hgrows₃ hs₃ _ => ?_
      exact ih hs₃ (hlt₂.trans_le hgrows₃.size_le) _ hrest (hcovers₂.grows hgrows₃)
    · refine (Run.tame_trace _ _ c₂).works_bind (P := c₂.Old) ((Run.idle_trace _ _).works hs₂)
        fun _ c₃ hgrows₃ hs₃ _ => ?_
      exact ih hs₃ (hlt₂.trans_le hgrows₃.size_le) _ hrest (hcovers₂.grows hgrows₃)

theorem ends_visitOneOf (ht : Terminates R D d q fuel v) (hs : c.Sound d q)
    (hlt : i.index < c.graph.size) {parts : Option Json}
    (hparts : ∀ value, parts = some value → value.Within R k)
    (hcovers : Covers R D c k fuel) : Ends (visitOneOf v i parts) c := by
  cases parts with
  | none => exact (Run.tame_lift (fails_expect_plain (none : Option Json)) c).bind fun _ h => by cases h
  | some value =>
    show Ends (do
      let union ← Build.fromUnion (some i) value
      Run.update i fun n => n.addChild union
      v union
      storeNamed i) c
    refine (Build.tame_fromUnion (some i) value c).works_bind (works_fromUnion hs (some i) value)
      fun union c₁ hgrows₁ hs₁ hunion => ?_
    obtain ⟨shapes, helements, hplanted, -, hnode, hbudding⟩ := hunion
    have hindex := hplanted.index
    obtain ⟨m, rfl, hshapes⟩ := Json.within_element (hparts value rfl) helements
    have hlt₁ := hlt.trans_le hgrows₁.size_le
    have hlow : Low R c₁.graph (m + 1) union := by
      rw [Low, hnode]
      refine ⟨⟨(by rintro _ ⟨⟩), (by simp), ?_⟩, (by rintro _ ⟨⟩)⟩
      rintro shapes' ⟨⟩
      exact hshapes
    refine (Run.tame_update i _ c₁).works_bind (works_addChild hs₁ hlt₁ (some union))
      fun _ c₂ hgrows₂ hs₂ _ => ?_
    have hbudding₂ : c₂.Budding union c₁.graph.size :=
      hgrows₂.budding hbudding fun j hj _ => by rintro rfl; omega
    have hcovers₂ := (hcovers.grows hgrows₁).grows hgrows₂
    refine (ht hs₂ hbudding₂ (hgrows₂.low hlow hbudding.sprout) hcovers₂).bind fun _ _ => ?_
    exact tame_storeNamed i _

/-- Sprouts apart from one another are visited one by one. -/
theorem ends_visitEach (hv : Visits d q v) (ht : Terminates R D d q fuel v) (hs : c.Sound d q)
    (ends : NodeId → Nat) {ks : List (Option NodeId)}
    (hbudding : ∀ j ∈ ks.filterMap id, c.Budding j (ends j))
    (hapart : (ks.filterMap id).Pairwise fun i j => ends i ≤ j.index ∨ ends j ≤ i.index)
    (hlow : ∀ j ∈ ks.filterMap id, Low R c.graph k j) (hcovers : Covers R D c k fuel) :
    Ends (visitEach v ks) c := by
  induction ks generalizing c with
  | nil => exact tame_pure () c
  | cons j rest ih =>
    cases j with
    | none =>
      refine Ends.bind ?_ fun _ h => by cases h
      exact (Run.tame_lift (fails_expect_plain (none : Option NodeId)) c).bind fun _ h => by cases h
    | some j =>
      have hks : (some j :: rest).filterMap id = j :: rest.filterMap id := rfl
      rw [hks] at hbudding hapart hlow
      obtain ⟨hj, hrest⟩ := List.pairwise_cons.1 hapart
      obtain ⟨hfirst, hbudding⟩ := List.forall_mem_cons.1 hbudding
      obtain ⟨hlowFirst, hlow⟩ := List.forall_mem_cons.1 hlow
      show Ends (v j >>= fun _ => visitEach v rest) c
      refine (ht hs hfirst hlowFirst hcovers).works_bind (hv hs hfirst)
        fun _ c₁ hgrows hs₁ _ => ?_
      refine ih hs₁ (fun m hm => ?_) hrest (fun m hm => ?_) (hcovers.grows hgrows)
      · have hb := hbudding m hm
        refine hgrows.budding hb fun l hml hl => ⟨?_, ?_⟩
        · have := hb.sprout.below_size
          omega
        · have := hj m hm
          omega
      · exact hgrows.low (hlow m hm) (hbudding m hm).sprout

/-- The nodes below an opened one are visited. -/
theorem ends_visitBelow (hv : Visits d q v) (ht : Terminates R D d q fuel v) (hs : c.Sound d q)
    {top : Nat} (ho : c.Opened i top) {ks : List (Option NodeId)}
    (hks : ks.filterMap id = (c.graph.node i).below)
    (hlow : ∀ j ∈ (c.graph.node i).below, Low R c.graph k j)
    (hcovers : Covers R D c k fuel) : Ends (visitEach v ks) c := by
  obtain ⟨ends, -, -, -, order, apart, sprouts⟩ := ho.sprout
  rw [← hks] at order apart sprouts hlow
  have hbudding : ∀ j ∈ ks.filterMap id, c.Budding j (ends j) := by
    intro j hj
    obtain ⟨hij, htop⟩ := order j hj
    exact ⟨sprouts j hj, fun m hjm hm => ho.fresh m (by omega) (by omega)⟩
  exact ends_visitEach hv ht hs ends hbudding apart hlow hcovers

/-- A reference of the document is followed. -/
theorem ends_follow (hd : d.raw.Within R D) (ht : Terminates R D d q fuel v) (hs : c.Sound d q) {ref : Json}
    (href : ref ∈ R) (hcovers : Covers R D c (k + 1) (fuel + 1))
    (f : NodeId → Node → Node) :
    Ends (do
      let target ← resolve d v (some i) ref
      Run.update i (f target)) c := by
  refine (ends_resolve hd ht hs (some i) ref fun j c' hbound => hcovers.bound hbound hs href).bind ?_
  exact fun target _ => Run.tame_update i (f target) _

theorem ends_visitComposed (hv : Visits d q v) (ht : Terminates R D d q fuel v) (hring : d.Ringless)
    (hs : c.Sound d q) (hlt : i.index < c.graph.size) {kind : Composition} {parts : Option Json}
    (hi : (c.graph.node i).body = .composed kind parts)
    (hparts : ∀ value, parts = some value → value.Within R k)
    (hcovers : Covers R D c k fuel) (n : Node) : Ends (visitComposed v i n kind parts) c := by
  have hafter : ∀ m : Run Unit, (∀ c₁ : Context, c.Still c₁ → c₁.Sound d q → Ends m c₁) → Ends (do
      Run.trace "-> [composed]" ("in: " ++ n.nameOr "[object]")
      let c ← get
      unless c.inComposition i do
        Run.log .info .visit ("In composed schema: " ++ n.nameOr (c.graph.inlineOwner i))
      m) c := by
    intro m hm
    refine (Run.tame_trace _ _ c).works_bind (P := c.Old) ((Run.idle_trace _ _).works hs)
      fun _ c₁ _ hs₁ h₁ => Ends.bind (m := get) (by rintro ⟨⟩) fun c' hc' => ?_
    obtain rfl : c₁ = c' := Except.ok.inj hc'
    dsimp only
    split
    · exact hm c₁ h₁ hs₁
    · refine (Run.tame_log _ _ _ c₁).works_bind (P := c₁.Old) ((Run.idle_log _ _ _).works hs₁)
        fun _ c₂ _ hs₂ h₂ => ?_
      exact hm c₂ (h₁.trans h₂) hs₂
  cases kind with
  | allOf =>
    refine hafter _ fun c₁ h₁ hs₁ => ?_
    rw [← h₁.graph] at hi
    have hcovers₁ := hcovers.grows (h₁.grows (P := c.Old))
    exact (ends_visitAllOf hv ht hring hs₁ hi hparts hcovers₁).bind fun _ _ => Run.tame_trace _ _ _
  | oneOf =>
    refine hafter _ fun c₁ h₁ hs₁ => ?_
    rw [← h₁.graph] at hlt
    have hcovers₁ := hcovers.grows (h₁.grows (P := c.Old))
    exact (ends_visitOneOf ht hs₁ hlt hparts hcovers₁).bind fun _ _ => Run.tame_trace _ _ _

/-- What a visit does inside its node. -/
theorem ends_body (hd : d.raw.Within R D) (hv : Visits d q v) (ht : Terminates R D d q fuel v)
    (hring : d.Ringless) (hs : c.Sound d q) {top : Nat} (ho : c.Opened i top)
    (hlow : Low R c.graph (k + 1) i) (hcovers : Covers R D c (k + 1) (fuel + 1)) :
    Ends (body d v i (c.graph.node i)) c := by
  obtain ⟨hshallow, hbelow⟩ := hlow
  have hbelow' := hcovers.below
  unfold body
  split
  · refine tame_throw ?_ c
    simp
  · exact tame_pure () c
  · next hbody =>
    have hks : ((values (c.graph.node i).props).map some).filterMap id =
        (c.graph.node i).below := by
      rw [Node.below, hbody]
      simp
    refine (Run.tame_trace _ _ c).works_bind (P := c.Old) ((Run.idle_trace _ _).works hs)
      fun _ c₁ hgrows₁ hs₁ h₁ => ?_
    rw [← h₁.graph] at hks hbelow
    have hvisit := ends_visitBelow hv ht hs₁ (h₁.opened ho) hks hbelow (hbelow'.grows hgrows₁)
    rw [visitEach_map_some, h₁.graph] at hvisit
    exact hvisit.bind fun _ _ => Run.tame_trace _ _ _
  · next items hbody =>
    rw [← visitEach_singleton]
    refine ends_visitBelow hv ht hs ho ?_ hbelow hbelow'
    rw [Node.below, hbody]
    exact filterMap_id_singleton items
  · next link hbody =>
    exact ends_follow hd ht hs (hshallow.reference link (by rw [hbody]; rfl)) hcovers _
  · next slot arguments link hbody =>
    exact ends_follow hd ht hs (hshallow.reference link (by rw [hbody]; rfl)) hcovers _
  · next slot arguments hbody =>
    rw [← visitEach_append]
    refine ends_visitBelow hv ht hs ho ?_ hbelow hbelow'
    rw [Node.below, hbody, List.filterMap_append, filterMap_id_singleton]
  · next slot hbody =>
    rw [← visitEach_singleton]
    refine ends_visitBelow hv ht hs ho ?_ hbelow hbelow'
    rw [Node.below, hbody]
    exact filterMap_id_singleton slot.type
  · next kind parts hbody =>
    refine ends_visitComposed hv ht hring hs ho.sprout.lt_size hbody ?_ hbelow' _
    rintro value rfl
    exact hshallow.members kind value hbody
  · next members hbody =>
    extract_lets rest
    split
    · refine Ends.bind (m := get) (by rintro ⟨⟩) fun c₁ _ => Ends.bind (tame_throw ?_ _) fun _ h => ?_
      · simp
      · cases h
    · exact ends_visitShapes hv ht hs ho.sprout.lt_size 0 (hshallow.shapes members hbody) hbelow'

/-- One visit comes to an end when those of the nodes below do. -/
theorem terminates_step (hd : d.raw.Within R D) (hv : Visits d q v) (ht : Terminates R D d q fuel v)
    (hring : d.Ringless) :
    Terminates R D d q (fuel + 1) (step d v) := by
  intro c i top k hs hb hlow hcovers
  obtain ⟨k, rfl⟩ : ∃ m, k = m + 1 := ⟨k - 1, by have := hlow.pos; omega⟩
  show Ends (do
    unless (c.graph.node i).visited do
      Run.within i do
        body d v i (c.graph.node i)
        Run.update i fun n => { n with visited := true } : Run Unit) c
  rw [hb.sprout.bud.unvisited]
  have hs₁ := sound_enter hs hb.sprout.lt_size
  have hinner : Ends (do
      body d v i (c.graph.node i)
      Run.update i fun n => { n with visited := true } : Run Unit) (c.enter (some i)) :=
    (ends_body hd hv ht hring hs₁ hb.opened hlow hcovers).bind fun _ _ => Run.tame_update _ _ _
  show outcome (Run.within i _) c ≠ _
  rw [outcome_within]
  exact hinner

/-- Visits come to an end within a depth that is enough. -/
theorem terminates_visitWithin (hd : d.raw.Within R D) (hring : d.Ringless) (depth : Nat) :
    Terminates R D d q depth (visitWithin d depth) := by
  induction depth with
  | zero =>
    intro c i top k _ _ hlow hcovers
    have := hlow.pos
    rw [Covers] at hcovers
    omega
  | succ depth ih => exact terminates_step hd (visits_visitWithin depth) ih hring

end Visit

end

end ApiGraph
