import Mathlib.Logic.Relation
import ApiGraph.Graph.Visit
import ApiGraph.Proofs.Graph.Sprout

/-!
# How runs grow

What a run has done so far hangs together, and every step of a visit keeps it that way, whether it
succeeds or fails.

* `Document.Alias` — a declaration that is a reference to another one;
* `Context.Sound` — the store holds the nodes that were built for references, in their order, and
  links lead where the store says;
* `Context.Grows` — old nodes stay what they are, those of a protected set stay unchanged, and no node
  is gone into twice;
* `Context.Still` — nothing has happened but log records, questions and the like;
* `Context.Budding` — a sprout that is still to be visited.
-/

namespace ApiGraph

open OrderedMap

/-- The declaration of one reference is nothing but another reference. -/
def Document.Alias (d : Document) (ref ref' : Json) : Prop :=
  ∃ members, d.lookupValue ref = .ok members ∧ get? "$ref" members = some ref'

/-! ## Events -/

/-- An event that is neither about a node gone into nor about a reference. -/
structure Event.Idle (e : Event) : Prop where
  entered : e.enteredNode? = none
  met : e.metReference? = none
  lookedUp : e.lookedUp? = none
  built : e.built? = none

namespace Transcript

theorem filterMap_reverse_append {β : Type} (f : Event → Option β) (new old : Transcript) :
    (new ++ old).reverse.filterMap f = old.reverse.filterMap f ++ new.reverse.filterMap f := by
  rw [List.reverse_append, List.filterMap_append]

theorem filterMap_reverse_of_none {β : Type} {f : Event → Option β} {new : Transcript}
    (h : ∀ e ∈ new, f e = none) (old : Transcript) :
    (new ++ old).reverse.filterMap f = old.reverse.filterMap f := by
  have hnew : new.reverse.filterMap f = [] :=
    List.filterMap_eq_nil_iff.2 fun e he => h e (List.mem_reverse.1 he)
  rw [filterMap_reverse_append, hnew, List.append_nil]

/-- Once a node was built for a reference, the reference is neither looked up nor built again. -/
def Once (t : Transcript) : Prop :=
  t.Pairwise fun later earlier => ∀ ref i, earlier = .built ref i →
    later ≠ .lookedUp ref ∧ ∀ j, later ≠ .built ref j

theorem Once.append {new old : Transcript} (h : old.Once)
    (hnew : ∀ e ∈ new, e.lookedUp? = none ∧ e.built? = none) : (new ++ old).Once := by
  refine List.pairwise_append.2 ⟨?_, h, ?_⟩
  · refine List.Pairwise.imp_of_mem (R := fun _ _ => True) ?_ (List.pairwise_of_forall fun _ _ => trivial)
    rintro later earlier - hearlier - ref i rfl
    cases (hnew _ hearlier).2
  · rintro later hlater earlier - ref i rfl
    refine ⟨?_, fun j => ?_⟩ <;> rintro rfl
    · cases (hnew _ hlater).1
    · cases (hnew _ hlater).2

theorem Once.append_idle {new old : Transcript} (h : old.Once) (hnew : ∀ e ∈ new, e.Idle) :
    (new ++ old).Once :=
  h.append fun e he => ⟨(hnew e he).lookedUp, (hnew e he).built⟩

theorem Once.cons_idle {t : Transcript} {e : Event} (h : t.Once) (he : e.Idle) : Once (e :: t) := by
  have hidle : ∀ e' ∈ [e], e'.Idle := fun e' he' => List.mem_singleton.1 he' ▸ he
  exact h.append_idle hidle

theorem Once.cons {t : Transcript} {e : Event} (h : t.Once)
    (he : ∀ ref i, .built ref i ∈ t → e ≠ .lookedUp ref ∧ ∀ j, e ≠ .built ref j) :
    Once (e :: t) := by
  refine List.pairwise_cons.2 ⟨?_, h⟩
  rintro _ hmem ref i rfl
  exact he ref i hmem

theorem mem_builds {t : Transcript} {ref : Json} {i : NodeId} :
    (ref, i) ∈ t.builds ↔ .built ref i ∈ t := by
  simp only [builds, List.mem_filterMap, List.mem_reverse]
  constructor
  · rintro ⟨e, he, hbuilt⟩
    cases e <;> simp [Event.built?] at hbuilt
    obtain ⟨rfl, rfl⟩ := hbuilt
    exact he
  · exact fun h => ⟨_, h, rfl⟩

end Transcript

/-! ## States -/

namespace Context

/-- The nodes that were gone into, in order. -/
def entered (c : Context) : List NodeId := c.transcript.enteredNodes

/-- The node stored under a reference. -/
def stored? (c : Context) (ref : Json) : Option NodeId :=
  ref.key?.bind fun key => (get? key c.types).join

/-- What hangs together in a run over a document, in which one object may have been made by hand. -/
structure Sound (d : Document) (q : Option NodeId) (c : Context) : Prop where
  types_eq : c.types.map (Prod.map Key.toJson id) =
    c.transcript.builds.map (Prod.map id some)
  distinct : Distinct (keys c.types)
  built : ∀ ref i, (ref, i) ∈ c.transcript.builds → (∃ s, ref = .str s ∧ s ≠ "") ∧
    i.index < c.graph.size ∧ q ≠ some i ∧ (c.graph.node i).name = ref ∧
    (c.graph.node i).slot? = none ∧ ∀ link, (c.graph.node i).body = .ref link → d.Alias ref link.ref
  linked : ∀ i link t, (c.graph.node i).body.link? = some link → link.target = some t →
    c.stored? link.ref = some t
  named : ∀ i, q ≠ some i → (c.graph.node i).slot? = none →
    (c.graph.node i).name.isNull = false → c.stored? (c.graph.node i).name = some i
  entered_lt : ∀ i ∈ c.entered, i.index < c.graph.size
  once : c.transcript.Once
  handmade : ∀ i, q = some i → i.index < c.graph.size ∧ (c.graph.node i).body = .object

/-- Old nodes stay what they are, and those of a protected set are neither changed nor gone into. No
node is gone into again. Below new nodes there are only new ones. -/
structure Grows (P : NodeId → Prop) (c c' : Context) : Prop where
  size_le : c.graph.size ≤ c'.graph.size
  spared : ∀ j, P j → c'.graph.node j = c.graph.node j ∧ (j ∈ c'.entered → j ∈ c.entered)
  kept : ∀ j, j.index < c.graph.size → (c.graph.node j).Kept (c'.graph.node j)
  types : c.types <+: c'.types
  nodup : c.entered.Nodup → c'.entered.Nodup
  told : c.transcript <:+ c'.transcript
  closed : c'.graph.ClosedFrom c.graph.size

/-- Every reference that was met is stored, and what was looked up was built. -/
structure Pursued (c : Context) : Prop where
  stored : ∀ ref ∈ c.transcript.metReferences, ∃ i, c.stored? ref = some i
  lookups : c.transcript.lookups = c.transcript.builds.map Prod.fst

/-- Nothing has happened but idle events. -/
structure Still (c c' : Context) : Prop where
  graph : c'.graph = c.graph
  types : c'.types = c.types
  transcript : ∃ new, c'.transcript = new ++ c.transcript ∧ ∀ e ∈ new, e.Idle

/-- The nodes that are there, except those of an interval. -/
def Outside (c : Context) (i : NodeId) (top : Nat) (j : NodeId) : Prop :=
  j.index < c.graph.size ∧ ¬(i.index ≤ j.index ∧ j.index < top)

/-- The nodes that are there. -/
def Old (c : Context) (j : NodeId) : Prop := j.index < c.graph.size

/-- A sprout of nodes that were not gone into. -/
structure Budding (c : Context) (i : NodeId) (top : Nat) : Prop where
  sprout : Sprout c.graph i top
  fresh : ∀ j, i.index ≤ j.index → j.index < top → j ∉ c.entered

variable {d : Document} {q : Option NodeId} {P P' : NodeId → Prop} {c c' c'' : Context}

/-! ### Stillness -/

theorem Still.refl (c : Context) : c.Still c := ⟨rfl, rfl, [], rfl, nofun⟩

theorem Still.trans (h : c.Still c') (h' : c'.Still c'') : c.Still c'' := by
  obtain ⟨new, hnew, hidle⟩ := h.transcript
  obtain ⟨new', hnew', hidle'⟩ := h'.transcript
  refine ⟨h'.graph.trans h.graph, h'.types.trans h.types, new' ++ new, ?_, ?_⟩
  · rw [hnew', hnew, List.append_assoc]
  · intro e he
    rcases List.mem_append.1 he with he | he
    · exact hidle' e he
    · exact hidle e he

theorem Still.filterMap_eq {β : Type} {f : Event → Option β} (h : c.Still c')
    (hf : ∀ e : Event, e.Idle → f e = none) :
    c'.transcript.reverse.filterMap f = c.transcript.reverse.filterMap f := by
  obtain ⟨new, hnew, hidle⟩ := h.transcript
  rw [hnew, Transcript.filterMap_reverse_of_none fun e he => hf e (hidle e he)]

theorem Still.entered (h : c.Still c') : c'.entered = c.entered :=
  h.filterMap_eq fun _ he => he.entered

theorem Still.builds (h : c.Still c') : c'.transcript.builds = c.transcript.builds :=
  h.filterMap_eq fun _ he => he.built

theorem Still.lookups (h : c.Still c') : c'.transcript.lookups = c.transcript.lookups :=
  h.filterMap_eq fun _ he => he.lookedUp

theorem Still.met (h : c.Still c') : c'.transcript.metReferences = c.transcript.metReferences :=
  h.filterMap_eq fun _ he => he.met

theorem Still.stored? (h : c.Still c') (ref : Json) : c'.stored? ref = c.stored? ref := by
  rw [Context.stored?, h.types, Context.stored?]

theorem Still.grows (h : c.Still c') : c.Grows P c' where
  size_le := by rw [h.graph]
  spared j _ := by
    rw [h.graph, h.entered]
    exact ⟨rfl, id⟩
  kept j _ := by
    rw [h.graph]
    exact Node.Kept.refl _
  types := h.types ▸ List.prefix_refl _
  nodup := by
    rw [h.entered]
    exact id
  told := by
    obtain ⟨new, hnew, -⟩ := h.transcript
    exact ⟨new, hnew.symm⟩
  closed := Graph.closedFrom_of_size_le (by rw [h.graph])

theorem Still.sound (h : c.Still c') (hs : c.Sound d q) : c'.Sound d q where
  types_eq := by
    rw [h.types, h.builds]
    exact hs.types_eq
  distinct := by
    rw [h.types]
    exact hs.distinct
  built := by
    rw [h.graph, h.builds]
    exact hs.built
  linked := by
    simp only [h.graph, h.stored?]
    exact hs.linked
  named := by
    simp only [h.graph, h.stored?]
    exact hs.named
  entered_lt := by
    rw [h.graph, h.entered]
    exact hs.entered_lt
  once := by
    obtain ⟨new, hnew, hidle⟩ := h.transcript
    rw [hnew]
    exact hs.once.append_idle hidle
  handmade := by
    rw [h.graph]
    exact hs.handmade

theorem Still.pursued (h : c.Still c') (hp : c.Pursued) : c'.Pursued where
  stored := by
    simp only [h.met, h.stored?]
    exact hp.stored
  lookups := by
    rw [h.lookups, h.builds]
    exact hp.lookups

theorem Still.budding {i : NodeId} {top : Nat} (h : c.Still c') (hb : c.Budding i top) :
    c'.Budding i top := by
  refine ⟨?_, ?_⟩
  · rw [h.graph]
    exact hb.sprout
  · rw [h.entered]
    exact hb.fresh

/-! ### The store -/

theorem Sound.exists_some (hs : c.Sound d q) {key : Key} {found : Option NodeId}
    (h : (key, found) ∈ c.types) : ∃ ref i, (ref, i) ∈ c.transcript.builds ∧ key.toJson = ref ∧
      found = some i := by
  have hmem : (key.toJson, found) ∈ c.transcript.builds.map (Prod.map id some) := by
    rw [← hs.types_eq]
    exact List.mem_map.2 ⟨_, h, rfl⟩
  obtain ⟨⟨ref, i⟩, hbuilt, he⟩ := List.mem_map.1 hmem
  cases he
  exact ⟨_, i, hbuilt, rfl, rfl⟩

theorem Sound.get?_eq_none (hs : c.Sound d q) {ref : Json} {key : Key} (hkey : ref.key? = some key)
    (h : c.stored? ref = none) : get? key c.types = none := by
  rw [Context.stored?, hkey, Option.bind_some] at h
  cases hget : get? key c.types with
  | none => rfl
  | some found =>
    obtain ⟨k, hmem, -⟩ := exists_mem_of_get? hget
    obtain ⟨_, i, -, -, rfl⟩ := hs.exists_some hmem
    rw [hget] at h
    cases h

/-- The store holds the nodes that were built. -/
theorem Sound.stored?_eq_some_iff (hs : c.Sound d q) {ref : Json} {i : NodeId} :
    c.stored? ref = some i ↔ (ref, i) ∈ c.transcript.builds := by
  constructor
  · intro h
    rw [Context.stored?] at h
    cases hkey : ref.key? with
    | none => rw [hkey] at h; cases h
    | some key =>
      rw [hkey, Option.bind_some] at h
      obtain ⟨k, hmem, hk⟩ := exists_mem_of_get? (Option.join_eq_some_iff.1 h)
      obtain ⟨ref', i', hbuilt, htoJson, he⟩ := hs.exists_some hmem
      cases he
      obtain ⟨⟨s, rfl, -⟩, -⟩ := hs.built ref' i hbuilt
      rw [Key.eq_text_of_toJson htoJson] at hk
      rw [Key.eq_text_of_beq (BEq.symm hk)] at hkey
      rw [← Key.toJson_of_key?_eq_some hkey]
      exact hbuilt
  · intro h
    obtain ⟨⟨s, rfl, -⟩, -⟩ := hs.built ref i h
    have hmem : (.str s, some i) ∈ c.types.map (Prod.map Key.toJson id) := by
      rw [hs.types_eq]
      exact List.mem_map.2 ⟨_, h, rfl⟩
    obtain ⟨⟨k, found⟩, hmem, he⟩ := List.mem_map.1 hmem
    obtain ⟨htoJson, rfl⟩ := Prod.mk.inj he
    rw [Key.eq_text_of_toJson htoJson] at hmem
    have hget := get?_of_mem hs.distinct hmem
    exact Option.join_eq_some_iff.2 hget

/-! ### Growth -/

theorem Grows.trans (h : c.Grows P c') (h' : c'.Grows P c'') : c.Grows P c'' where
  size_le := h.size_le.trans h'.size_le
  spared j hj := by
    obtain ⟨hnode, hentered⟩ := h.spared j hj
    obtain ⟨hnode', hentered'⟩ := h'.spared j hj
    exact ⟨hnode'.trans hnode, hentered ∘ hentered'⟩
  kept j hj := (h.kept j hj).trans (h'.kept j (hj.trans_le h.size_le))
  types := h.types.trans h'.types
  nodup hnodup := h'.nodup (h.nodup hnodup)
  told := h.told.trans h'.told
  closed := h.closed.kept h.size_le h'.kept h'.closed

theorem Grows.mono (h : c.Grows P c') (hP : ∀ j, P' j → P j) : c.Grows P' c' :=
  ⟨h.size_le, fun j hj => h.spared j (hP j hj), h.kept, h.types, h.nodup, h.told, h.closed⟩

/-- A sprout outside of which all happens stays one. -/
theorem Grows.budding {i : NodeId} {top : Nat} (h : c.Grows P c') (hb : c.Budding i top)
    (hP : ∀ j, i.index ≤ j.index → j.index < top → P j) : c'.Budding i top where
  sprout := hb.sprout.congr h.size_le fun j hij hj => (h.spared j (hP j hij hj)).1
  fresh j hij hj hmem := hb.fresh j hij hj ((h.spared j (hP j hij hj)).2 hmem)

/-- A stored reference stays bound to its node. -/
theorem Grows.stored? (h : c.Grows P c') {ref : Json} {i : NodeId}
    (hi : c.stored? ref = some i) : c'.stored? ref = some i := by
  obtain ⟨rest, hrest⟩ := h.types
  rw [Context.stored?, ← hrest]
  rw [Context.stored?] at hi
  cases hkey : ref.key? with
  | none => simp [hkey] at hi
  | some key =>
    simp only [hkey, Option.bind_some] at hi ⊢
    cases hget : get? key c.types with
    | none => simp [hget] at hi
    | some found => rw [get?_append_of_some hget, ← hget, hi]

end Context

end ApiGraph
