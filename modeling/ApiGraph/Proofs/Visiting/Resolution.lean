import ApiGraph.Proofs.Faults
import ApiGraph.Proofs.Visiting.Steps

/-!
# Resolving a reference

A reference that is met is found in the store, or looked up, built and stored before the new node is
visited.

* `Bound` — the state in which the node of a reference has just been stored;
* `Visit.locate`, `locate_cases` — how the node of a reference is found or stored;
* `resolve_cases` — the three ways in which a reference is resolved;
* `Bound.grows`, `Bound.sound`, `Bound.pursued` — what storing a new node keeps.
-/

namespace ApiGraph

open OrderedMap Context

variable {d : Document} {q : Option NodeId} {c c' : Context} {owner : Option NodeId} {ref : Json}
  {i : NodeId}

/-- The event of a reference that is met. -/
def Context.meet (c : Context) (ref : Json) : Context :=
  { c with transcript := .met ref :: c.transcript }

/-- The declaration of a reference was looked up, built, named and stored. -/
structure Bound (d : Document) (c : Context) (owner : Option NodeId) (ref : Json) (i : NodeId)
    (c' : Context) : Prop where
  new : c.stored? ref = none
  built : ∃ declaration c₁ c₂, d.lookupValue ref = .ok declaration ∧ c₁.graph = c.graph ∧
    Sprouted c₁ owner (.obj declaration) i c₂ ∧
    c'.graph = c₂.graph.update i fun n => { n with name := ref }
  types : ∃ key, ref.key? = some key ∧ c'.types = OrderedMap.insert key (some i) c.types
  transcript : ∃ (e₁ e₂ : Event) (new : Transcript), e₁.Idle ∧ e₂.Idle ∧ (∀ e ∈ new, e.Idle) ∧
    c'.transcript = e₂ :: .built ref i :: (new ++ .lookedUp ref :: e₁ :: .met ref :: c.transcript)
  oracle : c'.oracle = c.oracle

/-- A reference could not be resolved: it was met, and perhaps looked up. -/
structure Missed (c : Context) (ref : Json) (c' : Context) : Prop where
  graph : c'.graph = c.graph
  types : c'.types = c.types
  transcript : ∃ new, c'.transcript = new ++ c.transcript ∧
    ∀ e ∈ new, e.Idle ∨ e = .met ref ∨ e = .lookedUp ref ∧ c.stored? ref = none

theorem trace_eq (tag text : String) (c : Context) : ∃ e : Event, e.Idle ∧
    Run.trace tag text c = .ok () { c with transcript := e :: c.transcript } :=
  ⟨_, ⟨rfl, rfl, rfl, rfl⟩, rfl⟩

theorem stored?_of_key {key : Key} (h : ref.key? = some key) :
    Run.stored? ref c = .ok (c.stored? ref) c := by
  rw [Context.stored?, h]
  simp only [Run.stored?, Run.keyOf, h]
  rfl

theorem store_of_new {key : Key} (h : ref.key? = some key) (hnew : c.stored? ref = none)
    (i : NodeId) : ∃ e : Event, e.Idle ∧ Run.store ref i c = .ok i
      { c with types := OrderedMap.insert key (some i) c.types, transcript := e :: c.transcript } := by
  obtain ⟨e, he, htrace⟩ := trace_eq "   [store]" ("storing: " ++ ref.display) c
  refine ⟨e, he, ?_⟩
  rw [Context.stored?, h, Option.bind_some] at hnew
  have hkey : Run.keyOf ref { c with transcript := e :: c.transcript } =
      .ok key { c with transcript := e :: c.transcript } := by
    rw [Run.keyOf, h]
    rfl
  rw [Run.store, bind_of_ok htrace, bind_of_ok hkey, bind_of_ok (m := get) rfl]
  simp only [hnew]
  rfl

/-- The node for a reference before it is visited, and whether it is a new one. -/
def Visit.locate (d : Document) (owner : Option NodeId) (ref : Json) : Run (NodeId × Bool) := do
  Run.say (.met ref)
  match ← Run.stored? ref with
  | some found => return (found, false)
  | none =>
    Run.trace "-> [ref]" ("in: " ++ ref.display)
    Run.say (.lookedUp ref)
    let declaration ← Run.lift (d.lookupValue ref)
    let i ← Build.fromSchema owner (.obj declaration)
    Run.say (.built ref i)
    Run.update i fun n => { n with name := ref }
    let live ← Run.store ref i
    return (live, true)

/-- A new node is visited once it is stored. -/
theorem Visit.resolve_eq_locate_bind (d : Document) (v : Visitor) (owner : Option NodeId) (ref : Json) :
    resolve d v owner ref = locate d owner ref >>= fun located => do
      if located.2 then do
        v located.1
        Run.trace "<- [ref]" ("out: " ++ ref.display)
      else Run.trace "   [ref]" ("cached: " ++ ref.display)
      return located.1 := by
  simp only [resolve, locate, bind_assoc]
  refine bind_congr fun _ => bind_congr fun found => ?_
  cases found <;> simp

/-- A reference is found in the store, or it is built and stored, or there is no node for it. -/
theorem locate_cases (d : Document) (owner : Option NodeId) (ref : Json) (c : Context) :
    (∃ i, c.stored? ref = some i ∧ Visit.locate d owner ref c = .ok (i, false) (c.meet ref)) ∨
    (∃ i c', Bound d c owner ref i c' ∧ Visit.locate d owner ref c = .ok (i, true) c') ∨
    ∃ fault c', fault ≠ .endless ∧ Missed c ref c' ∧
      (∀ declaration s, d.lookupValue ref = .ok declaration →
        Schema.read (c.graph.owner owner) (.obj declaration) ≠ .ok s) ∧
      Visit.locate d owner ref c = .error fault c' := by
  have hmeet : Run.say (.met ref) c = .ok () (c.meet ref) := rfl
  rw [Visit.locate, bind_of_ok hmeet]
  cases hkey : ref.key? with
  | none =>
    refine .inr (.inr ⟨.malformed, c.meet ref, (by simp), ⟨rfl, rfl, [.met ref], rfl, ?_⟩, ?_, ?_⟩)
    · exact fun e he => .inr (.inl (List.mem_singleton.1 he))
    · intro declaration s hlookup
      cases ref <;> first | cases hlookup | cases hkey
    · refine bind_of_error ?_
      simp only [Run.stored?, Run.keyOf, hkey]
      rfl
  | some key =>
    rw [bind_of_ok (stored?_of_key hkey)]
    have hsame : (c.meet ref).stored? ref = c.stored? ref := rfl
    rw [hsame]
    cases hstored : c.stored? ref with
    | some i => exact .inl ⟨i, rfl, rfl⟩
    | none =>
      obtain ⟨e₁, he₁, htrace⟩ := trace_eq "-> [ref]" ("in: " ++ ref.display) (c.meet ref)
      have hlook : Run.say (.lookedUp ref) { c.meet ref with transcript := e₁ :: (c.meet ref).transcript } =
          .ok () { c with transcript := .lookedUp ref :: e₁ :: .met ref :: c.transcript } := rfl
      simp only
      rw [bind_of_ok htrace, bind_of_ok hlook]
      have hevents : ∀ e ∈ [.lookedUp ref, e₁, .met ref], e.Idle ∨ e = .met ref ∨
          e = .lookedUp ref ∧ c.stored? ref = none := by
        intro e he
        simp only [List.mem_cons, List.not_mem_nil, or_false] at he
        rcases he with rfl | rfl | rfl
        · exact .inr (.inr ⟨rfl, hstored⟩)
        · exact .inl he₁
        · exact .inr (.inl rfl)
      have hmissed : Missed c ref
          { c with transcript := .lookedUp ref :: e₁ :: .met ref :: c.transcript } :=
        ⟨rfl, rfl, [.lookedUp ref, e₁, .met ref], rfl, hevents⟩
      cases hlookup : d.lookupValue ref with
      | error fault =>
        exact .inr (.inr ⟨fault, _, (d.fails_lookupValue ref fault hlookup).2, hmissed,
          (fun _ _ h => by cases h), rfl⟩)
      | ok declaration =>
        have hlift : ∀ c : Context, Run.lift (.ok declaration) c = .ok declaration c := fun _ => rfl
        rw [bind_of_ok (hlift _)]
        generalize hc₁ : ({ c with transcript := .lookedUp ref :: e₁ :: .met ref :: c.transcript } :
          Context) = c₁ at hmissed
        have hgraph : c₁.graph = c.graph := by
          rw [← hc₁]
        cases hread : Schema.read (c₁.graph.owner owner) (.obj declaration) with
        | error fault =>
          rw [bind_of_error (fromSchema_of_read_eq_error hread)]
          refine .inr (.inr ⟨fault, _, (Schema.fails_read _ _ fault hread).2, hmissed, ?_, rfl⟩)
          rintro _ s ⟨⟩ hs
          rw [hgraph, hs] at hread
          cases hread
        | ok declared =>
          have hbuild := fromSchema_of_read_eq_ok hread
          have hsprouted := sprouted_fromSchema hbuild
          rw [bind_of_ok hbuild]
          generalize (c₁.graph.plant owner declared).1 = i at hsprouted
          generalize hc₂ : ({ c₁ with graph := _, transcript := _ } : Context) = c₂ at hsprouted
          have horacle : c₂.oracle = c.oracle := by
            rw [← hc₂, ← hc₁]
          have hbuilt : Run.say (.built ref i) c₂ =
              .ok () { c₂ with transcript := .built ref i :: c₂.transcript } := rfl
          have hname : Run.update i (fun n => { n with name := ref })
                { c₂ with transcript := .built ref i :: c₂.transcript } =
              .ok () { c₂ with
                graph := c₂.graph.update i fun n => { n with name := ref }
                transcript := .built ref i :: c₂.transcript } := rfl
          have htypes : c₂.types = c.types := by
            rw [hsprouted.still.types, ← hc₁]
          have hnew : ({ c₂ with
              graph := c₂.graph.update i fun n => { n with name := ref }
              transcript := .built ref i :: c₂.transcript } : Context).stored? ref = none := by
            rw [Context.stored?, htypes]
            exact hstored
          obtain ⟨e₂, he₂, hstore⟩ := store_of_new hkey hnew i
          rw [bind_of_ok hbuilt, bind_of_ok hname, bind_of_ok hstore]
          refine .inr (.inl ⟨i, _, ⟨hstored, ?_, ?_, ?_, ?_⟩, rfl⟩)
          · exact ⟨declaration, c₁, c₂, hlookup, hgraph, hsprouted, rfl⟩
          · exact ⟨key, hkey, by rw [htypes]⟩
          · obtain ⟨new, hnew, hidle⟩ := hsprouted.still.transcript
            refine ⟨e₁, e₂, new, he₁, he₂, hidle, ?_⟩
            rw [hnew, ← hc₁]
          · exact horacle

/-- A reference is found in the store, or it is built and visited, or it can not be resolved. -/
theorem resolve_cases (d : Document) (v : Visit.Visitor) (owner : Option NodeId) (ref : Json)
    (c : Context) :
    (∃ i text, c.stored? ref = some i ∧ Visit.resolve d v owner ref c =
      (do Run.trace "   [ref]" text; return i : Run NodeId) (c.meet ref)) ∨
    (∃ i text c', Bound d c owner ref i c' ∧ Visit.resolve d v owner ref c =
      (do v i; Run.trace "<- [ref]" text; return i : Run NodeId) c') ∨
    ∃ fault c', fault ≠ .endless ∧ Missed c ref c' ∧
      (∀ declaration s, d.lookupValue ref = .ok declaration →
        Schema.read (c.graph.owner owner) (.obj declaration) ≠ .ok s) ∧
      Visit.resolve d v owner ref c = .error fault c' := by
  rw [Visit.resolve_eq_locate_bind]
  rcases locate_cases d owner ref c with
    ⟨i, hstored, he⟩ | ⟨i, c', hbound, he⟩ | ⟨fault, c', hfault, hmissed, hread, he⟩
  · refine .inl ⟨i, "cached: " ++ ref.display, hstored, ?_⟩
    rw [bind_of_ok he]
    rfl
  · refine .inr (.inl ⟨i, "out: " ++ ref.display, c', hbound, ?_⟩)
    rw [bind_of_ok he, if_pos rfl]
  · exact .inr (.inr ⟨fault, c', hfault, hmissed, hread, bind_of_error he⟩)

namespace Bound

theorem text (h : Bound d c owner ref i c') : ∃ s, ref = .str s ∧ s ≠ "" := by
  obtain ⟨declaration, c₁, c₂, hlookup, -⟩ := h.built
  cases ref with
  | str s =>
    refine ⟨s, rfl, ?_⟩
    rintro rfl
    cases hlookup
  | _ => cases hlookup

theorem filterMap_eq {β : Type} {f : Event → Option β} (h : Bound d c owner ref i c')
    (hf : ∀ e : Event, e.Idle → f e = none) :
    c'.transcript.reverse.filterMap f = c.transcript.reverse.filterMap f ++
      (f (.met ref)).toList ++ (f (.lookedUp ref)).toList ++ (f (.built ref i)).toList := by
  obtain ⟨e₁, e₂, new, he₁, he₂, hidle, htranscript⟩ := h.transcript
  have hnew : new.reverse.filterMap f = [] :=
    List.filterMap_eq_nil_iff.2 fun e he => hf e (hidle e (List.mem_reverse.1 he))
  rw [htranscript]
  simp only [List.reverse_cons, List.reverse_append, List.filterMap_append, List.append_assoc, hnew,
    List.filterMap_cons, List.filterMap_nil, hf e₁ he₁, hf e₂ he₂, List.nil_append,
    List.append_nil]
  cases f (.met ref) <;> cases f (.lookedUp ref) <;> cases f (.built ref i) <;> rfl

theorem entered (h : Bound d c owner ref i c') : c'.entered = c.entered := by
  have heq := h.filterMap_eq (f := Event.enteredNode?) fun _ he => he.entered
  simp only [Event.enteredNode?, Option.toList_none, List.append_nil] at heq
  exact heq

theorem builds (h : Bound d c owner ref i c') :
    c'.transcript.builds = c.transcript.builds ++ [(ref, i)] := by
  have heq := h.filterMap_eq (f := Event.built?) fun _ he => he.built
  simp only [Event.built?, Option.toList_none, Option.toList_some, List.append_nil] at heq
  exact heq

theorem lookups (h : Bound d c owner ref i c') :
    c'.transcript.lookups = c.transcript.lookups ++ [ref] := by
  have heq := h.filterMap_eq (f := Event.lookedUp?) fun _ he => he.lookedUp
  simp only [Event.lookedUp?, Option.toList_none, Option.toList_some, List.append_nil] at heq
  exact heq

theorem met (h : Bound d c owner ref i c') :
    c'.transcript.metReferences = c.transcript.metReferences ++ [ref] := by
  have heq := h.filterMap_eq (f := Event.metReference?) fun _ he => he.met
  simp only [Event.metReference?, Option.toList_none, Option.toList_some, List.append_nil] at heq
  exact heq

theorem index (h : Bound d c owner ref i c') : i.index = c.graph.size := by
  obtain ⟨declaration, c₁, c₂, -, hgraph, hsprouted, -⟩ := h.built
  rw [hsprouted.planted.index, hgraph]

theorem size_lt (h : Bound d c owner ref i c') : c.graph.size < c'.graph.size := by
  obtain ⟨declaration, c₁, c₂, -, hgraph, hsprouted, hgraph'⟩ := h.built
  rw [hgraph', Graph.size_update, ← hgraph]
  exact hsprouted.size_lt

theorem node_eq (h : Bound d c owner ref i c') {j : NodeId} (hj : j.index < c.graph.size) :
    c'.graph.node j = c.graph.node j := by
  obtain ⟨declaration, c₁, c₂, -, hgraph, hsprouted, hgraph'⟩ := h.built
  have hne : j ≠ i := by
    rintro rfl
    exact hj.ne h.index
  rw [hgraph', Graph.node_update_of_ne c₂.graph hne, ← hgraph]
  exact hsprouted.planted.node_eq j (by rwa [hgraph])

theorem name (h : Bound d c owner ref i c') : (c'.graph.node i).name = ref := by
  obtain ⟨declaration, c₁, c₂, -, hgraph, hsprouted, hgraph'⟩ := h.built
  have hlt : i.index < c₂.graph.size := hsprouted.planted.sprout.lt_size
  rw [hgraph', Graph.node_update_self c₂.graph hlt]

theorem slot? (h : Bound d c owner ref i c') : (c'.graph.node i).slot? = none := by
  obtain ⟨declaration, c₁, c₂, -, hgraph, hsprouted, hgraph'⟩ := h.built
  have hlt : i.index < c₂.graph.size := hsprouted.planted.sprout.lt_size
  rw [hgraph', Graph.node_update_self c₂.graph hlt]
  exact hsprouted.slot?

/-- A new node other than the one for the reference has no name unless it is a property. -/
theorem loose (h : Bound d c owner ref i c') {j : NodeId} (hj : c.graph.size ≤ j.index)
    (hne : j ≠ i) : (c'.graph.node j).Loose := by
  obtain ⟨declaration, c₁, c₂, -, hgraph, hsprouted, hgraph'⟩ := h.built
  rw [hgraph', Graph.node_update_of_ne c₂.graph hne]
  exact hsprouted.planted.loose j (by rwa [hgraph])

theorem closed (h : Bound d c owner ref i c') : c'.graph.ClosedFrom c.graph.size := by
  obtain ⟨declaration, c₁, c₂, -, hgraph, hsprouted, hgraph'⟩ := h.built
  intro j hj k hk
  have hbelow : (c'.graph.node j).below = (c₂.graph.node j).below := by
    rw [hgraph', Graph.node_update_eq]
    split
    · next hj => rw [hj.1]; rfl
    · rfl
  rw [hbelow] at hk
  rw [← hgraph] at hj ⊢
  exact hsprouted.planted.closed j hj k hk

theorem target (h : Bound d c owner ref i c') : (c'.graph.node i).target? = none := by
  obtain ⟨declaration, c₁, c₂, -, hgraph, hsprouted, hgraph'⟩ := h.built
  have hlt : i.index < c₂.graph.size := hsprouted.planted.sprout.lt_size
  rw [hgraph', Graph.node_update_self c₂.graph hlt]
  exact hsprouted.planted.sprout.bud.target

/-- A declaration that is a reference is an alias. -/
theorem alias_of_ref (h : Bound d c owner ref i c') {link : Link}
    (hlink : (c'.graph.node i).body = .ref link) : d.Alias ref link.ref := by
  obtain ⟨declaration, c₁, c₂, hlookup, -, hsprouted, hgraph'⟩ := h.built
  have hlt : i.index < c₂.graph.size := hsprouted.planted.sprout.lt_size
  rw [hgraph', Graph.node_update_self c₂.graph hlt] at hlink
  exact ⟨declaration, hlookup, hsprouted.reference hlink⟩

theorem stored? (h : Bound d c owner ref i c') : c'.stored? ref = some i := by
  obtain ⟨key, hkey, htypes⟩ := h.types
  rw [Context.stored?, hkey, htypes, Option.bind_some, get?_insert_self]
  rfl

theorem types_eq (h : Bound d c owner ref i c') (hs : c.Sound d q) :
    ∃ key, ref.key? = some key ∧ get? key c.types = none ∧
      c'.types = c.types ++ [(key, some i)] := by
  obtain ⟨key, hkey, htypes⟩ := h.types
  have hnone := hs.get?_eq_none hkey h.new
  exact ⟨key, hkey, hnone, by rw [htypes, insert_of_get?_eq_none hnone]⟩

theorem budding (h : Bound d c owner ref i c') (hs : c.Sound d q) :
    c'.Budding i c'.graph.size := by
  obtain ⟨declaration, c₁, c₂, -, hgraph, hsprouted, hgraph'⟩ := h.built
  refine ⟨?_, fun j hj _ hmem => ?_⟩
  · rw [hgraph', Graph.size_update]
    exact hsprouted.planted.sprout.rename ref
  · rw [h.entered] at hmem
    have := hs.entered_lt j hmem
    have := h.index
    omega

theorem grows (h : Bound d c owner ref i c') (hs : c.Sound d q) : c.Grows c.Old c' := by
  obtain ⟨key, -, -, htypes⟩ := h.types_eq hs
  refine ⟨h.size_lt.le, fun j hj => ⟨h.node_eq hj, ?_⟩, fun j hj => ?_, ?_, ?_, ?_, h.closed⟩
  · rw [h.entered]
    exact id
  · rw [h.node_eq hj]
    exact Node.Kept.refl _
  · rw [htypes]
    exact List.prefix_append _ _
  · rw [h.entered]
    exact id
  · obtain ⟨e₁, e₂, new, -, -, -, htranscript⟩ := h.transcript
    rw [htranscript]
    exact ⟨e₂ :: .built ref i :: (new ++ [.lookedUp ref, e₁, .met ref]), by simp⟩

theorem sound (h : Bound d c owner ref i c') (hs : c.Sound d q) : c'.Sound d q where
  types_eq := by
    obtain ⟨key, hkey, -, htypes⟩ := h.types_eq hs
    rw [htypes, h.builds, List.map_append, List.map_append, hs.types_eq]
    simp [Key.toJson_of_key?_eq_some hkey]
  distinct := by
    obtain ⟨key, hkey, htypes⟩ := h.types
    rw [htypes]
    exact distinct_keys_insert hs.distinct key (some i)
  built ref' j hj := by
    rw [h.builds] at hj
    rcases List.mem_append.1 hj with hj | hj
    · obtain ⟨htext, hlt, hbuilt⟩ := hs.built ref' j hj
      rw [h.node_eq hlt]
      exact ⟨htext, hlt.trans h.size_lt, hbuilt⟩
    · obtain ⟨rfl, rfl⟩ := Prod.mk.inj (List.mem_singleton.1 hj)
      refine ⟨h.text, by rw [h.index]; exact h.size_lt, ?_, h.name, h.slot?, fun link => h.alias_of_ref⟩
      intro hq
      exact (hs.handmade j hq).1.ne h.index
  linked j link t hlink ht := by
    by_cases hj : j.index < c.graph.size
    · rw [h.node_eq hj] at hlink
      exact (h.grows hs).stored? (hs.linked j link t hlink ht)
    · have htarget : (c'.graph.node j).target? = none := by
        by_cases hne : j = i
        · rw [hne]
          exact h.target
        · exact (h.loose (Nat.not_lt.1 hj) hne).target
      rw [Node.target?, hlink, Option.bind_some, ht] at htarget
      cases htarget
  named j hq hslot hname := by
    by_cases hj : j.index < c.graph.size
    · rw [h.node_eq hj] at hslot hname ⊢
      exact (h.grows hs).stored? (hs.named j hq hslot hname)
    · by_cases hne : j = i
      · rw [hne, h.name]
        exact h.stored?
      · rw [(h.loose (Nat.not_lt.1 hj) hne).unnamed hslot] at hname
        cases hname
  entered_lt j hj := by
    rw [h.entered] at hj
    exact (hs.entered_lt j hj).trans h.size_lt
  once := by
    obtain ⟨e₁, e₂, new, he₁, he₂, hidle, htranscript⟩ := h.transcript
    have hunbuilt : ∀ j, (.built ref j : Event) ∉ c.transcript := by
      intro j hj
      have hstored := hs.stored?_eq_some_iff.2 (Transcript.mem_builds.2 hj)
      rw [h.new] at hstored
      cases hstored
    have hmet : Transcript.Once (.met ref :: c.transcript) :=
      hs.once.cons fun _ _ _ => ⟨(by simp), (by simp)⟩
    have hlookedUp : Transcript.Once (.lookedUp ref :: e₁ :: .met ref :: c.transcript) := by
      refine Transcript.Once.cons (hmet.cons_idle he₁) fun ref' j hj => ⟨?_, (by simp)⟩
      rintro ⟨⟩
      rcases List.mem_cons.1 hj with rfl | hj
      · cases he₁.built
      · rcases List.mem_cons.1 hj with hj | hj
        · cases hj
        · exact hunbuilt j hj
    rw [htranscript]
    refine Transcript.Once.cons_idle (Transcript.Once.cons (hlookedUp.append_idle hidle)
      fun ref' j hj => ⟨(by simp), ?_⟩) he₂
    rintro j' ⟨⟩
    rcases List.mem_append.1 hj with hj | hj
    · cases (hidle _ hj).built
    · rcases List.mem_cons.1 hj with hj | hj
      · cases hj
      · rcases List.mem_cons.1 hj with rfl | hj
        · cases he₁.built
        · rcases List.mem_cons.1 hj with hj | hj
          · cases hj
          · exact hunbuilt j hj
  handmade j hj := by
    obtain ⟨hlt, hbody⟩ := hs.handmade j hj
    rw [h.node_eq hlt]
    exact ⟨hlt.trans h.size_lt, hbody⟩

theorem pursued (h : Bound d c owner ref i c') (hs : c.Sound d q) (hp : c.Pursued) :
    c'.Pursued where
  stored ref' href := by
    rw [h.met] at href
    rcases List.mem_append.1 href with href | href
    · obtain ⟨j, hj⟩ := hp.stored ref' href
      exact ⟨j, (h.grows hs).stored? hj⟩
    · rw [List.mem_singleton.1 href]
      exact ⟨i, h.stored?⟩
  lookups := by
    rw [h.lookups, h.builds, hp.lookups, List.map_append]
    rfl

end Bound

end ApiGraph
