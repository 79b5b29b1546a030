import ApiGraph.Proofs.Finishing.Selections

/-!
# Finished graphs are complete

Whenever a reference was resolved or a node was visited from outside of any visit, all that visits
follow is finished. Arguments of properties whose types are references are left out.

* `Context.Settled` — a node that is finished;
* `Context.Reachable`, `Context.Followed` — the nodes that the store and a root lead to, and those
  that visits follow;
* `Whole.settled` — a visited node is settled when nothing is owed;
* `Conversion.Milestone` — the states of a run right after such a call;
* `Conversion.complete_iff` — when the graph is complete there.
-/

namespace ApiGraph

open OrderedMap

namespace Context

/-- A node that is finished: its reference leads where the store says, a choice has got one union made
for its first shape, a composition has its properties as children, and what is asked of the node is
answered. -/
structure Settled (c : Context) (i : NodeId) : Prop where
  visited : (c.graph.node i).visited = true
  target : ∀ link, (c.graph.node i).body.link? = some link →
    ∃ t, link.target = some t ∧ c.stored? link.ref = some t
  oneOf : ∀ members, (c.graph.node i).body = .composed .oneOf members →
    ∃ declared first rest u v, members = some declared ∧ declared.elements = .ok (first :: rest) ∧
      (c.graph.node i).children = [some u] ∧ (c.graph.node u).body = .union (first :: rest) ∧
      (c.graph.node u).children = [some v] ∧ .planted (some u) first v ∈ c.transcript
  allOf : ∀ members, (c.graph.node i).body = .composed .allOf members →
    (c.graph.node i).children = (values (c.graph.node i).props).map some
  identity : ∃ text, c.graph.identity i = .ok text
  dependencies : ∃ nodes, c.graph.dependencies i = .ok nodes

/-- A node that is stored, or a root. -/
def Origin (c : Context) (root : Option NodeId) (i : NodeId) : Prop :=
  root = some i ∨ some i ∈ values c.types

/-- A node that the store or the root leads to. -/
def Reachable (c : Context) (root : Option NodeId) (i : NodeId) : Prop :=
  ∃ r, c.Origin root r ∧ Relation.ReflTransGen (fun a b => b ∈ (c.graph.node a).links) r i

/-- A node that visits lead to from the store or the root. -/
def Followed (c : Context) (root : Option NodeId) (i : NodeId) : Prop :=
  ∃ r, c.Origin root r ∧ Relation.ReflTransGen (fun a b => b ∈ (c.graph.node a).followed) r i

end Context

open Context

variable {A : NodeId → Prop} {d : Document} {q root : Option NodeId} {c : Context} {i : NodeId}

/-! ## Visited nodes -/

theorem Whole.led_visited (hw : Whole A (fun _ => False) c) (hi : c.Visited i) {k : NodeId}
    (hk : k ∈ (c.graph.node i).followed) : c.Visited k :=
  (hw.led i hi k hk).resolve_right id

theorem Whole.visited_of_props (hw : Whole A (fun _ => False) c) (hi : c.Visited i)
    {e : Key × NodeId} (he : e ∈ (c.graph.node i).props) : c.Visited e.2 := by
  have hmem : e.2 ∈ values (c.graph.node i).props := List.mem_map_of_mem he
  exact hw.led_visited hi (by simp [Node.followed, hmem])

theorem Whole.visited_of_child (hw : Whole A (fun _ => False) c) (hi : c.Visited i) {k : NodeId}
    (hk : some k ∈ (c.graph.node i).children) : c.Visited k :=
  hw.led_visited hi (by simp [Node.followed, hk])

/-- What identifies a property is its name or its reference. -/
theorem exists_identityWithin_property {g : Graph} {name : String} (hi : (g.node i).visited = true)
    (h : (g.node i).IsProperty name) (steps : Nat) :
    ∃ text, g.identityWithin (steps + 1) i = .ok text := by
  obtain ⟨-, slot, arguments, link, hbody⟩ := h
  cases link <;> simp [Graph.identityWithin, hi, hbody]

/-- What a property speaks of is its value. -/
theorem exists_dependenciesWithin_property {g : Graph} {name : String}
    (hi : (g.node i).visited = true) (h : (g.node i).IsProperty name) (steps : Nat) :
    ∃ nodes, g.dependenciesWithin (steps + 1) i = .ok nodes := by
  obtain ⟨-, slot, arguments, link, hbody⟩ := h
  simp [Graph.dependenciesWithin, hi, hbody]

/-- Names that are texts can be joined. -/
theorem exists_joinNames {m : OrderedMap Key NodeId} (h : ∀ e ∈ m, ∃ s, e.1 = .text s)
    (separator : String) : ∃ text, Graph.joinNames separator m = .ok text := by
  rw [Graph.joinNames]
  refine Attempt.exists_bind_pure_eq_ok (Attempt.exists_mapM_eq_ok fun e he => ?_) _
  obtain ⟨s, hs⟩ := h e he
  obtain ⟨key, p⟩ := e
  obtain rfl : key = .text s := hs
  exact ⟨s, rfl⟩

/-- The names of the properties of a visited node are texts. -/
theorem Whole.exists_joinNames (hw : Whole A (fun _ => False) c) (hi : c.Visited i)
    (separator : String) : ∃ text, Graph.joinNames separator (c.graph.node i).props = .ok text := by
  refine ApiGraph.exists_joinNames (fun e he => ?_) separator
  obtain ⟨s, hs, -⟩ := hw.entries i (.inl hi) e he
  exact ⟨s, hs⟩

/-- The identity of a visited node is found: what it speaks of lies at later places. -/
theorem Whole.exists_identityWithin (hw : Whole A (fun _ => False) c) (hi : c.Visited i)
    {steps : Nat} (hsteps : c.graph.size < steps + i.index) :
    ∃ text, c.graph.identityWithin steps i = .ok text := by
  induction steps generalizing i with
  | zero =>
    have := hi.lt_size
    omega
  | succ steps ih =>
    have hlt := hi.lt_size
    have hripe := hw.ripe i hi
    have hvisited : (c.graph.node i).visited = true := hi
    -- a single node below, at a later place
    have hone : ∀ k, (c.graph.node i).children = [some k] → i.index < k.index →
        ∃ texts, (c.graph.node i).children.mapM
          (fun j => do c.graph.identityWithin steps (← expect j)) = .ok texts := by
      intro k hchildren hik
      rw [hchildren]
      refine Attempt.exists_mapM_eq_ok fun j hj => ?_
      rw [List.mem_singleton.1 hj]
      exact ih (hw.visited_of_child hi (by rw [hchildren]; exact List.mem_singleton_self _)) (by omega)
    rw [Graph.identityWithin]
    simp only [hvisited, Bool.not_true, Bool.false_eq_true, if_false]
    cases hbody : (c.graph.node i).body with
    | bare => exact absurd hbody hripe.kind
    | scalar type => exact ⟨_, rfl⟩
    | object =>
      dsimp only
      split
      · exact ⟨_, rfl⟩
      · exact Attempt.exists_bind_pure_eq_ok (hw.exists_joinNames hi ",") _
    | array items =>
      obtain ⟨k, rfl, hik⟩ := hripe.items items hbody
      have hk : k ∈ (c.graph.node i).followed := by simp [Node.followed, Node.items?, hbody]
      exact Attempt.exists_bind_pure_eq_ok (ih (hw.led_visited hi hk) (by omega)) _
    | union shapes =>
      obtain ⟨first, rest, v, -, hchildren, hiv, -⟩ := hripe.union shapes hbody
      exact Attempt.exists_bind_pure_eq_ok (hone v hchildren hiv) _
    | composed kind parts =>
      refine Attempt.exists_bind_pure_eq_ok ?_ _
      cases kind with
      | oneOf =>
        obtain ⟨declared, shapes, u, -, -, hchildren, hiu, -⟩ := hripe.oneOf parts hbody
        exact hone u hchildren hiu
      | allOf =>
        rw [hripe.allOf parts hbody]
        refine Attempt.exists_mapM_eq_ok fun j hj => ?_
        obtain ⟨p, hp, rfl⟩ := List.mem_map.1 hj
        obtain ⟨e, he, rfl⟩ := List.mem_map.1 hp
        obtain ⟨s, -, hprop⟩ := hw.entries i (.inl hi) e he
        obtain ⟨more, rfl⟩ : ∃ more, steps = more + 1 := ⟨steps - 1, by omega⟩
        exact exists_identityWithin_property (hw.visited_of_props hi he) hprop more
    | ref link => exact ⟨_, rfl⟩
    | property slot arguments link => cases link <;> exact ⟨_, rfl⟩
    | parameter slot => exact ⟨_, rfl⟩

theorem Whole.exists_dependencies (hw : Whole A (fun _ => False) c) (hi : c.Visited i) :
    ∃ nodes, c.graph.dependencies i = .ok nodes := by
  have hlt := hi.lt_size
  have hvisited : (c.graph.node i).visited = true := hi
  have hprops : ∃ found, (values (c.graph.node i).props).mapM
      (c.graph.dependenciesWithin c.graph.size) = .ok found := by
    refine Attempt.exists_mapM_eq_ok fun p hp => ?_
    obtain ⟨e, he, rfl⟩ := List.mem_map.1 hp
    obtain ⟨s, -, hprop⟩ := hw.entries i (.inl hi) e he
    obtain ⟨more, hmore⟩ : ∃ more, c.graph.size = more + 1 := ⟨c.graph.size - 1, by omega⟩
    rw [hmore]
    exact exists_dependenciesWithin_property (hw.visited_of_props hi he) hprop more
  rw [Graph.dependencies, Graph.dependenciesWithin]
  simp only [hvisited, Bool.not_true, Bool.false_eq_true, if_false]
  split
  · exact ⟨_, rfl⟩
  · exact ⟨_, rfl⟩
  · exact Attempt.exists_bind_pure_eq_ok hprops _
  · exact Attempt.exists_bind_pure_eq_ok hprops _
  all_goals exact ⟨_, rfl⟩

/-- A visited node is settled when nothing is owed. -/
theorem Whole.settled (hw : Whole A (fun _ => False) c) (hi : c.Visited i) : c.Settled i := by
  have hripe := hw.ripe i hi
  refine ⟨hi, hripe.target, fun members hbody => ?_, hripe.allOf,
    hw.exists_identityWithin hi (by omega), hw.exists_dependencies hi⟩
  obtain ⟨declared, shapes, u, hmembers, helements, hchildren, -, -, hunion⟩ :=
    hripe.oneOf members hbody
  have hu : c.Visited u :=
    hw.visited_of_child hi (by rw [hchildren]; exact List.mem_singleton_self _)
  obtain ⟨first, rest, v, rfl, hshape, -, hplanted⟩ := (hw.ripe u hu).union shapes hunion
  exact ⟨declared, first, rest, u, v, hmembers, helements, hchildren, hunion, hshape, hplanted⟩

/-! ## Reachable nodes -/

/-- What is stored was visited, and so was the root. -/
theorem Context.AtRest.visited_of_origin (h : c.AtRest A d q)
    (hroot : ∀ r, root = some r → c.Visited r) (hi : c.Origin root i) : c.Visited i := by
  rcases hi with hi | hi
  · exact hroot i hi
  · obtain ⟨⟨key, found⟩, hmem, hfound⟩ := List.mem_map.1 hi
    obtain ⟨ref, j, hbuilt, -, hj⟩ := h.sound.exists_some hmem
    obtain rfl : j = i := Option.some.inj (hj.symm.trans hfound)
    exact (h.whole.stored ref j (h.sound.stored?_eq_some_iff.2 hbuilt)).resolve_right id

theorem Context.AtRest.visited_of_followed (h : c.AtRest A d q)
    (hroot : ∀ r, root = some r → c.Visited r) (hi : c.Followed root i) : c.Visited i := by
  obtain ⟨r, horigin, hlinks⟩ := hi
  induction hlinks with
  | refl => exact h.visited_of_origin hroot horigin
  | tail _ hk ih => exact h.whole.led_visited ih hk

/-- As long as no argument of a reference is in the way, visits lead to whatever can be reached. -/
theorem Context.AtRest.visited_of_reachable (h : c.AtRest A d q)
    (hroot : ∀ r, root = some r → c.Visited r)
    (hplain : ∀ j, c.Reachable root j → c.Visited j → (c.graph.node j).spurned = [])
    (hi : c.Reachable root i) : c.Visited i := by
  obtain ⟨r, horigin, hlinks⟩ := hi
  induction hlinks with
  | refl => exact h.visited_of_origin hroot horigin
  | @tail j k hj hk ih =>
    rcases Node.mem_links_iff.1 hk with hk | hk
    · exact h.whole.led_visited ih hk
    · rw [hplain j ⟨r, horigin, hj⟩ ih] at hk
      cases hk

/-- The arguments of references are left out. -/
theorem Context.AtRest.spurned (h : c.AtRest A d q) (hi : c.Visited i) :
    ∀ a ∈ (c.graph.node i).spurned, A a := by
  intro a ha
  obtain ⟨slot, arguments, link, hbody, ha⟩ := Node.mem_spurned_iff.1 ha
  exact (h.whole.plain i (.inl hi) slot arguments link hbody).2 a ha

/-- The nodes that visits lead to are settled. All others are as well just if no property whose type is
a reference takes arguments. -/
theorem Context.AtRest.settled_iff (h : c.AtRest A d q)
    (hroot : ∀ r, root = some r → c.Visited r) :
    (∀ i, c.Followed root i → c.Settled i) ∧
      ((∀ i, c.Reachable root i → c.Settled i) ↔
        ∀ i, c.Reachable root i → (c.graph.node i).spurned = []) := by
  refine ⟨fun i hi => h.whole.settled (h.visited_of_followed hroot hi), fun hall i hi => ?_,
    fun hnone i hi => ?_⟩
  · refine List.eq_nil_iff_forall_not_mem.2 fun a ha => ?_
    have hA : A a := h.spurned (hall i hi).visited a ha
    obtain ⟨r, horigin, hlinks⟩ := hi
    have hreach : c.Reachable root a :=
      ⟨r, horigin, hlinks.tail (Node.mem_links_iff.2 (.inr ha))⟩
    exact h.whole.spurned a hA (hall a hreach).visited
  · exact h.whole.settled (h.visited_of_reachable hroot (fun j hj _ => hnone j hj) hi)

/-! ## Runs -/

namespace Conversion

/-- The states of a run right after a reference was resolved or a node was visited from outside of any
visit, with the node that was visited. -/
inductive Milestone (d : Document) (config : Config) (oracle : Oracle) :
    Option NodeId → Context → Prop where
  /-- Some of the named schemas were resolved. -/
  | resolved {schemas : OrderedMap String Json} {before rest : List String} {c : Context}
      (named : d.schemas = .ok schemas) (order : keys schemas = before ++ rest)
      (run : (before.forM fun ref => do
        let _ ← Visit.resolveRef d none (.str ref) : Run Unit) (start oracle) = .ok () c) :
      Milestone d config oracle none c
  /-- The query object was visited. -/
  | queried {query : NodeId} {c : Context}
      (run : visitAll d config (start oracle) = .ok query c) :
      Milestone d config oracle (some query) c
  /-- The field of an operation that the oracle wants was visited. -/
  | selected {query field : NodeId} {c₀ c₁ c₂ c : Context} {before rest : List Operation}
      {op : Operation} {s : SelectionDraft}
      (new : newQuery config (start oracle) = .ok query c₀)
      (wanted : wantedOperations d config = .ok (before ++ op :: rest))
      (run : before.forM (selectOperation d query) { context := c₀ } = .ok () s)
      (answer : Run.askYesNo ("Visit path " ++ op.text ++ "?") s.context = .ok true c₁)
      (said : Run.log .info .conversion ("Visiting path " ++ op.text) c₁ = .ok () c₂)
      (visit : visitOperation d query op c₂ = .ok field c) :
      Milestone d config oracle (some field) c

variable {config : Config} {oracle : Oracle} {c' : Context}

theorem atRest_start (d : Document) (oracle : Oracle) :
    (start oracle).AtRest (fun _ => False) d none := by
  have hnot : ∀ j, ¬(start oracle).Visited j := fun j hj => by
    rw [Visited, Graph.node_of_size_le (Nat.zero_le _)] at hj
    cases hj
  refine ⟨Visit.sound_start d oracle, ⟨(by simp), fun j hj => absurd hj (hnot j),
    fun j hj => absurd hj (hnot j), fun j hj => absurd hj (hnot j), fun ref t ht => ?_, (by simp),
    fun j hj => absurd (hj.resolve_right id) (hnot j),
    fun j hj => absurd (hj.resolve_right id) (hnot j), (by simp)⟩, (by simp)⟩
  rw [(Visit.sound_start d oracle).stored?_eq_some_iff] at ht
  cases ht

theorem atRest_resolveEach {refs : List String} (h : c.AtRest A d q)
    (hrun : (refs.forM fun ref => do
      let _ ← Visit.resolveRef d none (.str ref) : Run Unit) c = .ok () c') :
    c'.AtRest A d q := by
  induction refs generalizing c with
  | nil =>
    cases hrun
    exact h
  | cons ref rest ih =>
    obtain ⟨u, c₁, hone, hrest⟩ := bind_eq_ok_iff.1 hrun
    obtain ⟨t, c₂, hresolve, hone⟩ := bind_eq_ok_iff.1 hone
    cases hone
    exact ih (h.resolve hresolve) hrest

/-- First the named schemas are resolved, then the query object is built with its fields, and at last it
is visited. -/
theorem steps_of_visitAll {query : NodeId} (h : visitAll d config c = .ok query c') :
    ∃ (refs : List String) (operations : List Operation) (c₁ c₂ : Context),
      (refs.forM fun ref => do
        let _ ← Visit.resolveRef d none (.str ref) : Run Unit) c = .ok () c₁ ∧
      wantedOperations d config = .ok operations ∧
      buildQuery config operations c₁ = .ok query c₂ ∧ Visit.visit d query c₂ = .ok () c' := by
  obtain ⟨u, c₁, hschemas, h⟩ := bind_eq_ok_iff.1 h
  obtain ⟨operations, c₂, hwanted, h⟩ := bind_eq_ok_iff.1 h
  obtain ⟨query', c₃, hbuild, h⟩ := bind_eq_ok_iff.1 h
  obtain ⟨u', c₄, hvisit, h⟩ := bind_eq_ok_iff.1 h
  cases h
  obtain ⟨schemas, c₅, hnamed, hschemas⟩ := bind_eq_ok_iff.1 hschemas
  obtain ⟨-, rfl⟩ := Visit.eq_ok_of_lift hnamed
  obtain ⟨hoperations, rfl⟩ := Visit.eq_ok_of_lift hwanted
  exact ⟨_, operations, _, c₃, hschemas, hoperations, hbuild, hvisit⟩

/-- All visits end with the one of the query object, whose fields are there by then. -/
theorem rooted_of_visitAll {query : NodeId} (h : visitAll d config (start oracle) = .ok query c) :
    ∃ A c₁, c₁.Rooted A d query ∧ Visit.visit d query c₁ = .ok () c := by
  obtain ⟨refs, operations, c₁, c₂, hschemas, -, hbuild, hvisit⟩ := steps_of_visitAll h
  obtain ⟨A, hrooted⟩ := rooted_buildQuery (atRest_resolveEach (atRest_start d oracle) hschemas) hbuild
  exact ⟨A, c₂, hrooted, hvisit⟩

/-- Nothing is owed after a call from outside of any visit. -/
theorem atRest_of_milestone (h : Milestone d config oracle root c) :
    ∃ A q, c.AtRest A d q ∧ (∀ r, root = some r → c.Visited r) ∧ (root = none → ∀ a, ¬A a) := by
  cases h with
  | resolved named order run =>
    exact ⟨_, none, atRest_resolveEach (atRest_start d oracle) run, (by simp), fun _ _ => id⟩
  | @queried query _ run =>
    obtain ⟨B, c₁, hrooted, hvisit⟩ := rooted_of_visitAll run
    obtain ⟨hrest, hvisited⟩ := hrooted.visit hvisit
    exact ⟨B, some query, hrest, fun r hr => Option.some.inj hr ▸ hvisited, (by simp)⟩
  | @selected query field c₀ c₁ c₂ _ before rest op s new wanted run answer said visit =>
    have hrooted := (atRest_start d oracle).newQuery new
    have hq : ¬c₀.Visited query := by
      rw [Visited, hrooted.budding.sprout.bud.unvisited]
      exact Bool.false_ne_true
    obtain ⟨B, hB, hqB⟩ := Selecting.atRest_selectEach (s := { context := c₀ }) hrooted.rest hq run
    have hstill := ((Run.idle_askYesNo _).of_ok answer).trans ((Run.idle_log _ _ _).of_ok said)
    have hq₂ : ¬c₂.Visited query := by
      rw [Visited, hstill.graph]
      exact hqB
    obtain ⟨B', hB', -, hvisited, -⟩ := (hB.still hstill).visitOperation hq₂ visit
    exact ⟨B', some query, hB', fun r hr => Option.some.inj hr ▸ hvisited, (by simp)⟩

/-- The graph of a run right after a call from outside of any visit. The nodes that visits lead to are
settled. What else can be reached is settled just if no property whose type is a reference takes
arguments, which no visit goes to. Resolving references alone makes no such property. -/
theorem complete_iff (h : Milestone d config oracle root c) :
    (∀ i, c.Followed root i → c.Settled i) ∧
    (root = none → ∀ i, c.Reachable root i → c.Settled i) ∧
    ((∀ i, c.Reachable root i → c.Settled i) ↔
      ∀ i, c.Reachable root i → (c.graph.node i).spurned = []) := by
  obtain ⟨A, q, hrest, hroot, hnone⟩ := atRest_of_milestone h
  obtain ⟨hfollowed, hiff⟩ := hrest.settled_iff hroot
  refine ⟨hfollowed, fun he i hi => ?_, hiff⟩
  refine hrest.whole.settled (hrest.visited_of_reachable hroot (fun j _ hj => ?_) hi)
  exact List.eq_nil_iff_forall_not_mem.2 fun a ha => hnone he a (hrest.spurned hj a ha)

/-- A document with an operation that takes a parameter and answers by a reference. -/
def petById : Document :=
  ⟨.obj [
    ("paths", .obj [("/pet", .obj [("get", .obj [
      ("parameters", .arr [.obj [("name", .str "id"), ("in", .str "query"),
        ("schema", .obj [("type", .str "string")])]]),
      ("responses", .obj [("200", .obj [("content", .obj [("application/json", .obj [
        ("schema", .obj [("$ref", .str "#/components/schemas/Pet")])])])])])])])]),
    ("components", .obj [("schemas", .obj [("Pet", .obj [("type", .str "object"),
      ("properties", .obj [("name", .obj [("type", .str "string")])])])])])]⟩

theorem complete_iff_petById :
    let c := after (visitAll petById {}) (start Oracle.always)
    visitAll petById {} (start Oracle.always) = .ok ⟨3⟩ c ∧
      c.Reachable (some ⟨3⟩) ⟨4⟩ ∧ (c.graph.node ⟨4⟩).spurned = [⟨5⟩] ∧ c.Settled ⟨4⟩ ∧
      ¬∀ i, c.Reachable (some ⟨3⟩) i → c.Settled i := by
  intro c
  have hrun : visitAll petById {} (start Oracle.always) = .ok ⟨3⟩ c :=
    eq_ok_of_toOption_outcome (by decide +kernel)
  have hlink : (⟨4⟩ : NodeId) ∈ (c.graph.node ⟨3⟩).followed := by decide +kernel
  have hspurned : (c.graph.node ⟨4⟩).spurned = [⟨5⟩] := by decide +kernel
  have hreach : c.Reachable (some ⟨3⟩) ⟨4⟩ :=
    ⟨⟨3⟩, .inl rfl, Relation.ReflTransGen.single (Node.mem_links_iff.2 (.inl hlink))⟩
  obtain ⟨hfollowed, -, hiff⟩ := complete_iff (.queried hrun)
  refine ⟨hrun, hreach, hspurned,
    hfollowed ⟨4⟩ ⟨⟨3⟩, .inl rfl, Relation.ReflTransGen.single hlink⟩, fun hall => ?_⟩
  have hnone := hiff.1 hall ⟨4⟩ hreach
  rw [hspurned] at hnone
  cases hnone

end Conversion

end ApiGraph
