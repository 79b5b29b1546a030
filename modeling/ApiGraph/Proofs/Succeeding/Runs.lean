import ApiGraph.Proofs.Declaring.Clashes
import ApiGraph.Proofs.Succeeding.Drafts
import ApiGraph.Proofs.Succeeding.Selections

/-!
# What is generated once all was visited

After all visits there is one thing only that definitions can fail at, as long as no value is unwrapped for
ever: an argument that no visit has gone to, whose type leads to a choice without a shape. Nothing can go
wrong with a selection.

* `Drafting.not_stuck_of_definitions` — no argument that was written leads to such a choice;
* `Context.Finished.passable` — all other arguments can be written;
* `Conversion.passable_arguments` — so it is with the fields of operations;
* `Conversion.generated_iff` — when definitions and selections are generated.
-/

namespace ApiGraph

open OrderedMap Context

/-! ## Arguments that were written -/

namespace Drafting

variable {α β : Type} {config : Config} {g : Graph} {D D' : Draft} {a p q : NodeId}

/-- Each of the steps was taken with the same graph. -/
theorem exists_of_mapM {f : α → Drafting β} {xs : List α} {ys : List β}
    (hf : ∀ x D y D', f x D = .ok y D' → D'.context.graph = D.context.graph)
    (h : xs.mapM f D = .ok ys D') {x : α} (hx : x ∈ xs) :
    ∃ D₁ y D₂, D₁.context.graph = D.context.graph ∧ f x D₁ = .ok y D₂ := by
  induction xs generalizing D D' ys with
  | nil => cases hx
  | cons x' xs ih =>
    rw [List.mapM_cons] at h
    obtain ⟨y, D₁, hone, h⟩ := bind_eq_ok_iff.1 h
    obtain ⟨others, D₂, hothers, -⟩ := bind_eq_ok_iff.1 h
    rcases List.mem_cons.1 hx with rfl | hx
    · exact ⟨D, y, D₁, rfl, hone⟩
    · obtain ⟨E, z, E', hE, hz⟩ := ih hothers hx
      exact ⟨E, z, E', hE.trans (hf _ _ _ _ hone), hz⟩

/-- A value with fields is not stuck. -/
theorem not_stuck_of_isCompound {value : Option NodeId} (h : g.isCompound value = .ok true) :
    ¬g.Stuck value := by
  obtain ⟨t, hunwraps, hfields⟩ := Graph.isCompound_eq_true_iff.1 h
  obtain ⟨n, hway⟩ := hunwraps.expresses hfields
  rintro ⟨t', ⟨m, hway'⟩, hchoice⟩
  obtain ⟨-, rfl⟩ := hway.unique hway'
  rcases Graph.body_of_hasFields hfields with hbody | ⟨parts, hbody⟩ <;>
    simp [Body.isChoice, hbody] at hchoice

theorem not_stuck_of_argument {written : Argument} (h : argument config a D = .ok written D') :
    ¬D.context.graph.Stuck (D.context.graph.node a).type?.join := by
  obtain ⟨n, D₁, hn, h⟩ := bind_eq_ok_iff.1 h
  cases hn
  obtain ⟨type, D₂, hlift, h⟩ := bind_eq_ok_iff.1 h
  obtain ⟨htype, rfl⟩ := eq_ok_of_lift hlift
  obtain ⟨e, D₃, hwrite, -⟩ := bind_eq_ok_iff.1 h
  rw [eq_some_of_expect htype, Option.join_some]
  obtain ⟨g, D₄, hg, hwrite⟩ := bind_eq_ok_iff.1 hwrite
  cases hg
  obtain ⟨b, D₅, hlift, hwrite⟩ := bind_eq_ok_iff.1 hwrite
  obtain ⟨hcompound, rfl⟩ := eq_ok_of_lift hlift
  cases b with
  | true => exact not_stuck_of_isCompound hcompound
  | false => exact not_stuck_of_typeExpr hwrite

/-- No argument of a field of the query type is stuck. -/
theorem not_stuck_of_definitions {roots : List NodeId} {defs : Definitions}
    (h : definitions config roots (some q) D = .ok defs D') (hgraph : D.context.graph = g)
    (hp : p ∈ values (g.node q).props) (ha : some a ∈ (g.node p).arguments) :
    ¬g.Stuck (g.node a).type?.join := by
  have hprops : (g.node q).props ≠ [] := by
    intro hnil
    rw [hnil] at hp
    cases hp
  obtain ⟨E, E', hE, hwrite, -⟩ := exists_writeType_of_definitions h hgraph hprops
  obtain ⟨fields, D₁, hfields, -⟩ := bind_eq_ok_iff.1 hwrite
  obtain ⟨D₂, f, D₃, hD₂, hfield⟩ :=
    exists_of_mapM (fun _ _ _ _ hone => (declared_field hone).2.2.1.graph) hfields hp
  obtain ⟨slot, arguments, link, ownerName, words, s, D₄, written, D₅, e, hbody, -, hinline, -,
    harguments, -, -⟩ := field_cases hfield
  have hD₄ : D₄.context.graph = g := (gives_nameInline hinline).keeps.graph.trans (hD₂.trans hE)
  rw [hD₂.trans hE] at hbody
  rw [Node.arguments, hbody] at ha
  obtain ⟨D₆, x, D₇, hD₆, hargument⟩ := exists_of_mapM (fun x D y D' hone =>
    (((quiet_lift (expect x)).bind fun k => quiet_argument config k).of_ok hone).graph) harguments ha
  obtain ⟨k, D₈, hlift, hargument⟩ := bind_eq_ok_iff.1 hargument
  obtain ⟨hexpect, rfl⟩ := eq_ok_of_lift hlift
  obtain rfl : a = k := Option.some.inj (eq_some_of_expect hexpect)
  have hnot := not_stuck_of_argument hargument
  rwa [hD₆.trans hD₄] at hnot

end Drafting

/-! ## Arguments that can be written -/

namespace Context.Finished

variable {d : Document} {query a t : NodeId} {c : Context}

/-- A node below an argument that no visit has gone to is no visited one. -/
theorem nameable_of_sprout (h : c.Finished d query) {i : NodeId} {top : Nat} (hi : Sprout c.graph i top)
    (hfields : c.graph.hasFields i = true) : (c.graph.node i).Nameable := by
  refine h.nameable ?_ (Graph.slot?_of_hasFields hfields)
  rintro rfl
  have hvisited : (c.graph.node i).visited = true := h.visited
  rw [hi.bud.unvisited] at hvisited
  cases hvisited

/-- An argument can be written if its type was visited, or if it leads to no choice without a shape. -/
theorem passable (h : c.Finished d query) (hends : ∀ i, ¬c.graph.Endless i)
    (hname : ∃ s, (c.graph.node a).name = .str s) {slot : Slot}
    (hbody : (c.graph.node a).body = .parameter slot) (hslot : slot.type = some t)
    (ht : c.Visited t ∧ t ≠ query ∨ (∃ top, Sprout c.graph t top) ∧ ¬c.graph.Stuck (some t)) :
    c.graph.Passable a := by
  have hslot? : (c.graph.node a).slot? = some slot := by rw [Node.slot?, hbody]
  have htype : (c.graph.node a).type?.join = some t := by
    rw [Node.type?, hslot?]
    exact hslot
  refine ⟨hname, ⟨slot, hslot?⟩, ?_, ?_⟩ <;> rw [htype]
  · rcases ht with ⟨hvisited, -⟩ | ⟨⟨top, hsprout⟩, hnot⟩
    · obtain ⟨A, hw, -⟩ := h.whole
      obtain ⟨t', hunwraps, -, hplain⟩ := hw.exists_unwraps hvisited (hends t)
      exact Graph.exists_isCompound_of_unwraps hunwraps hplain
    · exact Graph.exists_isCompoundWithin_of_sprout hsprout hnot (by omega)
  · rcases ht with hvisited | hsprout
    · refine ⟨_, h.speakable, ?_⟩
      rintro i ⟨⟩
      exact hvisited
    · refine ⟨_, Graph.speakable_sprout fun i top => h.nameable_of_sprout, ?_⟩
      rintro i ⟨⟩
      exact hsprout

end Context.Finished

namespace Conversion

open Drafting

variable {d : Document} {config : Config} {oracle : Oracle} {query : NodeId} {c : Context}
  {ops : List Operation}

/-- All arguments of visited fields can be written, if those that no visit went to lead to no choice
without a shape. -/
theorem passable_arguments (hops : wantedOperations d config = .ok ops)
    (hnames : ∀ op ∈ ops, ∀ p ∈ op.listedParameters, ∃ s, get? "name" p = some (.str s))
    (hvisit : visitAll d config (start oracle) = .ok query c) (hends : ∀ i, ¬c.graph.Endless i)
    (hfree : ∀ p ∈ values (c.graph.node query).props, ∀ a ∈ (c.graph.node p).spurned,
      ¬c.graph.Stuck (c.graph.node a).type?.join) {p : NodeId} (hp : c.Visited p) :
    ∀ a ∈ (c.graph.node p).arguments, ∃ k, a = some k ∧ c.graph.Passable k := by
  intro a ha
  have hfinished := finished_visitAll hvisit
  have hmem : p ∈ values (c.graph.node query).props := by
    refine (arguments_eq_nil_or_mem hvisit hp).resolve_left fun hnil => ?_
    rw [hnil] at ha
    cases ha
  obtain ⟨op, hop, hserves⟩ := ((tidy_visitAll hops hvisit).2 p).resolve_left fun hnil => by
    rw [hnil] at ha
    cases ha
  obtain ⟨slot, arguments, link, hbody, -, htakes⟩ := hserves.offers.body
  rw [Node.arguments, hbody] at ha
  obtain ⟨k, hk, rfl⟩ := List.mem_map.1 ha
  obtain ⟨parameter, hparameter, hname, t, s, hargument, -⟩ := exists_of_forall₂_left htakes.flip hk
  obtain ⟨name, hwritten⟩ := hnames op hop parameter hparameter
  have hnamed : (c.graph.node k).name = .str name := Option.some.inj (hname.symm.trans hwritten)
  have htype : (c.graph.node k).type?.join = some t := by simp [Node.type?, Node.slot?, hargument]
  refine ⟨k, rfl, hfinished.passable hends ⟨name, hnamed⟩ hargument rfl ?_⟩
  cases link with
  | none =>
    -- the argument was visited along with the field
    have hvisited := (hfinished.led hp (k := k) (by simp [Node.followed, Node.arguments, Body.link?, hbody, hk])).1
    exact .inl (hfinished.led hvisited (by simp [Node.followed, htype]))
  | some link =>
    obtain ⟨A, hw, hsprigs⟩ := hfinished.whole
    have hA := (hw.plain p (.inl hp) slot _ link hbody).2 k ha
    obtain ⟨-, -, top, ⟨ends, -, -, -, -, -, sprouts⟩⟩ := hsprigs k hA
    have hspurned : k ∈ (c.graph.node p).spurned :=
      Node.mem_spurned_iff.2 ⟨slot, _, link, hbody, ha⟩
    refine .inr ⟨⟨ends t, sprouts t (by simp [Node.below, hargument])⟩, ?_⟩
    rw [← htype]
    exact hfree p hmem k hspurned

/-! ## Runs -/

/-- What is stored is there. -/
theorem exists_roots (hvisit : visitAll d config (start oracle) = .ok query c) :
    (values c.types).mapM expect = .ok c.roots := by
  obtain ⟨roots, hroots⟩ : ∃ roots, (values c.types).mapM expect = .ok roots := by
    refine Attempt.exists_mapM_eq_ok fun found hfound => ?_
    obtain ⟨e, he, rfl⟩ := List.mem_map.1 hfound
    obtain ⟨ref, i, -, -, hi⟩ := (finished_visitAll hvisit).sound.exists_some he
    exact ⟨i, by rw [hi]; rfl⟩
  rw [hroots]
  exact congrArg Except.ok (filterMap_id_of_mapM_expect hroots).symm

/-- Definitions are given out as soon as they are drafted. -/
theorem run_of_definitions (hvisit : visitAll d config (start oracle) = .ok query c) {defs : Definitions}
    {D : Draft} (h : Drafting.definitions config c.roots (some query) { context := c } = .ok defs D) :
    run .definitions d config (start oracle) = .ok (defs.render config) D.context := by
  have hdraft : drafting (Drafting.definitions config c.roots (some query)) c = .ok defs D.context := by
    rw [drafting, h]
  have hroots : (Run.lift ((values c.types).mapM expect) : Run (List NodeId)) c = .ok c.roots c := by
    rw [exists_roots hvisit]
    rfl
  have hdefs : definitions d config (start oracle) = .ok defs D.context := by
    rw [definitions, bind_of_ok hvisit, bind_of_ok (m := get) rfl, bind_of_ok hroots]
    exact hdraft
  show (definitions d config >>= fun defs => pure (defs.render config)) (start oracle) = _
  rw [bind_of_ok hdefs]
  rfl

theorem exists_definitions_of_run {text : String} {c' : Context}
    (h : run .definitions d config (start oracle) = .ok text c') :
    ∃ defs, definitions d config (start oracle) = .ok defs c' := by
  obtain ⟨defs, c₁, hdefs, hpure⟩ := bind_eq_ok_iff.1 h
  cases hpure
  exact ⟨defs, hdefs⟩

/-- What is generated when the names of parameters are texts, and no value is unwrapped for ever. Once all
schemas are resolved and the query object is visited, the definitions are written just if no argument of
a field whose type is a reference leads to a choice, which no visit has given a shape. Right after any
call from outside of a visit, a selection of what visits lead to is written, from inside of any nodes. -/
theorem generated_iff (hconfig : config.Typed)
    (hnames : ∀ ops, wantedOperations d config = .ok ops → ∀ op ∈ ops, ∀ p ∈ op.listedParameters,
      ∃ s, get? "name" p = some (.str s)) :
    (∀ query c, visitAll d config (start oracle) = .ok query c → (∀ i, ¬c.graph.Endless i) →
      ((∃ text c', run .definitions d config (start oracle) = .ok text c') ↔
        ∀ p ∈ values (c.graph.node query).props, ∀ a ∈ (c.graph.node p).spurned,
          ¬c.graph.Stuck (c.graph.node a).type?.join)) ∧
    ∀ root c, Milestone d config oracle root c → (∀ i, ¬c.graph.Endless i) →
      ∀ i, c.Followed root i → ∀ s : SelectionDraft, s.context.graph = c.graph →
        ∃ s', Selecting.select (some i) s = .ok () s' := by
  refine ⟨fun query c hvisit hends => ⟨?_, fun hfree => ?_⟩, fun root c hmilestone hends i hi s hs => ?_⟩
  · rintro ⟨text, c', hrun⟩ p hp a ha
    obtain ⟨defs, hdefs⟩ := exists_definitions_of_run hrun
    obtain ⟨query', c₁, D, hvisit', -, hdraft, -⟩ := exists_draft_of_definitions hdefs
    cases hvisit.symm.trans hvisit'
    obtain ⟨slot, arguments, link, hbody, ha⟩ := Node.mem_spurned_iff.1 ha
    exact not_stuck_of_definitions hdraft rfl hp (by rwa [Node.arguments, hbody])
  · obtain ⟨-, ops, -, -, -, hops, -⟩ := steps_of_visitAll hvisit
    have hargs := fun p (hp : c.Visited p) =>
      passable_arguments hops (hnames ops hops) hvisit hends hfree hp
    obtain ⟨defs, D, hdraft, -⟩ := completes_definitions (finished_visitAll hvisit) hends hconfig hargs
      (D := { context := c }) ⟨rfl, nofun⟩
    exact ⟨_, _, run_of_definitions hvisit hdraft⟩
  · obtain ⟨A, q, hrest, hroot, -⟩ := atRest_of_milestone hmilestone
    exact hrest.exists_select (tidy_of_milestone hmilestone) hends (hrest.visited_of_followed hroot hi) hs

/-- A document with an operation that answers by a reference and takes a parameter of a choice. -/
def coloredPet : Document :=
  ⟨.obj [
    ("paths", .obj [("/pets", .obj [("get", .obj [
      ("operationId", .str "findPet"),
      ("parameters", .arr [.obj [("name", .str "color"), ("in", .str "query"),
        ("schema", .obj [("oneOf", .arr [.obj [("type", .str "string")]])])]]),
      ("responses", .obj [("200", .obj [("content", .obj [("application/json", .obj [
        ("schema", .obj [("$ref", .str "#/components/schemas/Pet")])])])])])])])]),
    ("components", .obj [("schemas", .obj [("Pet", .obj [("type", .str "object"),
      ("properties", .obj [("name", .obj [("type", .str "string")])])])])])]⟩

theorem generated_iff_coloredPet :
    let c := after (visitAll coloredPet {}) (start Oracle.always)
    Config.Typed {} ∧
      (∀ ops, wantedOperations coloredPet {} = .ok ops → ∀ op ∈ ops, ∀ p ∈ op.listedParameters,
        ∃ s, get? "name" p = some (.str s)) ∧
      visitAll coloredPet {} (start Oracle.always) = .ok ⟨3⟩ c ∧ (∀ i, ¬c.graph.Endless i) ∧
      (¬∃ text c', run .definitions coloredPet {} (start Oracle.always) = .ok text c') ∧
      ∃ s', Selecting.select (some ⟨3⟩) { context := c } = .ok () s' := by
  intro c
  have hnames : ∀ ops, wantedOperations coloredPet {} = .ok ops → ∀ op ∈ ops,
      ∀ p ∈ op.listedParameters, ∃ s, get? "name" p = some (.str s) := by
    intro ops hops op hop p hp
    have hall : (wantedOperations coloredPet {}).toOption.map (fun ops => ops.all fun op =>
        op.listedParameters.all fun p => (get? "name" p).any (Json.isText "color")) = some true := by
      decide +kernel
    rw [hops] at hall
    have hname := List.all_eq_true.1 (List.all_eq_true.1 (Option.some.inj hall) op hop) p hp
    obtain ⟨v, hv, htext⟩ := (Option.any_eq_true _ _).1 hname
    cases v <;> first | exact ⟨_, hv⟩ | cases htext
  have hvisit : visitAll coloredPet {} (start Oracle.always) = .ok ⟨3⟩ c :=
    eq_ok_of_toOption_outcome (by decide +kernel)
  have hnone : ∀ j < c.graph.size, c.graph.inner? ⟨j⟩ = none := by decide +kernel
  have hends : ∀ i, ¬c.graph.Endless i := Graph.not_endless_of_rank (fun _ => 0) fun j k hk => by
    rw [hnone j.index (Graph.lt_size_of_inner? hk)] at hk
    cases hk
  obtain ⟨hiff, hselect⟩ := @generated_iff coloredPet {} Oracle.always Config.typed_usual hnames
  refine ⟨Config.typed_usual, hnames, hvisit, hends, fun hgenerated => ?_,
    hselect _ c (.queried hvisit) hends ⟨3⟩ ⟨⟨3⟩, .inl rfl, .refl⟩ _ rfl⟩
  have hfree := (hiff ⟨3⟩ c hvisit hends).1 hgenerated ⟨4⟩ (by decide +kernel) ⟨5⟩ (by decide +kernel)
  have htype : (c.graph.node ⟨5⟩).type?.join = some ⟨6⟩ := by decide +kernel
  have hchoice : (c.graph.node ⟨6⟩).body.isChoice = true := by decide +kernel
  have hshape : c.graph.spoken? ⟨6⟩ = none := by decide +kernel
  rw [htype] at hfree
  exact hfree ⟨⟨6⟩, (Graph.expresses_of_spoken?_eq_none hshape).2 rfl, hchoice⟩

end Conversion

end ApiGraph
