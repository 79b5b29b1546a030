import ApiGraph.Proofs.Dialogue.Generation
import ApiGraph.Proofs.Selecting.Ways

/-!
# What a selection writes

The lines of a selection by the graph and by the nodes that the run is inside of, without the run.

* `Graph.Selects` — the lines that are written for a property, for a value, or for properties one by one;
* `Selecting.Written` — lines were written, and the run is inside the same nodes as before;
* `Selecting.writes_selectField`, `Selecting.writes_selectMembers`, … — one lemma for each step;
* `Selecting.writes_select` — a selection that succeeds writes such lines;
* `Graph.Selects.spares` — they are the same in a later graph.
-/

namespace ApiGraph

open OrderedMap Context

/-- What lines are written for. -/
inductive SelectionTask where
  /-- A property. -/
  | field (p : NodeId)
  /-- The type of a property, or what a choice stands for. -/
  | value (v : Option NodeId)
  /-- Properties one by one. -/
  | fields (ps : List NodeId)

/-- The nodes that selections go into: objects and compositions. -/
def Body.IsType (b : Body) : Prop := b = .object ∨ ∃ kind parts, b = .composed kind parts

/-- A property, whether its type is a reference or not. -/
def Body.IsField (b : Body) : Prop := ∃ slot arguments link, b = .property slot arguments link

/-- The lines that are written inside the nodes of a stack. -/
inductive Graph.Selects (g : Graph) :
    List (Option NodeId) → SelectionTask → List SelectionLine → Prop
  | leaf {stack : List (Option NodeId)} {p : NodeId} {name : String}
      (plain : g.IsPlain (g.node p).valueType?)
      (name_eq : Selecting.nameOf (g.node p) = .ok name) :
      g.Selects stack (.field p) [.leaf p stack.length name]
  /-- A property that leads back is left out. -/
  | skipped {stack : List (Option NodeId)} {p t : NodeId}
      (compound : g.IsCompound (g.node p).valueType?) (target : g.Targets (g.node p).valueType? t)
      (inside : some t ∈ stack) : g.Selects stack (.field p) []
  | braces {stack : List (Option NodeId)} {p t : NodeId} {name : String} {ls : List SelectionLine}
      (compound : g.IsCompound (g.node p).valueType?) (target : g.Targets (g.node p).valueType? t)
      (outside : some t ∉ stack) (name_eq : Selecting.nameOf (g.node p) = .ok name)
      (value : g.Selects stack (.value (g.node p).valueType?) ls) :
      g.Selects stack (.field p) (.opening p stack.length name :: (ls ++ [.closing p stack.length]))
  | property {stack : List (Option NodeId)} {value : Option NodeId} {p : NodeId}
      {ls : List SelectionLine} (target : g.Targets value p) (property : (g.node p).body.IsField)
      (field : g.Selects stack (.field p) ls) : g.Selects stack (.value value) ls
  /-- Nothing is written for a node that the run is inside of. -/
  | inside {stack : List (Option NodeId)} {value : Option NodeId} {i : NodeId}
      (target : g.Targets value i) (type : (g.node i).body.IsType) (inside : some i ∈ stack) :
      g.Selects stack (.value value) []
  | choice {stack : List (Option NodeId)} {value u : Option NodeId} {i : NodeId} {parts : Option Json}
      {ls : List SelectionLine} (target : g.Targets value i)
      (body : (g.node i).body = .composed .oneOf parts) (outside : some i ∉ stack)
      (union : g.unionOf i = .ok u) (variant : g.Selects (some i :: stack) (.value u) ls) :
      g.Selects stack (.value value) ls
  | members {stack : List (Option NodeId)} {value : Option NodeId} {i : NodeId}
      {ls : List SelectionLine} (target : g.Targets value i)
      (body : (g.node i).body = .object ∨ ∃ parts, (g.node i).body = .composed .allOf parts)
      (outside : some i ∉ stack)
      (fields : g.Selects (some i :: stack) (.fields (values (g.node i).props)) ls) :
      g.Selects stack (.value value) ls
  | nothing {stack : List (Option NodeId)} {value : Option NodeId} {i : NodeId}
      (target : g.Targets value i) (type : ¬(g.node i).body.IsType)
      (property : ¬(g.node i).body.IsField) : g.Selects stack (.value value) []
  | nil {stack : List (Option NodeId)} : g.Selects stack (.fields []) []
  | cons {stack : List (Option NodeId)} {p : NodeId} {ps : List NodeId} {ls more : List SelectionLine}
      (field : g.Selects stack (.field p) ls) (fields : g.Selects stack (.fields ps) more) :
      g.Selects stack (.fields (p :: ps)) (ls ++ more)

theorem Selecting.eq_of_nameOf {n : Node} {written : String} (h : nameOf n = .ok written) :
    ∃ s, n.name = .str s ∧ written = selectedName s := by
  rw [nameOf] at h
  split at h
  · next s hname => exact ⟨s, hname, (Except.ok.inj h).symm⟩
  · cases h

theorem Body.IsField.not_isType {b : Body} (h : b.IsField) : ¬b.IsType := by
  obtain ⟨slot, arguments, link, rfl⟩ := h
  rintro (h | ⟨kind, parts, h⟩) <;> cases h

/-- A property is selected as a field. -/
theorem Graph.Selects.field {g : Graph} {stack : List (Option NodeId)} {p : NodeId}
    {ls : List SelectionLine} (h : g.Selects stack (.value (some p)) ls)
    (hp : (g.node p).body.IsField) : g.Selects stack (.field p) ls := by
  have hself : g.Targets (some p) p := by
    obtain ⟨slot, arguments, link, hbody⟩ := hp
    exact targets_self (by rw [peeled?, hbody])
  have hnot := hp.not_isType
  cases h with
  | property target _ field =>
    cases target.unique hself
    exact field
  | inside target type _ =>
    cases target.unique hself
    exact absurd type hnot
  | choice target body _ _ _ =>
    cases target.unique hself
    exact absurd (.inr ⟨_, _, body⟩) hnot
  | members target body _ _ =>
    cases target.unique hself
    obtain hbody | ⟨parts, hbody⟩ := body
    · exact absurd (.inl hbody) hnot
    · exact absurd (.inr ⟨_, parts, hbody⟩) hnot
  | nothing target _ property =>
    cases target.unique hself
    exact absurd hp property

namespace Selecting

variable {α : Type} {A : NodeId → Prop} {c : Context} {s s' s'' : SelectionDraft} {i p : NodeId}
  {ls more : List SelectionLine} {select : Selector}

/-- Lines were written, and the run is inside the same nodes of the same graph. -/
structure Written (s s' : SelectionDraft) (ls : List SelectionLine) : Prop where
  graph : s'.context.graph = s.context.graph
  stack : s'.context.stack = s.context.stack
  lines : s'.lines = s.lines ++ ls

theorem Written.refl (s : SelectionDraft) : Written s s [] := ⟨rfl, rfl, (List.append_nil _).symm⟩

theorem Written.trans (h : Written s s' ls) (h' : Written s' s'' more) : Written s s'' (ls ++ more) :=
  ⟨h'.graph.trans h.graph, h'.stack.trans h.stack, by rw [h'.lines, h.lines, List.append_assoc]⟩

theorem written_write {line : SelectionLine} {u : Unit} (h : write line s = .ok u s') :
    Written s s' [line] := by
  cases h
  exact ⟨rfl, rfl, rfl⟩

theorem lines_of_run {step : Run α} {a : α} (h : run step s = .ok a s') : s'.lines = s.lines := by
  rw [run] at h
  cases hstep : step s.context with
  | error fault c =>
    rw [hstep] at h
    cases h
  | ok b c =>
    rw [hstep] at h
    cases h
    rfl

/-- A step of the run writes no line. -/
theorem written_run {step : Run α} {a : α} (hidle : Idle step) (hbalanced : Balanced step)
    (h : run step s = .ok a s') : Written s s' [] :=
  ⟨((roaming_run hidle).of_ok h).graph, hbalanced.of_ok (eq_ok_of_run h),
    (lines_of_run h).trans (List.append_nil _).symm⟩

theorem eq_ok_of_lift {a : Attempt α} {x : α} (h : lift a s = .ok x s') : a = .ok x ∧ s = s' := by
  cases a with
  | error fault => cases h
  | ok b =>
    cases h
    exact ⟨rfl, rfl⟩

/-- What is promised of the selections of values below: they write what the graph says. -/
def Writes (c : Context) (select : Selector) : Prop :=
  ∀ {s s' : SelectionDraft} {value : Option NodeId}, s.context.graph = c.graph →
    (∀ i, value = some i → c.Visited i) → select value s = .ok () s' →
      ∃ ls, c.graph.Selects s.context.stack (.value value) ls ∧ Written s s' ls

/-! ## Fields -/

theorem writes_selectField (hw : Whole A (fun _ => False) c) (hs : Writes c select)
    (hgraph : s.context.graph = c.graph) (hp : c.Visited p)
    (h : selectField select p (c.graph.node p) s = .ok () s') :
    ∃ ls, c.graph.Selects s.context.stack (.field p) ls ∧ Written s s' ls := by
  have hvalue : ∀ i, (c.graph.node p).valueType? = some i → c.Visited i := fun i hi =>
    hw.led_visited hp (Node.mem_followed_of_valueType? hi)
  obtain ⟨cs, s₁, hcontext, h⟩ := bind_eq_ok_iff.1 h
  cases hcontext
  obtain ⟨compound, s₁, hlift, h⟩ := bind_eq_ok_iff.1 h
  obtain ⟨hcompound, rfl⟩ := eq_ok_of_lift hlift
  rw [hgraph] at hcompound
  split at h
  · next htrue =>
    rw [htrue, Graph.isCompound_eq_true_iff] at hcompound
    obtain ⟨target, s₂, hlift, h⟩ := bind_eq_ok_iff.1 h
    obtain ⟨htarget, rfl⟩ := eq_ok_of_lift hlift
    split at h
    · cases h
    · next t =>
      rw [hgraph, Graph.selectionTarget_eq_iff] at htarget
      split at h
      · next hinside =>
        obtain ⟨words, s₃, hlift, h⟩ := bind_eq_ok_iff.1 h
        obtain ⟨-, rfl⟩ := eq_ok_of_lift hlift
        exact ⟨[], .skipped hcompound htarget (by simpa using hinside),
          written_run (Run.idle_log _ _ _) (Run.silent_log _ _ _).balanced h⟩
      · next houtside =>
        obtain ⟨name, s₃, hlift, h⟩ := bind_eq_ok_iff.1 h
        obtain ⟨hname, rfl⟩ := eq_ok_of_lift hlift
        obtain ⟨u, s₄, hopening, h⟩ := bind_eq_ok_iff.1 h
        obtain ⟨u', s₅, hselect, hclosing⟩ := bind_eq_ok_iff.1 h
        have hopened := written_write hopening
        obtain ⟨ls, hselects, hwritten⟩ := hs (hopened.graph.trans hgraph) hvalue hselect
        rw [hopened.stack] at hselects
        exact ⟨_, .braces hcompound htarget (by simpa using houtside) hname hselects,
          hopened.trans (hwritten.trans (written_write hclosing))⟩
  · next hfalse =>
    rw [Bool.eq_false_iff.2 hfalse] at hcompound
    have hplain := hw.isPlain_of_isCompound hvalue hcompound
    obtain ⟨name, s₃, hlift, h⟩ := bind_eq_ok_iff.1 h
    obtain ⟨hname, rfl⟩ := eq_ok_of_lift hlift
    exact ⟨_, .leaf hplain hname, written_write h⟩

/-- The properties of a node are selected one by one. -/
theorem writes_forM (hs : Writes c select) (hgraph : s.context.graph = c.graph) {ps : List NodeId}
    (hps : ∀ p ∈ ps, c.Visited p ∧ (c.graph.node p).body.IsField)
    (h : (ps.forM fun p => select (some p) : Selecting Unit) s = .ok () s') :
    ∃ ls, c.graph.Selects s.context.stack (.fields ps) ls ∧ Written s s' ls := by
  induction ps generalizing s with
  | nil =>
    cases h
    exact ⟨[], .nil, Written.refl _⟩
  | cons p ps ih =>
    obtain ⟨⟨hp, hfield⟩, hrest⟩ := List.forall_mem_cons.1 hps
    obtain ⟨u, s₁, hone, h⟩ := bind_eq_ok_iff.1 h
    obtain ⟨ls, hselects, hwritten⟩ := hs hgraph (fun i hi => Option.some.inj hi ▸ hp) hone
    obtain ⟨more, hmore, hwritten'⟩ := ih (hwritten.graph.trans hgraph) hrest h
    rw [hwritten.stack] at hmore
    exact ⟨ls ++ more, .cons (hselects.field hfield) hmore, hwritten.trans hwritten'⟩

/-! ## Types -/

/-- A step inside a node writes what it writes there. -/
theorem exists_of_within {step : Selecting α} {a : α} (h : within i step s = .ok a s') :
    ∃ t, step { s with context := s.context.enter (some i) } = .ok a t ∧
      ∀ ls, Written { s with context := s.context.enter (some i) } t ls → Written s s' ls := by
  rw [within] at h
  cases hstep : step { s with context := s.context.enter (some i) } with
  | error fault t =>
    rw [hstep] at h
    cases h
  | ok b t =>
    rw [hstep] at h
    cases h
    refine ⟨t, rfl, fun ls hwritten => ⟨?_, ?_, hwritten.lines⟩⟩
    · exact (still_leave t.context).graph.trans hwritten.graph
    · show t.context.leave.stack = _
      have hstack : t.context.stack = some i :: s.context.stack := hwritten.stack
      rw [Context.leave, hstack]

/-- The properties of a visited node were visited. -/
theorem field_of_props (hw : Whole A (fun _ => False) c) (hi : c.Visited i) :
    ∀ p ∈ values (c.graph.node i).props, c.Visited p ∧ (c.graph.node p).body.IsField := by
  intro p hp
  obtain ⟨e, he, rfl⟩ := List.mem_map.1 hp
  obtain ⟨name, -, -, hfield⟩ := hw.entries i (.inl hi) e he
  exact ⟨hw.visited_of_props hi he, hfield⟩

theorem writes_selectMembers (hw : Whole A (fun _ => False) c) (hs : Writes c select)
    (hgraph : s.context.graph = c.graph) (hi : c.Visited i) (htype : (c.graph.node i).body.IsType)
    {value : Option NodeId} (ht : c.graph.Targets value i)
    (h : selectMembers select i (c.graph.node i) s = .ok () s') :
    ∃ ls, c.graph.Selects s.context.stack (.value value) ls ∧ Written s s' ls := by
  obtain ⟨cs, s₁, hcontext, h⟩ := bind_eq_ok_iff.1 h
  cases hcontext
  split at h
  · next hinside =>
    obtain ⟨words, s₂, hlift, h⟩ := bind_eq_ok_iff.1 h
    obtain ⟨-, rfl⟩ := eq_ok_of_lift hlift
    exact ⟨[], .inside ht htype (by simpa using hinside),
      written_run (Run.idle_log _ _ _) (Run.silent_log _ _ _).balanced h⟩
  · next houtside =>
    have houtside : some i ∉ s.context.stack := by simpa using houtside
    obtain ⟨t, hstep, hwithin⟩ := exists_of_within h
    obtain ⟨u, s₂, hin, hstep⟩ := bind_eq_ok_iff.1 hstep
    have hin := written_run (Run.idle_trace _ _) (Run.silent_trace _ _).balanced hin
    have hgraph₂ : s₂.context.graph = c.graph := hin.graph.trans hgraph
    have hstack₂ : s₂.context.stack = some i :: s.context.stack := hin.stack
    have hout : ∀ {text : String} {s : SelectionDraft},
        run (Run.trace "<- [select]" text) s = .ok () t → Written s t [] := fun hout =>
      written_run (Run.idle_trace _ _) (Run.silent_trace _ _).balanced hout
    obtain ⟨parts, hbody⟩ | hbody : (∃ parts, (c.graph.node i).body = .composed .oneOf parts) ∨
        ((c.graph.node i).body = .object ∨ ∃ parts, (c.graph.node i).body = .composed .allOf parts) := by
      obtain hbody | ⟨_ | _, parts, hbody⟩ := htype
      · exact .inr (.inl hbody)
      · exact .inr (.inr ⟨parts, hbody⟩)
      · exact .inl ⟨parts, hbody⟩
    · simp only [hbody] at hstep
      obtain ⟨u', s₃, hlift, hstep⟩ := bind_eq_ok_iff.1 hstep
      obtain ⟨hunion, rfl⟩ := eq_ok_of_lift hlift
      rw [hgraph] at hunion
      obtain ⟨u'', s₄, hselect, hstep⟩ := bind_eq_ok_iff.1 hstep
      obtain ⟨ls, hselects, hwritten⟩ :=
        hs hgraph₂ (fun k hk => hw.visited_of_unionOf hi (hk ▸ hunion)) hselect
      rw [hstack₂] at hselects
      have hall := hin.trans (hwritten.trans (hout hstep))
      rw [List.nil_append, List.append_nil] at hall
      exact ⟨ls, .choice ht hbody houtside hunion hselects, hwithin ls hall⟩
    · obtain ⟨s₃, hselect, hstep⟩ : ∃ s₃,
          ((values (c.graph.node i).props).forM fun p => select (some p) : Selecting Unit) s₂ =
            .ok () s₃ ∧ Written s₃ t [] := by
        obtain hbody | ⟨parts, hbody⟩ := hbody <;> simp only [hbody] at hstep <;>
          obtain ⟨u', s₃, hselect, hstep⟩ := bind_eq_ok_iff.1 hstep <;>
          exact ⟨s₃, hselect, hout hstep⟩
      obtain ⟨ls, hselects, hwritten⟩ := writes_forM hs hgraph₂ (field_of_props hw hi) hselect
      rw [hstack₂] at hselects
      have hall := hin.trans (hwritten.trans hstep)
      rw [List.nil_append, List.append_nil] at hall
      exact ⟨ls, .members ht hbody houtside hselects, hwithin ls hall⟩

/-! ## Values -/

theorem writes_step (hw : Whole A (fun _ => False) c) (hs : Writes c select) : Writes c (step select) := by
  intro s s' value hgraph hvalue h
  obtain ⟨cs, s₁, hcontext, h⟩ := bind_eq_ok_iff.1 h
  cases hcontext
  obtain ⟨target, s₂, hlift, h⟩ := bind_eq_ok_iff.1 h
  obtain ⟨htarget, rfl⟩ := eq_ok_of_lift hlift
  rw [hgraph] at htarget
  split at h
  · cases h
  · next i =>
    rw [Graph.selectionTarget_eq_iff] at htarget
    have hi := hw.visited_of_targets hvalue htarget
    simp only [hgraph] at h
    by_cases hfield : (c.graph.node i).body.IsField
    · obtain ⟨slot, arguments, link, hbody⟩ := hfield
      simp only [hbody] at h
      obtain ⟨ls, hselects, hwritten⟩ := writes_selectField hw hs hgraph hi h
      exact ⟨ls, .property htarget ⟨slot, arguments, link, hbody⟩ hselects, hwritten⟩
    · by_cases htype : (c.graph.node i).body.IsType
      · refine writes_selectMembers hw hs hgraph hi htype htarget ?_
        obtain hbody | ⟨kind, parts, hbody⟩ := htype <;> simpa only [hbody] using h
      · refine ⟨[], .nothing htarget htype hfield, ?_⟩
        rcases hbody : (c.graph.node i).body with _ | _ | _ | _ | _ | _ | _ | _ | _ <;>
          simp [hbody, Body.IsField, Body.IsType] at h hfield htype <;> cases h <;> exact Written.refl _

theorem writes_selectWithin (hw : Whole A (fun _ => False) c) (depth : Nat) :
    Writes c (selectWithin depth) := by
  induction depth with
  | zero =>
    intro s s' value _ _ h
    cases h
  | succ depth ih => exact writes_step hw ih

/-- A selection that succeeds writes what the graph says. -/
theorem writes_select (hw : Whole A (fun _ => False) c) : Writes c Selecting.select := by
  intro s s' value hgraph hvalue h
  exact writes_selectWithin hw _ hgraph hvalue h

end Selecting

/-! ## Later graphs -/

/-- Lines are written for visited nodes. -/
def SelectionTask.Visited (c : Context) : SelectionTask → Prop
  | .field p => c.Visited p
  | .value v => ∀ i, v = some i → c.Visited i
  | .fields ps => ∀ p ∈ ps, c.Visited p

/-- In a later graph the same lines are written. -/
theorem Graph.Selects.spares {A : NodeId → Prop} {c : Context} {g : Graph}
    (hw : Whole A (fun _ => False) c) (hg : c.Spares g) {stack : List (Option NodeId)}
    {task : SelectionTask} {ls : List SelectionLine} (h : c.graph.Selects stack task ls)
    (htask : task.Visited c) : g.Selects stack task ls := by
  have hvalueType : ∀ {p}, c.Visited p → ∀ i, (c.graph.node p).valueType? = some i → c.Visited i :=
    fun hp i hi => hw.led_visited hp (Node.mem_followed_of_valueType? hi)
  induction h with
  | @leaf stack p name plain name_eq =>
    have hp : c.Visited p := htask
    rw [← hg p hp] at name_eq
    exact .leaf (by rw [hg p hp]; exact hg.isPlain hw (hvalueType hp) plain) name_eq
  | @skipped stack p t compound target inside =>
    have hp : c.Visited p := htask
    have hvalue := hvalueType hp
    rw [← hg.isCompound_iff hw hvalue, ← hg p hp] at compound
    exact .skipped compound (by rw [hg p hp]; exact hg.targets hw hvalue target) inside
  | @braces stack p t name ls compound target outside name_eq _ ih =>
    have hp : c.Visited p := htask
    have hvalue := hvalueType hp
    have htarget := hg.targets hw hvalue target
    have hfields := ih hvalue
    rw [← hg.isCompound_iff hw hvalue] at compound
    rw [← hg p hp] at compound name_eq htarget hfields
    exact .braces compound htarget outside name_eq hfields
  | @property stack value p ls target property _ ih =>
    have hp : c.Visited p := hw.visited_of_targets htask target
    exact .property (hg.targets hw htask target) (by rwa [hg p hp]) (ih hp)
  | @inside stack value i target type inside =>
    have hi : c.Visited i := hw.visited_of_targets htask target
    exact .inside (hg.targets hw htask target) (by rwa [hg i hi]) inside
  | @choice stack value u i parts ls target body outside union _ ih =>
    have hi : c.Visited i := hw.visited_of_targets htask target
    refine .choice (hg.targets hw htask target) (by rw [hg i hi]; exact body) outside ?_ (ih ?_)
    · rw [hg.unionOf hi]
      exact union
    · rintro k rfl
      exact hw.visited_of_unionOf hi union
  | @members stack value i ls target body outside _ ih =>
    have hi : c.Visited i := hw.visited_of_targets htask target
    have hfields := ih fun p hp => (Selecting.field_of_props hw hi p hp).1
    rw [← hg i hi] at body hfields
    exact .members (hg.targets hw htask target) body outside hfields
  | @nothing stack value i target type property =>
    have hi : c.Visited i := hw.visited_of_targets htask target
    exact .nothing (hg.targets hw htask target) (by rwa [hg i hi]) (by rwa [hg i hi])
  | nil => exact .nil
  | cons _ _ ih ih' =>
    obtain ⟨hp, hps⟩ := List.forall_mem_cons.1 htask
    exact .cons (ih hp) (ih' hps)

end ApiGraph
