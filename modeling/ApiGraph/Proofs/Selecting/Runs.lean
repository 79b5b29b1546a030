import ApiGraph.Proofs.Depicting.Operations
import ApiGraph.Proofs.Selecting.Walk

/-!
# The lines of a run

A run visits one operation after the other and writes its selection right after the visit. Later visits
spare what was visited, so that in the end all lines are what the graph says.

* `Selecting.Progress` — between two operations, the lines so far are the selections of some fields;
* `Selecting.Progress.selectOperation` — so they are after one more operation;
* `Conversion.selects_selection` — the lines of a run.
-/

namespace ApiGraph

open OrderedMap Context

variable {α : Type} {d : Document} {query i : NodeId} {s s' : SelectionDraft} {fields : List NodeId}

theorem Graph.Selects.append {g : Graph} {stack : List (Option NodeId)} {ps qs : List NodeId}
    {ls more : List SelectionLine} (h : g.Selects stack (.fields ps) ls)
    (h' : g.Selects stack (.fields qs) more) : g.Selects stack (.fields (ps ++ qs)) (ls ++ more) := by
  induction ps generalizing ls with
  | nil =>
    cases h
    exact h'
  | cons p ps ih =>
    cases h with
    | cons hfield hfields =>
      rw [List.cons_append, List.append_assoc]
      exact .cons hfield (ih hfields)

namespace Selecting

/-- Between two operations: the lines are the selections of visited fields. -/
structure Progress (d : Document) (query : NodeId) (s : SelectionDraft) (fields : List NodeId) :
    Prop where
  rest : ∃ A, s.context.AtRest A d (some query)
  query : ¬s.context.Visited query
  stack : s.context.stack = []
  visited : ∀ p ∈ fields, s.context.Visited p
  lines : s.context.graph.Selects [] (.fields fields) s.lines

namespace Progress

/-- A step that visits nothing and writes nothing. -/
theorem run {step : Run α} {a : α} (h : Progress d query s fields) (hidle : Idle step)
    (hbalanced : Balanced step) (hrun : Selecting.run step s = .ok a s') :
    Progress d query s' fields := by
  obtain ⟨A, hrest⟩ := h.rest
  have hroams := (roaming_run hidle).of_ok hrun
  refine ⟨⟨A, hrest.roams hroams⟩, ?_, (hbalanced.of_ok (eq_ok_of_run hrun)).trans h.stack, ?_, ?_⟩
  · rw [Visited, hroams.graph]
    exact h.query
  · intro p hp
    rw [Visited, hroams.graph]
    exact h.visited p hp
  · rw [hroams.graph, lines_of_run hrun]
    exact h.lines

/-- The visit of one more operation. -/
theorem visit {op : Operation} (h : Progress d query s fields)
    (hvisit : Selecting.run (Conversion.visitOperation d query op) s = .ok i s') :
    Progress d query s' fields ∧ s'.context.Visited i ∧ (s'.context.graph.node i).body.IsField ∧
      s.context.Spares s'.context.graph := by
  obtain ⟨A, hrest⟩ := h.rest
  obtain ⟨B, hrest', hquery, hi, hspares, name, hprop⟩ :=
    hrest.visitOperation h.query (eq_ok_of_run hvisit)
  have hstack := (Conversion.isDialogue_visitOperation d query op).1.of_ok (eq_ok_of_run hvisit)
  refine ⟨⟨⟨B, hrest'⟩, hquery, hstack.trans h.stack, fun p hp => ?_, ?_⟩, hi, hprop.2, hspares⟩
  · have hp := h.visited p hp
    rw [Visited, hspares p hp]
    exact hp
  · rw [lines_of_run hvisit]
    exact h.lines.spares hrest.whole hspares h.visited

/-- The selection of a field that was visited. -/
theorem select (h : Progress d query s fields) (hi : s.context.Visited i)
    (hfield : (s.context.graph.node i).body.IsField)
    (hselect : Selecting.select (some i) s = .ok () s') : Progress d query s' (fields ++ [i]) := by
  obtain ⟨A, hrest⟩ := h.rest
  have hroams := (roaming_select _).of_ok hselect
  obtain ⟨ls, hselects, hwritten⟩ :=
    writes_select hrest.whole rfl (fun j hj => Option.some.inj hj ▸ hi) hselect
  rw [h.stack] at hselects
  refine ⟨⟨A, hrest.roams hroams⟩, ?_, hwritten.stack.trans h.stack, fun p hp => ?_, ?_⟩
  · rw [Visited, hroams.graph]
    exact h.query
  · rw [Visited, hroams.graph]
    rcases List.mem_append.1 hp with hp | hp
    · exact h.visited p hp
    · exact List.mem_singleton.1 hp ▸ hi
  · have hone := Graph.Selects.cons (hselects.field hfield) Graph.Selects.nil
    rw [List.append_nil] at hone
    rw [hroams.graph, hwritten.lines]
    exact h.lines.append hone

/-- An operation adds its field, if it is wanted. What was visited before stays as it is. -/
theorem selectOperation {op : Operation} (h : Progress d query s fields)
    (hselect : Conversion.selectOperation d query op s = .ok () s') :
    s.context.Spares s'.context.graph ∧
    ∃ wanted s₁, Selecting.run (Run.askYesNo ("Visit path " ++ op.text ++ "?")) s = .ok wanted s₁ ∧
      ((wanted = true ∧ ∃ i, s'.context.graph.Serves op i ∧ Progress d query s' (fields ++ [i])) ∨
        (wanted = false ∧ Progress d query s' fields)) := by
  obtain ⟨wanted, s₁, hask, hselect⟩ := bind_eq_ok_iff.1 hselect
  have h₁ := h.run (Run.idle_askYesNo _) (Run.isDialogue_askYesNo _).1 hask
  have hgraph₁ := ((roaming_run (Run.idle_askYesNo _)).of_ok hask).graph
  cases wanted with
  | true =>
    obtain ⟨u, s₂, hlog, hselect⟩ := bind_eq_ok_iff.1 hselect
    obtain ⟨field, s₃, hvisit, hselect⟩ := bind_eq_ok_iff.1 hselect
    have h₂ := h₁.run (Run.idle_log _ _ _) (Run.silent_log _ _ _).balanced hlog
    have hgraph₂ := ((roaming_run (Run.idle_log _ _ _)).of_ok hlog).graph.trans hgraph₁
    obtain ⟨h₃, hi, hfield, hspares⟩ := h₂.visit hvisit
    obtain ⟨A, hrest⟩ := h₂.rest
    have hserves := Conversion.serves_visitOperation hrest h₂.query (eq_ok_of_run hvisit)
    have hgraph₃ := ((roaming_select _).of_ok hselect).graph
    rw [← hgraph₃] at hserves
    refine ⟨fun j hj => ?_, true, s₁, hask, .inl ⟨rfl, field, hserves, h₃.select hi hfield hselect⟩⟩
    rw [Visited, ← hgraph₂] at hj
    rw [hgraph₃, hspares j hj, hgraph₂]
  | false =>
    have hgraph₂ := ((roaming_run (Run.idle_log _ _ _)).of_ok hselect).graph
    refine ⟨fun j _ => by rw [hgraph₂, hgraph₁], false, s₁, hask, .inr ⟨rfl, ?_⟩⟩
    exact h₁.run (Run.idle_log _ _ _) (Run.silent_log _ _ _).balanced hselect

theorem selectEach {operations : List Operation} (h : Progress d query s fields)
    (hselect : operations.forM (Conversion.selectOperation d query) s = .ok () s') :
    ∃ fields', Progress d query s' fields' := by
  induction operations generalizing s fields with
  | nil =>
    cases hselect
    exact ⟨fields, h⟩
  | cons op rest ih =>
    obtain ⟨u, s₁, hop, hrest⟩ := bind_eq_ok_iff.1 hselect
    obtain ⟨-, wanted, s₂, -, ⟨-, i, -, h₁⟩ | ⟨-, h₁⟩⟩ := h.selectOperation hop
    · exact ih h₁ hrest
    · exact ih h₁ hrest

end Progress

end Selecting

/-- Before the first operation nothing is written. -/
theorem Conversion.progress_newQuery {config : Config} {oracle : Oracle} {c : Context}
    (hnew : newQuery config (start oracle) = .ok query c) :
    Selecting.Progress d query { context := c } [] := by
  have hrooted := (atRest_start d oracle).newQuery hnew
  have hquery : ¬c.Visited query := by
    rw [Visited, hrooted.budding.sprout.bud.unvisited]
    exact Bool.false_ne_true
  exact ⟨⟨_, hrooted.rest⟩, hquery, (Run.silent_alloc _).balanced.of_ok hnew, by simp, .nil⟩

/-- The operations of a run are selected one after the other. -/
theorem Conversion.exists_selectEach {config : Config} {oracle : Oracle} {lines : List SelectionLine}
    {c : Context} (h : selection d config (start oracle) = .ok lines c) :
    ∃ query c₀ operations s, newQuery config (start oracle) = .ok query c₀ ∧
      wantedOperations d config = .ok operations ∧
      (operations.forM (selectOperation d query) : Selecting Unit) { context := c₀ } = .ok () s ∧
      s.lines = lines ∧ s.context = c := by
  obtain ⟨query, c₀, hnew, h⟩ := bind_eq_ok_iff.1 h
  obtain ⟨operations, c₁, hlift, h⟩ := bind_eq_ok_iff.1 h
  obtain ⟨hwanted, rfl⟩ := Visit.eq_ok_of_lift hlift
  refine ⟨query, c₀, operations, ?_⟩
  rw [selecting] at h
  cases heach : (operations.forM (selectOperation d query) : Selecting Unit) { context := c₀ } with
  | error fault s =>
    rw [heach] at h
    cases h
  | ok u s =>
    rw [heach] at h
    cases h
    exact ⟨s, hnew, hwanted, rfl, rfl, rfl⟩

/-- The lines of a run are what the graph says of some fields, outside of all nodes. -/
theorem Conversion.selects_selection {config : Config} {oracle : Oracle} {lines : List SelectionLine}
    {c : Context} (h : selection d config (start oracle) = .ok lines c) :
    ∃ fields, c.graph.Selects [] (.fields fields) lines := by
  obtain ⟨query, c₀, operations, s, hnew, -, heach, rfl, rfl⟩ := exists_selectEach h
  obtain ⟨fields, hend⟩ := (progress_newQuery hnew).selectEach heach
  exact ⟨fields, hend.lines⟩

end ApiGraph
