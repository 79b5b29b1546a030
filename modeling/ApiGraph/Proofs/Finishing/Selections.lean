import ApiGraph.Proofs.Finishing.Operations

/-!
# Selections between visits

A selection goes through a visited graph and changes neither graph nor store.

* `Context.Roams` — nothing has happened but idle events and nodes gone into;
* `Selecting.roaming_select` — so it is with a selection;
* `Selecting.atRest_selectOperation` — what is at rest before an operation is at rest after it.
-/

namespace ApiGraph

open OrderedMap Context

variable {A : NodeId → Prop} {d : Document} {q : Option NodeId} {c c' c'' : Context}
  {i query : NodeId}

/-- Nothing has happened but idle events, and nodes that are there were gone into. -/
structure Context.Roams (c c' : Context) : Prop where
  graph : c'.graph = c.graph
  types : c'.types = c.types
  transcript : ∃ new, c'.transcript = new ++ c.transcript ∧
    ∀ e ∈ new, e.Idle ∨ ∃ i, e = .entered (some i) ∧ i.index < c.graph.size

theorem Context.Still.roams (h : c.Still c') : c.Roams c' := by
  obtain ⟨new, hnew, hidle⟩ := h.transcript
  exact ⟨h.graph, h.types, new, hnew, fun e he => .inl (hidle e he)⟩

theorem Context.Roams.trans (h : c.Roams c') (h' : c'.Roams c'') : c.Roams c'' := by
  obtain ⟨new, hnew, hevents⟩ := h.transcript
  obtain ⟨new', hnew', hevents'⟩ := h'.transcript
  refine ⟨h'.graph.trans h.graph, h'.types.trans h.types, new' ++ new, ?_, fun e he => ?_⟩
  · rw [hnew', hnew, List.append_assoc]
  · rcases List.mem_append.1 he with he | he
    · rw [h.graph] at hevents'
      exact hevents' e he
    · exact hevents e he

theorem roams_enter (hlt : i.index < c.graph.size) : c.Roams (c.enter (some i)) :=
  ⟨rfl, rfl, [_], rfl, fun _ he => .inr ⟨i, List.mem_singleton.1 he, hlt⟩⟩

theorem Context.Roams.sound (h : c.Roams c') (hs : c.Sound d q) : c'.Sound d q := by
  obtain ⟨new, hnew, hevents⟩ := h.transcript
  have hneither : ∀ e ∈ new, e.lookedUp? = none ∧ e.built? = none := by
    intro e he
    rcases hevents e he with hidle | ⟨i, rfl, -⟩
    · exact ⟨hidle.lookedUp, hidle.built⟩
    · exact ⟨rfl, rfl⟩
  have hbuilds : c'.transcript.builds = c.transcript.builds := by
    rw [hnew]
    exact Transcript.filterMap_reverse_of_none (fun e he => (hneither e he).2) _
  have hstored : ∀ ref, c'.stored? ref = c.stored? ref := fun ref => by
    rw [Context.stored?, h.types, Context.stored?]
  refine ⟨?_, ?_, ?_, ?_, ?_, fun j hj => ?_, ?_, ?_⟩
  · rw [h.types, hbuilds]
    exact hs.types_eq
  · rw [h.types]
    exact hs.distinct
  · rw [hbuilds, h.graph]
    exact hs.built
  · simp only [h.graph, hstored]
    exact hs.linked
  · simp only [h.graph, hstored]
    exact hs.named
  · rw [h.graph]
    rw [Context.entered, hnew, Transcript.enteredNodes, Transcript.filterMap_reverse_append] at hj
    rcases List.mem_append.1 hj with hj | hj
    · exact hs.entered_lt j hj
    · obtain ⟨e, he, hentered⟩ := List.mem_filterMap.1 hj
      rcases hevents e (List.mem_reverse.1 he) with hidle | ⟨i, rfl, hlt⟩
      · rw [hidle.entered] at hentered
        cases hentered
      · cases hentered
        exact hlt
  · rw [hnew]
    exact hs.once.append hneither
  · rw [h.graph]
    exact hs.handmade

theorem Context.AtRest.roams (h : c.AtRest A d q) (hroams : c.Roams c') : c'.AtRest A d q := by
  have hvisited : ∀ j, c'.Visited j → c.Visited j := fun j hj => by
    rwa [Visited, hroams.graph] at hj
  refine ⟨hroams.sound h.sound, h.whole.elsewhere ?_ (fun j _ => ?_) hvisited
    (fun ref => ?_) ?_ (fun _ => id) fun a ha hvisit => ?_, ?_⟩
  · rw [hroams.graph]
  · rw [hroams.graph]
  · rw [Context.stored?, hroams.types, Context.stored?]
  · obtain ⟨new, hnew, -⟩ := hroams.transcript
    exact ⟨new, hnew.symm⟩
  · exact h.whole.spurned a ha (hvisited a hvisit)
  · rw [hroams.graph]
    exact h.lt_size

namespace Selecting

variable {α β : Type} {s : SelectionDraft}

/-- A step of a selection that only roams. -/
def Roaming (m : Selecting α) (s : SelectionDraft) : Prop := s.context.Roams (after m s).context

theorem roaming_pure (a : α) : Roaming (pure a) s := (Still.refl _).roams

theorem roaming_throw (fault : Fault) : Roaming (throw fault : Selecting α) s := (Still.refl _).roams

theorem Roaming.bind {m : Selecting α} {f : α → Selecting β} (hm : Roaming m s)
    (hf : ∀ a s', s.context.Roams s'.context → Roaming (f a) s') : Roaming (m >>= f) s := by
  cases hms : outcome m s with
  | ok a =>
    rw [Roaming, after_bind_of_ok hms]
    exact Context.Roams.trans hm (hf a _ hm)
  | error fault =>
    rw [Roaming, after_bind_of_error hms]
    exact hm

theorem roaming_context_bind {f : Context → Selecting α} (hf : Roaming (f s.context) s) :
    Roaming (context >>= f) s :=
  hf

theorem roaming_run {step : Run α} (h : Idle step) : Roaming (run step) s := by
  have hstill := h s.context
  rw [Roaming, after, run]
  cases hstep : step s.context with
  | ok a c =>
    rw [after_of_ok hstep] at hstill
    exact hstill.roams
  | error fault c =>
    rw [after_of_error hstep] at hstill
    exact hstill.roams

theorem roaming_lift (a : Attempt α) : Roaming (lift a) s := roaming_run (Run.idle_lift a)

theorem roaming_write (line : SelectionLine) : Roaming (write line) s := (Still.refl _).roams

theorem roaming_within {step : Selecting α} (hlt : i.index < s.context.graph.size)
    (h : ∀ s', Roaming step s') : Roaming (within i step) s := by
  have hinside := (roams_enter hlt).trans (h { s with context := s.context.enter i })
  rw [after] at hinside
  rw [Roaming, after, within]
  cases hstep : step { s with context := s.context.enter i } with
  | ok a s' =>
    rw [hstep] at hinside
    exact hinside.trans (still_leave _).roams
  | error fault s' =>
    rw [hstep] at hinside
    exact hinside.trans (still_leave _).roams

theorem roaming_forM {f : α → Selecting Unit} (hf : ∀ a s, Roaming (f a) s) (xs : List α)
    (s : SelectionDraft) : Roaming (xs.forM f) s := by
  induction xs generalizing s with
  | nil => exact roaming_pure ()
  | cons x xs ih => exact (hf x s).bind fun _ s' _ => ih s'

variable {select : Selector}

theorem roaming_selectField (hs : ∀ value s, Roaming (select value) s) (i : NodeId) (n : Node) :
    Roaming (selectField select i n) s := by
  refine roaming_context_bind ((roaming_lift _).bind fun compound s₁ _ => ?_)
  split
  · refine (roaming_lift _).bind fun target s₂ _ => ?_
    split
    · exact roaming_throw _
    · split
      · exact (roaming_lift _).bind fun _ _ _ => roaming_run (Run.idle_log _ _ _)
      · refine (roaming_lift _).bind fun _ _ _ => (roaming_write _).bind fun _ _ _ => ?_
        exact (hs _ _).bind fun _ _ _ => roaming_write _
  · exact (roaming_lift _).bind fun _ _ _ => roaming_write _

theorem roaming_selectMembers (hs : ∀ value s, Roaming (select value) s)
    (hlt : i.index < s.context.graph.size) (n : Node) : Roaming (selectMembers select i n) s := by
  refine roaming_context_bind ?_
  split
  · exact (roaming_lift _).bind fun _ _ _ => roaming_run (Run.idle_log _ _ _)
  · refine roaming_within hlt fun s₁ => (roaming_run (Run.idle_trace _ _)).bind fun _ s₂ _ => ?_
    extract_lets out
    have hout : ∀ u s, Roaming (out u) s := fun _ _ => roaming_run (Run.idle_trace _ _)
    split
    · exact (roaming_lift _).bind fun _ _ _ => (hs _ _).bind fun u s _ => hout u s
    · exact (roaming_forM (fun prop => hs (some prop)) _ _).bind fun u s _ => hout u s

/-- Only nodes of a kind are gone into. -/
theorem roaming_step (hs : ∀ value s, Roaming (select value) s) (value : Option NodeId) :
    Roaming (step select value) s := by
  refine roaming_context_bind ((roaming_lift _).bind fun target s₁ hs₁ => ?_)
  split
  · exact roaming_throw _
  · next i =>
    have hlt : (s.context.graph.node i).body ≠ .bare → i.index < s₁.context.graph.size := by
      intro hbody
      rw [hs₁.graph]
      refine Nat.lt_of_not_le fun hle => hbody ?_
      rw [Graph.node_of_size_le hle]
    dsimp only
    split
    · exact roaming_selectField hs _ _
    · next hbody => exact roaming_selectMembers hs (hlt (by simp [hbody])) _
    · next hbody => exact roaming_selectMembers hs (hlt (by simp [hbody])) _
    · exact roaming_throw _
    · exact roaming_pure _

theorem roaming_selectWithin (depth : Nat) (value : Option NodeId) (s : SelectionDraft) :
    Roaming (selectWithin depth value) s := by
  induction depth generalizing value s with
  | zero => exact roaming_throw _
  | succ depth ih => exact roaming_step ih value

theorem roaming_select (value : Option NodeId) : Roaming (Selecting.select value) s :=
  roaming_context_bind (roaming_selectWithin _ _ _)

theorem Roaming.of_ok {m : Selecting α} {a : α} {s' : SelectionDraft} (h : Roaming m s)
    (hm : m s = .ok a s') : s.context.Roams s'.context := by
  rwa [Roaming, after_of_ok hm] at h

theorem eq_ok_of_run {step : Run α} {a : α} {s' : SelectionDraft} (h : run step s = .ok a s') :
    step s.context = .ok a s'.context := by
  rw [run] at h
  cases hstep : step s.context with
  | ok b c =>
    rw [hstep] at h
    cases h
    rfl
  | error fault c =>
    rw [hstep] at h
    cases h

/-- What is at rest before an operation is at rest after it. -/
theorem atRest_selectOperation {op : Operation} {s' : SelectionDraft}
    (h : s.context.AtRest A d (some query)) (hq : ¬s.context.Visited query)
    (hselect : Conversion.selectOperation d query op s = .ok () s') :
    ∃ B, s'.context.AtRest B d (some query) ∧ ¬s'.context.Visited query := by
  have hkeep : ∀ {B : NodeId → Prop} {c c' : Context}, c.AtRest B d (some query) →
      ¬c.Visited query → c.Roams c' → c'.AtRest B d (some query) ∧ ¬c'.Visited query := by
    intro B c c' hrest hnot hroams
    refine ⟨hrest.roams hroams, ?_⟩
    rwa [Visited, hroams.graph]
  obtain ⟨wanted, s₁, hask, hselect⟩ := bind_eq_ok_iff.1 hselect
  obtain ⟨hrest₁, hq₁⟩ := hkeep h hq ((roaming_run (Run.idle_askYesNo _)).of_ok hask)
  split at hselect
  · obtain ⟨u, s₂, hlog, hselect⟩ := bind_eq_ok_iff.1 hselect
    obtain ⟨field, s₃, hvisit, hselect⟩ := bind_eq_ok_iff.1 hselect
    obtain ⟨hrest₂, hq₂⟩ := hkeep hrest₁ hq₁ ((roaming_run (Run.idle_log _ _ _)).of_ok hlog)
    obtain ⟨B, hrest₃, hq₃, -⟩ := hrest₂.visitOperation hq₂ (eq_ok_of_run hvisit)
    exact ⟨B, hkeep hrest₃ hq₃ ((roaming_select _).of_ok hselect)⟩
  · exact ⟨A, hkeep hrest₁ hq₁ ((roaming_run (Run.idle_log _ _ _)).of_ok hselect)⟩

theorem atRest_selectEach {operations : List Operation} {s' : SelectionDraft}
    (h : s.context.AtRest A d (some query)) (hq : ¬s.context.Visited query)
    (hselect : operations.forM (Conversion.selectOperation d query) s = .ok () s') :
    ∃ B, s'.context.AtRest B d (some query) ∧ ¬s'.context.Visited query := by
  induction operations generalizing s A with
  | nil =>
    cases hselect
    exact ⟨A, h, hq⟩
  | cons op rest ih =>
    obtain ⟨u, s₁, hop, hrest⟩ := bind_eq_ok_iff.1 hselect
    obtain ⟨B, hB, hqB⟩ := atRest_selectOperation h hq hop
    exact ih hB hqB hrest

end Selecting

end ApiGraph
