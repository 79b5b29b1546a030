import ApiGraph.Proofs.Restoring.Conversions
import ApiGraph.Proofs.Selecting.Courses

/-!
# Selections that come to their end

In a graph between visits nothing can go wrong with the selection of a visited node but that it takes for
ever, and it does not when no value is unwrapped for ever.

* `Selecting.Steady` — a computation that leaves the graph alone and breaks off only at the end of its depth;
* `Selecting.steady_selectField`, `Selecting.steady_selectMembers`, `Selecting.steady_selectWithin` — the
  selection of a visited node is one, within any depth;
* `Context.AtRest.exists_select` — so it succeeds.
-/

namespace ApiGraph

open OrderedMap Context

namespace Selecting

variable {α β : Type} {g : Graph} {s : SelectionDraft} {m : Selecting α} {select : Selector} {i p t : NodeId}

/-! ## Steps -/

/-- From any state with the graph, a computation succeeds and leaves the graph as it is, or it breaks off
because it takes too long. -/
def Steady (g : Graph) (m : Selecting α) : Prop :=
  ∀ s : SelectionDraft, s.context.graph = g →
    (∃ a s', m s = .ok a s' ∧ s'.context.graph = g) ∨ ∃ s', m s = .error .endless s'

theorem steady_pure (a : α) : Steady g (pure a : Selecting α) := fun s hs => .inl ⟨a, s, rfl, hs⟩

theorem steady_endless : Steady g (throw .endless : Selecting α) := fun s _ => .inr ⟨s, rfl⟩

theorem Steady.bind {f : α → Selecting β} (hm : Steady g m) (hf : ∀ a, Steady g (f a)) :
    Steady g (m >>= f) := by
  intro s hs
  rcases hm s hs with ⟨a, s₁, h, hs₁⟩ | ⟨s₁, h⟩
  · rw [bind_of_ok h]
    exact hf a s₁ hs₁
  · exact .inr ⟨s₁, bind_of_error h⟩

theorem steady_context_bind {f : Context → Selecting α}
    (h : ∀ c : Context, c.graph = g → Steady g (f c)) : Steady g (context >>= f) :=
  fun s hs => h s.context hs s hs

theorem steady_lift_bind {x : Attempt α} {a : α} {f : α → Selecting β} (hx : x = .ok a)
    (h : Steady g (f a)) : Steady g (lift x >>= f) := by
  rw [hx]
  exact h

theorem steady_log (level : Level) (channel : Channel) (text : String) :
    Steady g (run (Run.log level channel text)) :=
  fun _ hs => .inl ⟨(), _, rfl, hs⟩

theorem steady_trace (tag text : String) : Steady g (run (Run.trace tag text)) :=
  fun _ hs => .inl ⟨(), _, rfl, hs⟩

theorem steady_write (line : SelectionLine) : Steady g (write line) :=
  fun _ hs => .inl ⟨(), _, rfl, hs⟩

theorem steady_within (h : Steady g m) : Steady g (within i m) := by
  intro s hs
  rcases h { s with context := s.context.enter i } hs with ⟨a, s', hm, hs'⟩ | ⟨s', hm⟩
  · exact .inl ⟨a, _, by rw [within, hm], (still_leave _).graph.trans hs'⟩
  · exact .inr ⟨_, by rw [within, hm]⟩

theorem steady_forM {f : α → Selecting Unit} {xs : List α} (hf : ∀ x ∈ xs, Steady g (f x)) :
    Steady g (xs.forM f) := by
  induction xs with
  | nil => exact steady_pure ()
  | cons x xs ih =>
    obtain ⟨hx, hxs⟩ := List.forall_mem_cons.1 hf
    show Steady g (f x >>= fun _ => xs.forM f)
    exact hx.bind fun _ => ih hxs

/-! ## Visited nodes -/

section

variable {A : NodeId → Prop} {c : Context} (hw : Whole A (fun _ => False) c)

include hw

/-- A visited node can be mentioned. -/
theorem exists_mention (hi : c.Visited i) : ∃ words, mention c.graph i = .ok words := by
  rw [mention]
  split
  · exact ⟨_, rfl⟩
  · exact hw.exists_identityWithin hi (by omega)

variable (hends : ∀ i, ¬c.graph.Endless i)

include hends

/-- The way of the value of a visited node comes to an end. -/
theorem exists_end {value : Option NodeId} (hvalue : ∀ i, value = some i → c.Visited i) :
    (∃ b, c.graph.isCompound value = .ok b) ∧
      (value ≠ none → ∃ t, c.graph.Targets value t ∧ c.Visited t) := by
  cases value with
  | none => exact ⟨⟨false, rfl⟩, fun h => absurd rfl h⟩
  | some i =>
    obtain ⟨t, hunwraps, -, hplain⟩ := hw.exists_unwraps (hvalue i rfl) (hends i)
    refine ⟨Graph.exists_isCompound_of_unwraps hunwraps hplain, fun _ => ?_⟩
    obtain ⟨t', ht'⟩ := Graph.exists_targets_of_unwraps hunwraps hplain
    exact ⟨t', ht', hw.visited_of_targets hvalue ht'⟩

variable (htidy : c.graph.Tidy) (hselect : ∀ i, c.Visited i → Steady c.graph (select (some i)))

include htidy hselect

theorem steady_selectField (hp : c.Visited p) (hfield : (c.graph.node p).body.IsField) :
    Steady c.graph (selectField select p (c.graph.node p)) := by
  have hvalue : ∀ i, (c.graph.node p).valueType? = some i → c.Visited i := fun i hi =>
    hw.led_visited hp (Node.mem_followed_of_valueType? hi)
  obtain ⟨s, hs⟩ : ∃ s, (c.graph.node p).name = .str s := by
    obtain ⟨slot, arguments, link, hbody⟩ := hfield
    exact htidy.titled p slot arguments link hbody
  have hname : nameOf (c.graph.node p) = .ok (selectedName s) := by rw [nameOf, hs]
  obtain ⟨⟨b, hb⟩, htarget⟩ := exists_end hw hends hvalue
  refine steady_context_bind fun c' hc' => ?_
  simp only [hc']
  refine steady_lift_bind hb ?_
  split
  · next htrue =>
    -- a compound value leads somewhere
    have hsome : (c.graph.node p).valueType? ≠ none := by
      intro hnone
      rw [htrue, hnone] at hb
      cases hb
    obtain ⟨t, ht, hvisited⟩ := htarget hsome
    obtain ⟨i, hi⟩ := Option.ne_none_iff_exists'.1 hsome
    refine steady_lift_bind (Graph.selectionTarget_eq_iff.2 ht) ?_
    dsimp only
    split
    · obtain ⟨words, hwords⟩ := exists_mention hw hvisited
      exact steady_lift_bind hwords (steady_log _ _ _)
    · refine steady_lift_bind hname ((steady_write _).bind fun _ => ?_)
      rw [hi]
      exact (hselect i (hvalue i hi)).bind fun _ => steady_write _
  · exact steady_lift_bind hname (steady_write _)

omit hends htidy in
theorem steady_selectMembers (hi : c.Visited i) : Steady c.graph (selectMembers select i (c.graph.node i)) := by
  refine steady_context_bind fun c' hc' => ?_
  rw [hc']
  split
  · obtain ⟨words, hwords⟩ := exists_mention hw hi
    exact steady_lift_bind hwords (steady_log _ _ _)
  · refine steady_within ((steady_trace _ _).bind fun _ => ?_)
    extract_lets out
    have hout : ∀ u, Steady c.graph (out u) := fun _ => steady_trace _ _
    split
    · next parts hbody =>
      obtain ⟨declared, shapes, u, -, -, hchildren, -⟩ := (hw.ripe i hi).oneOf parts hbody
      have hunion : c.graph.unionOf i = .ok (some u) := by
        simp [Graph.unionOf, Node.firstChild, hbody, hchildren, expect]
      refine steady_lift_bind hunion ?_
      exact (hselect u (hw.visited_of_unionOf hi hunion)).bind hout
    · refine (steady_forM fun p hp => ?_).bind hout
      obtain ⟨e, he, rfl⟩ := List.mem_map.1 hp
      exact hselect e.2 (hw.visited_of_props hi he)

theorem steady_step (hi : c.Visited i) : Steady c.graph (step select (some i)) := by
  have hvalue : ∀ j, some i = some j → c.Visited j := fun j hj => Option.some.inj hj ▸ hi
  obtain ⟨-, htarget⟩ := exists_end hw hends hvalue
  obtain ⟨t, ht, hvisited⟩ := htarget nofun
  refine steady_context_bind fun c' hc' => ?_
  simp only [hc']
  refine steady_lift_bind (Graph.selectionTarget_eq_iff.2 ht) ?_
  dsimp only
  split
  · next hbody => exact steady_selectField hw hends htidy hselect hvisited ⟨_, _, _, hbody⟩
  · exact steady_selectMembers hw hselect hvisited
  · exact steady_selectMembers hw hselect hvisited
  · next hbody => exact absurd hbody (hw.ripe t hvisited).kind
  · exact steady_pure ()

omit hselect in
/-- Within any depth, nothing goes wrong with the selection of a visited node but that the depth ends. -/
theorem steady_selectWithin (depth : Nat) : ∀ i, c.Visited i → Steady c.graph (selectWithin depth (some i)) := by
  induction depth with
  | zero => exact fun _ _ => steady_endless
  | succ depth ih => exact fun i hi => steady_step hw hends htidy ih hi

end

end Selecting

/-- Between visits, where no value is unwrapped for ever, the selection of a visited node succeeds. -/
theorem Context.AtRest.exists_select {A : NodeId → Prop} {d : Document} {q : Option NodeId} {c : Context}
    (h : c.AtRest A d q) (htidy : c.graph.Tidy) (hends : ∀ i, ¬c.graph.Endless i) {i : NodeId}
    (hi : c.Visited i) {s : SelectionDraft} (hs : s.context.graph = c.graph) :
    ∃ s', Selecting.select (some i) s = .ok () s' := by
  have hending := h.ending hends
  rw [← hs] at hending
  have hnot := (Selecting.contained_select hending (some i)).ends
  have hselect : Selecting.select (some i) s =
      Selecting.selectWithin (2 * s.context.graph.size + 3) (some i) s := by
    rw [Selecting.select, bind_of_ok (m := Selecting.context) rfl]
  rw [hselect]
  rcases Selecting.steady_selectWithin h.whole hends htidy _ i hi s hs with ⟨u, s', hok, -⟩ | ⟨s', herror⟩
  · exact ⟨s', hok⟩
  · exact absurd (outcome_of_error (hselect.trans herror)) hnot

end ApiGraph
