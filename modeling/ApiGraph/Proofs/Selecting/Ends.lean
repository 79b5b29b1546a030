import Mathlib.Logic.Function.Iterate
import ApiGraph.Proofs.Finishing.Completeness
import ApiGraph.Proofs.Selecting.Ways

/-!
# Ways that come to an end

Values are unwrapped from node to node. Where no value is unwrapped for ever, every such way ends within
as many steps as there are nodes, and so what is asked about a value before it is selected is answered.

* `Graph.Endless` — a value that is unwrapped for ever;
* `Graph.exists_lands_of_not_endless` — any other value comes to an end;
* `Graph.Ending` — what is asked about values in a graph is answered, or fails for another reason;
* `Context.AtRest.ending` — so it is between visits, where no value is unwrapped for ever;
* `Whole.exists_unwraps` — a visited value comes to an end at a visited node.
-/

namespace ApiGraph

open OrderedMap Context Attempt

namespace Graph

/-- From a node references, arrays and choices lead on and on. -/
def Endless (g : Graph) (i : NodeId) : Prop :=
  ∃ way : Nat → NodeId, way 0 = i ∧ ∀ n, g.inner? (way n) = some (some (way (n + 1)))

variable {g : Graph} {n steps : Nat} {i k t : NodeId} {value : Option NodeId}

/-- No value is unwrapped for ever where each step leads to a lower rank. -/
theorem not_endless_of_rank (rank : NodeId → Nat)
    (h : ∀ j k, g.inner? j = some (some k) → rank k < rank j) (i : NodeId) : ¬g.Endless i := by
  rintro ⟨way, -, hway⟩
  have hrank : ∀ n, rank (way n) + n ≤ rank (way 0) := by
    intro n
    induction n with
    | zero => exact Nat.le_refl _
    | succ n ih =>
      have := h _ _ (hway n)
      omega
  have := hrank (rank (way 0) + 1)
  omega

/-! ## Landing -/

/-- A step that leads to a node. -/
def onward (next : NodeId → Option (Option NodeId)) (i : NodeId) : Option (Option NodeId) :=
  match next i with
  | some (some k) => some (some k)
  | _ => none

theorem onward_eq_some_iff {next : NodeId → Option (Option NodeId)} {v : Option NodeId} :
    onward next i = some v ↔ ∃ k, v = some k ∧ next i = some (some k) := by
  rw [onward]
  split
  · next k hk => simp [hk, eq_comm]
  · next hnone =>
    refine ⟨nofun, ?_⟩
    rintro ⟨k, rfl, hk⟩
    exact absurd hk (hnone k)

/-- A way that does not go on for ever ends at some node. -/
theorem exists_lands_of_not_endless {next : NodeId → Option (Option NodeId)}
    (hnext : ∀ i k, next i = some (some k) → g.inner? i = some (some k)) (h : ¬g.Endless i) :
    ∃ n t, LandsIn (onward next) n (some i) t := by
  by_contra hnever
  -- nodes from where no way ends lead to such nodes, and so on for ever
  have hon : ∀ j : {j // ¬∃ n t, LandsIn (onward next) n (some j) t},
      ∃ k : {j // ¬∃ n t, LandsIn (onward next) n (some j) t}, next j = some (some k.1) := by
    rintro ⟨j, hj⟩
    cases hstep : onward next j with
    | none => exact absurd ⟨0, j, .last hstep⟩ hj
    | some v =>
      obtain ⟨k, rfl, hk⟩ := onward_eq_some_iff.1 hstep
      refine ⟨⟨k, ?_⟩, hk⟩
      rintro ⟨n, t, hway⟩
      exact hj ⟨n + 1, t, .step hstep hway⟩
  choose f hf using hon
  refine h ⟨fun n => (f^[n] ⟨i, hnever⟩).1, rfl, fun n => ?_⟩
  dsimp only
  rw [Function.iterate_succ_apply']
  exact hnext _ _ (hf _)

/-- A way ends within as many steps as there are nodes. -/
theorem LandsIn.le_size {next : NodeId → Option (Option NodeId)} (h : LandsIn (onward next) n value t)
    (hsize : ∀ i v, next i = some v → i.index < g.size) : n ≤ g.size := by
  have hlength := h.add_length_le (g := g) (fun i v hi => ?_) List.nodup_nil (by simp) (by simp)
  · rwa [List.length_nil] at hlength
  · obtain ⟨k, -, hk⟩ := onward_eq_some_iff.1 hi
    exact hsize i _ hk

/-! ## What is asked about values -/

theorem fails_isCompoundWithin (h : LandsIn (onward g.inner?) n value t) (hsteps : n + 1 < steps) :
    Fails (· ≠ .endless) (g.isCompoundWithin steps value) := by
  induction h generalizing steps with
  | @last t hlast =>
    obtain ⟨steps, rfl⟩ : ∃ m, steps = m + 2 := ⟨steps - 2, by omega⟩
    cases hinner : g.inner? t with
    | some v =>
      cases v with
      | some k => simp [onward, hinner] at hlast
      | none =>
        rw [isCompoundWithin_of_inner? hinner]
        exact fails_ok _
    | none =>
      rw [isCompoundWithin]
      rcases hbody : (g.node t).body with _ | _ | _ | _ | _ | ⟨_ | _, parts⟩ | _ | _ | _ <;>
        simp only [inner?, hbody, reduceCtorEq] at hinner <;> try exact fails_ok _
      · cases hvariant : g.unionVariant t with
        | ok u => simp [hvariant, Except.toOption] at hinner
        | error fault => exact fails_error_iff.2 (g.fails_unionVariant t fault hvariant).2
      · cases hvariant : g.oneOfVariant t with
        | ok u => simp [hvariant, Except.toOption] at hinner
        | error fault => exact fails_error_iff.2 (g.fails_oneOfVariant t fault hvariant).2
  | step hstep _ ih =>
    obtain ⟨steps, rfl⟩ : ∃ m, steps = m + 1 := ⟨steps - 1, by omega⟩
    obtain ⟨k, rfl, hk⟩ := onward_eq_some_iff.1 hstep
    rw [isCompoundWithin_of_inner? hk]
    exact ih (by omega)

theorem fails_selectionTargetWithin (h : LandsIn (onward g.peeled?) n value t) (hsteps : n + 1 < steps) :
    Fails (· ≠ .endless) (g.selectionTargetWithin steps value) := by
  induction h generalizing steps with
  | @last t hlast =>
    obtain ⟨steps, rfl⟩ : ∃ m, steps = m + 2 := ⟨steps - 2, by omega⟩
    have hnone : ∀ steps, Fails (· ≠ .endless) (g.selectionTargetWithin (steps + 1) none) := fun _ =>
      fails_ok _
    rw [selectionTargetWithin]
    rcases hbody : (g.node t).body with _ | _ | _ | items | shapes | _ | link | _ | _ <;>
      simp only [onward, peeled?, hbody] at hlast <;> try exact fails_ok _
    · cases items with
      | none => exact hnone steps
      | some k => cases hlast
    · cases hvariant : g.unionVariant t with
      | ok u =>
        rw [hvariant] at hlast
        cases u with
        | none => exact hnone steps
        | some k => cases hlast
      | error fault => exact fails_error_iff.2 (g.fails_unionVariant t fault hvariant).2
    · cases htarget : link.target with
      | none =>
        dsimp only
        rw [htarget]
        exact hnone steps
      | some k =>
        rw [htarget] at hlast
        cases hlast
  | @step n i t v hstep _ ih =>
    obtain ⟨steps, rfl⟩ : ∃ m, steps = m + 1 := ⟨steps - 1, by omega⟩
    obtain ⟨k, rfl, hk⟩ := onward_eq_some_iff.1 hstep
    have hrest : Fails (· ≠ .endless) (g.selectionTargetWithin steps (some k)) := ih (by omega)
    rw [selectionTargetWithin]
    rcases hbody : (g.node i).body with _ | _ | _ | items | shapes | _ | link | _ | _ <;>
      simp only [peeled?, hbody, reduceCtorEq, Option.some.injEq] at hk
    · dsimp only
      rwa [hk]
    · cases hvariant : g.unionVariant i with
      | ok u =>
        rw [hvariant] at hk
        obtain rfl : u = some k := hk
        exact hrest
      | error fault => exact fails_error_iff.2 (g.fails_unionVariant i fault hvariant).2
    · dsimp only
      rwa [hk]

/-- What is asked about values in a graph is answered, or fails for another reason than that it takes
for ever. -/
structure Ending (g : Graph) : Prop where
  isCompound : ∀ value, Fails (· ≠ .endless) (g.isCompound value)
  selectionTarget : ∀ value, Fails (· ≠ .endless) (g.selectionTarget value)
  mention : ∀ i, Fails (· ≠ .endless) (Selecting.mention g i)

theorem fails_isCompound_of_not_endless (h : ∀ i, ¬g.Endless i) (value : Option NodeId) :
    Fails (· ≠ .endless) (g.isCompound value) := by
  cases value with
  | none => exact fails_ok _
  | some i =>
    obtain ⟨n, t, hway⟩ := exists_lands_of_not_endless (fun _ _ => id) (h i)
    have := hway.le_size fun i v hi => lt_size_of_inner? hi
    exact fails_isCompoundWithin hway (by omega)

theorem fails_selectionTarget_of_not_endless (h : ∀ i, ¬g.Endless i) (value : Option NodeId) :
    Fails (· ≠ .endless) (g.selectionTarget value) := by
  cases value with
  | none => exact fails_ok _
  | some i =>
    have hinner : ∀ i k, g.peeled? i = some (some k) → g.inner? i = some (some k) := by
      intro i k hk
      rcases hbody : (g.node i).body with _ | _ | _ | items | shapes | _ | link | _ | _ <;>
        simp only [peeled?, inner?, hbody, reduceCtorEq, Option.some.injEq] at hk ⊢
      · exact hk
      · cases hvariant : g.unionVariant i with
        | ok u =>
          rw [hvariant] at hk
          exact congrArg some hk
        | error fault =>
          rw [hvariant] at hk
          cases hk
      · exact hk
    obtain ⟨n, t, hway⟩ := exists_lands_of_not_endless hinner (h i)
    have := hway.le_size fun i v hi => lt_size_of_peeled? hi
    exact fails_selectionTargetWithin hway (by omega)

end Graph

/-- Between visits, a node that was visited is identified, and one that was not is said not to be. -/
theorem Context.AtRest.fails_mention {A : NodeId → Prop} {d : Document} {q : Option NodeId} {c : Context}
    (h : c.AtRest A d q) (i : NodeId) : Fails (· ≠ .endless) (Selecting.mention c.graph i) := by
  rw [Selecting.mention]
  split
  · exact fails_ok _
  · by_cases hi : c.Visited i
    · obtain ⟨text, htext⟩ : ∃ text, c.graph.identity i = .ok text :=
        h.whole.exists_identityWithin hi (by omega)
      rw [htext]
      exact fails_ok _
    · have hnot : (c.graph.node i).visited = false := Bool.eq_false_iff.2 hi
      simp [Graph.identity, Graph.identityWithin, hnot]

/-- Between visits, where no value is unwrapped for ever, nothing that is asked takes for ever. -/
theorem Context.AtRest.ending {A : NodeId → Prop} {d : Document} {q : Option NodeId} {c : Context}
    (h : c.AtRest A d q) (hends : ∀ i, ¬c.graph.Endless i) : c.graph.Ending :=
  ⟨Graph.fails_isCompound_of_not_endless hends, Graph.fails_selectionTarget_of_not_endless hends,
    h.fails_mention⟩

/-- A visited value that is not unwrapped for ever unwraps to a node that was visited and is no choice. -/
theorem Whole.exists_unwraps {A : NodeId → Prop} {c : Context} {i : NodeId}
    (hw : Whole A (fun _ => False) c) (hi : c.Visited i) (hends : ¬c.graph.Endless i) :
    ∃ t, c.graph.Unwraps (some i) t ∧ c.Visited t ∧ (c.graph.node t).body.isChoice = false := by
  obtain ⟨n, t, hway⟩ := Graph.exists_lands_of_not_endless (fun _ _ => id) hends
  clear hends
  generalize hvalue : some i = value at hway
  induction hway generalizing i with
  | @last t hlast =>
    obtain rfl := Option.some.inj hvalue
    rcases hw.inner?_cases hi with ⟨k, hk⟩ | ⟨hnone, hplain⟩
    · rw [Graph.onward, hk] at hlast
      cases hlast
    · exact ⟨i, ⟨0, .last hnone⟩, hi, hplain⟩
  | @step n j t v hnext _ ih =>
    obtain rfl := Option.some.inj hvalue
    obtain ⟨k, rfl, hk⟩ := Graph.onward_eq_some_iff.1 hnext
    obtain ⟨t, ⟨m, hrest⟩, ht⟩ := ih (hw.visited_of_inner? hi hk) rfl
    exact ⟨t, ⟨m + 1, .step hk hrest⟩, ht⟩

end ApiGraph
