import Mathlib.Data.List.Count
import ApiGraph.Proofs.Finishing.Selections
import ApiGraph.Proofs.Restoring.Visits

/-!
# Watched visits

A visit is watched by looking at the state whenever it begins or ends and whenever its node was gone
into or is to be left. During a conversion every look finds the stack without a node twice, so that the
count of compositions tells which nodes are inside of one.

* `Context.Aware` — to be inside a composition is what the stack says it is;
* `Visit.visitWatched` — a visit that is watched;
* `Visit.guarded` — visits that break down unless they are of a sprout in a sound state, which they never
  are not;
* `Visit.visitWatched_eq` — what is seen in a visit of a sprout is aware.
-/

namespace ApiGraph

open OrderedMap Context

/-- Sequences are the same in a state when their first parts are, and so are the others where these
end. -/
theorem bind_congr_of_eq {σ α β : Type} {m m' : EStateM Fault σ α} {f f' : α → EStateM Fault σ β} {s : σ}
    (hm : m s = m' s) (hf : ∀ a s₁, m' s = .ok a s₁ → f a s₁ = f' a s₁) :
    (m >>= f) s = (m' >>= f') s := by
  cases hm' : m' s with
  | ok a s₁ => rw [bind_of_ok (hm.trans hm'), bind_of_ok hm', hf a s₁ hm']
  | error fault s₁ => rw [bind_of_error (hm.trans hm'), bind_of_error hm']

/-! ## Being aware -/

namespace Context

variable {c c' : Context} {i : NodeId}

/-- The run is inside of a composition other than a node just if the stack holds one. -/
def Aware (c : Context) : Prop :=
  ∀ i, c.inComposition i = true ↔ ∃ j ∈ c.stack, j ≠ i ∧ c.isComposition j = true

/-- When no node is on the stack twice, the compositions besides one are those left when it is taken
away. -/
theorem Counted.aware (h : c.Counted) (hnodup : c.stack.Nodup) : c.Aware := by
  intro i
  have hothers : (if c.isComposition i && c.stack.contains i then c.composeDepth - 1
      else c.composeDepth) = (c.stack.erase i).countP c.isComposition := by
    rw [List.countP_erase, h.composeDepth]
    by_cases hi : i ∈ c.stack <;> cases c.isComposition i <;> simp [hi]
  have hinside : c.inComposition i =
      decide (0 < if c.isComposition i && c.stack.contains i then c.composeDepth - 1
        else c.composeDepth) := rfl
  rw [hinside, decide_eq_true_iff, hothers, List.countP_pos_iff]
  simp only [hnodup.mem_erase_iff, and_assoc, and_left_comm]

/-- The count is right, no node was gone into twice without being left, and each was gone into. -/
structure Orderly (c : Context) : Prop extends Counted c where
  nodup : c.stack.Nodup
  entered : ∀ i, some i ∈ c.stack → i ∈ c.entered

theorem Orderly.restored (h : c.Orderly) (hrestored : c.Restored c') : c'.Orderly := by
  refine ⟨h.toCounted.restored hrestored, by rw [hrestored.stack]; exact h.nodup, fun i hi => ?_⟩
  rw [hrestored.stack] at hi
  obtain ⟨new, hnew⟩ := hrestored.told
  rw [Context.entered, ← hnew, Transcript.enteredNodes, Transcript.filterMap_reverse_append]
  exact List.mem_append_left _ (h.entered i hi)

/-- A node is gone into that was not gone into before. -/
theorem Orderly.enter (h : c.Orderly) (hi : i.index < c.graph.size) (hfresh : i ∉ c.entered) :
    (c.enter (some i)).Orderly := by
  refine ⟨h.toCounted.enter fun j hj => Option.some.inj hj ▸ hi,
    List.nodup_cons.2 ⟨fun hmem => hfresh (h.entered i hmem), h.nodup⟩, fun j hj => ?_⟩
  rw [entered_enter]
  rcases List.mem_cons.1 hj with hj | hj
  · rw [Option.some.inj hj]
    exact List.mem_append_right _ (List.mem_singleton_self i)
  · exact List.mem_append_left _ (h.entered j hj)

theorem orderly_of_stack_eq_nil (hstack : c.stack = []) (hdepth : c.composeDepth = 0) : c.Orderly := by
  refine ⟨counted_of_stack_eq_nil hstack hdepth, ?_, fun i hi => ?_⟩
  · rw [hstack]
    exact List.nodup_nil
  · rw [hstack] at hi
    cases hi

end Context

namespace Visit

/-- A visit during which the state is looked at: when it has gone into its node, and before it goes out
again. -/
def stepWatched (seen : Run Unit) (d : Document) (visitNode : Visitor) (i : NodeId) : Run Unit := do
  let n ← Run.node i
  unless n.visited do
    Run.within i do
      seen
      body d visitNode i n
      Run.update i fun n => { n with visited := true }
      seen

/-- Visits during which the state is looked at, also when one begins and when it ends. -/
def visitWatched (seen : Run Unit) (d : Document) : Nat → Visitor
  | 0, _ => throw .endless
  | depth + 1, i => do
    seen
    stepWatched seen d (visitWatched seen d depth) i
    seen

/-! ## Guarded visits -/

variable {α : Type} {d : Document} {q : Option NodeId} {c c' : Context} {i : NodeId} {top depth : Nat}
  {P : NodeId → Prop} {G : Context → Prop} {v w : Visitor}

/-- A state that is not sound: a name is kept in the store without a node. -/
def brokenDown : Context := { types := [(.text "", none)] }

theorem not_sound_brokenDown : ¬brokenDown.Sound d q := by
  intro h
  have htypes := h.types_eq
  cases htypes

open Classical in
/-- Visits that break down unless they are of a sprout in a sound state. -/
noncomputable def guarded (d : Document) (q : Option NodeId) (v : Visitor) : Visitor := fun i c =>
  if c.Sound d q ∧ ∃ top, c.Budding i top then v i c else .error .endless brokenDown

theorem guarded_of_budding (hs : c.Sound d q) (hb : c.Budding i top) :
    guarded d q v i c = v i c :=
  if_pos ⟨hs, top, hb⟩

theorem visits_guarded (hv : Visits d q v) : Visits d q (guarded d q v) := by
  intro c i top hs hb
  exact (hv hs hb).of_eq (guarded_of_budding hs hb) (Still.refl c).grows id

/-- Guarded visits go beside others that do the same where they do not break down. -/
theorem shadows_guarded (hw : ∀ c i top, G c → c.Sound d q → c.Budding i top →
      w i c = v i c ∧ G (after (v i) c)) (i : NodeId) :
    Shadows G (fun c => ¬c.Sound d q) (guarded d q v i) (w i) := by
  intro c hc
  by_cases h : c.Sound d q ∧ ∃ top, c.Budding i top
  · obtain ⟨hs, top, hb⟩ := h
    obtain ⟨he, hafter⟩ := hw c i top hc hs hb
    rw [after, he]
    exact .inl ⟨guarded_of_budding hs hb, hafter⟩
  · exact .inr ⟨_, _, if_neg h, not_sound_brokenDown⟩

/-- What ends in a sound state has not broken down. -/
theorem eq_of_shadows {m m' : Run α} {R : α → Context → Prop} (hm : Works d q P m c R)
    (h : Shadows G (fun c => ¬c.Sound d q) m m') (hc : G c) : m c = m' c ∧ G (after m' c) := by
  rcases h c hc with heq | ⟨fault, c', he, hbroken⟩
  · exact heq
  · have hs := hm.sound
    rw [after_of_error he] at hs
    exact absurd hs hbroken

/-- All visits that one goes on to are of sprouts in sound states. So what other visitors do elsewhere
makes no difference, and what visits keep there is kept. -/
theorem body_eq_of_visits (hv : Visits d q v) (hG : Lasting (· = i) G)
    (hn : ∀ c', G c' → (c.graph.node i).Kept (c'.graph.node i))
    (hselect : ∀ collected, Shadows G (fun c => ¬c.Sound d q) (select i collected) (select i collected))
    (hw : ∀ c i top, G c → c.Sound d q → c.Budding i top → w i c = v i c ∧ G (after (v i) c))
    (hs : c.Sound d q) (ho : c.Opened i top) (hc : G c) :
    body d w i (c.graph.node i) c = body d v i (c.graph.node i) c ∧
      G (after (body d v i (c.graph.node i)) c) := by
  have hworks := works_body (visits_guarded hv) hs ho
  have hplain : ∀ c i top, G c → c.Sound d q → c.Budding i top → v i c = v i c ∧ G (after (v i) c) :=
    fun c i top hc hs hb => ⟨rfl, (hw c i top hc hs hb).2⟩
  have hbody : ∀ w : Visitor, (∀ i, Shadows G (fun c => ¬c.Sound d q) (guarded d q v i) (w i)) →
      Shadows G (fun c => ¬c.Sound d q) (body d (guarded d q v) i (c.graph.node i))
        (body d w i (c.graph.node i)) := fun w hw =>
    shadows_body hG hw rfl hn
      (fun _ _ hcomposed => shadows_visitAllOf hG hw rfl hcomposed hselect) d
  obtain ⟨hv', hafter⟩ := eq_of_shadows hworks (hbody v (shadows_guarded hplain)) hc
  obtain ⟨hw', -⟩ := eq_of_shadows hworks (hbody w (shadows_guarded hw)) hc
  exact ⟨hw'.symm.trans hv', hafter⟩

/-- So it is for the visit that a reference leads to. -/
theorem resolve_eq_of_visits (hv : Visits d q v) (hG : Lasting (fun _ => False) G)
    (hw : ∀ c i top, G c → c.Sound d q → c.Budding i top → w i c = v i c ∧ G (after (v i) c))
    (hs : c.Sound d q) (hc : G c) (owner : Option NodeId) (ref : Json) :
    resolve d w owner ref c = resolve d v owner ref c ∧ G (after (resolve d v owner ref) c) := by
  have hworks := works_resolve (visits_guarded hv) hs owner ref
  have hplain : ∀ c i top, G c → c.Sound d q → c.Budding i top → v i c = v i c ∧ G (after (v i) c) :=
    fun c i top hc hs hb => ⟨rfl, (hw c i top hc hs hb).2⟩
  obtain ⟨hv', hafter⟩ := eq_of_shadows hworks (shadows_resolve hG (shadows_guarded hplain) d owner ref) hc
  obtain ⟨hw', -⟩ := eq_of_shadows hworks (shadows_resolve hG (shadows_guarded hw) d owner ref) hc
  exact ⟨hw'.symm.trans hv', hafter⟩

/-! ## What is seen -/

theorem stepWatched_of_unvisited {seen : Run Unit} (h : (c.graph.node i).visited = false) :
    stepWatched seen d v i c = Run.within i (do
      seen
      body d v i (c.graph.node i)
      Run.update i fun n => { n with visited := true }
      seen) c := by
  show (unless (c.graph.node i).visited do Run.within i _ : Run Unit) c = _
  rw [h]
  rfl

theorem within_congr {m m' : Run α} (h : m (c.enter (some i)) = m' (c.enter (some i))) :
    Run.within i m c = Run.within i m' c := by
  rw [Run.within, Run.within, h]

/-- A look at the states around a step changes nothing when they are aware. -/
theorem bind_seen_eq {seen : Run Unit} {m : Run Unit} (hseen : ∀ c, Aware c → seen c = .ok () c)
    (h : (after m c).Aware) : (do m; seen : Run Unit) c = m c := by
  cases hm : m c with
  | ok u c' =>
    rw [after_of_ok hm] at h
    rw [bind_of_ok hm]
    exact hseen c' h
  | error fault c' => exact bind_of_error hm

/-- What is seen in a visit of a sprout is aware, from an orderly state on. -/
theorem visitWatched_eq {seen : Run Unit} (hseen : ∀ c, Aware c → seen c = .ok () c) (depth : Nat)
    (hs : c.Sound d q) (hb : c.Budding i top) (hc : c.Orderly) :
    visitWatched seen d depth i c = visitWithin d depth i c := by
  induction depth generalizing c i top with
  | zero => rfl
  | succ depth ih =>
    have hlt := hb.sprout.lt_size
    have hfresh := hb.fresh i le_rfl hb.sprout.inside
    have hunvisited := hb.sprout.bud.unvisited
    have hc₁ : (c.enter (some i)).Orderly := hc.enter hlt hfresh
    have hlook : ∀ c', Orderly c' → c'.Aware := fun c' h => h.aware h.nodup
    -- what is done inside the node is the same with watched visits and with plain ones
    have hbody := body_eq_of_visits (G := (c.enter (some i)).Retained) (w := visitWatched seen d depth)
      (visits_visitWithin (d := d) depth) (lasting_retained _) (fun c' hc' => hc'.kept i hlt)
      (fun collected c' hc' => .inl ⟨rfl, hc'.trans (spoke_select i collected c').retained⟩)
      (fun c' j top' hc' hs' hb' => ⟨ih hs' hb' (hc₁.restored hc'.toRestored),
        hc'.trans (retained_visitWithin d depth j c')⟩)
      (sound_enter hs hlt) hb.opened (.refl _)
    have hinside : (do
          body d (visitWatched seen d depth) i (c.graph.node i)
          Run.update i fun n => { n with visited := true } : Run Unit) (c.enter (some i)) =
        (do
          body d (visitWithin d depth) i (c.graph.node i)
          Run.update i fun n => { n with visited := true } : Run Unit) (c.enter (some i)) :=
      bind_congr_of_eq hbody.1 fun _ _ _ => rfl
    have hretained := retained_body (d := d) (retained_visitWithin d depth) hlt
    have hstep : stepWatched seen d (visitWatched seen d depth) i c = visitWithin d (depth + 1) i c := by
      rw [visitWithin, stepWatched_of_unvisited hunvisited, step_of_unvisited hunvisited]
      refine within_congr ?_
      rw [bind_of_ok (hseen _ (hlook _ hc₁)), ← hinside, ← bind_assoc]
      refine bind_seen_eq hseen (hlook _ (hc₁.restored ?_))
      rw [after, hinside]
      exact hretained.toRestored
    rw [visitWatched, bind_of_ok (hseen _ (hlook _ hc)), ← hstep]
    refine bind_seen_eq hseen ?_
    rw [after, hstep]
    exact hlook _ (hc.restored (retained_visitWithin d (depth + 1) i c).toRestored)

end Visit

end ApiGraph
