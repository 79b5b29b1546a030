import ApiGraph.Proofs.Asking.Compositions
import ApiGraph.Proofs.Restoring.Watching

/-!
# Questions of a visit

A visit asks in whole rounds, one for each `allOf` outside of all other compositions that brings
something in, and ends in the midst of a round only when it fails there.

* `Visit.Questioning` — visits that ask in rounds;
* `Visit.asks_body` — so does what is done inside a node, if the visits of the nodes below do;
* `Visit.questioning_visitWithin`, `Visit.asks_resolve` — visits of any depth, and references that are
  resolved.
-/

namespace ApiGraph

open OrderedMap Context

/-- What a composition is, it was before. -/
theorem Node.Kept.composed_eq {n n' : Node} (h : n.Kept n') {kind : Composition} {members : Option Json}
    (hbody : n'.body = .composed kind members) : n.body = .composed kind members := by
  have hb := h.body
  rw [hbody] at hb
  rcases hn : n.body with _ | _ | _ | _ | _ | _ | _ | ⟨_, _, _ | _⟩ | _ <;> rw [hn] at hb <;>
    simp [Body.unlinked] at hb
  obtain ⟨rfl, rfl⟩ := hb
  rfl

namespace Context

variable {d : Document} {q : Option NodeId} {c c' : Context} {i : NodeId} {top : Nat}
  {topics : List Topic}

/-- A conversation goes on from where rounds were asked. -/
theorem Conversing.heard (h : c.Conversing d q topics) (hs : c'.Sound d q) (hretained : c.Retained c')
    (hheard : c'.Heard d topics) :
    ∃ rounds : List Round, c'.Conversing d q (topics ++ rounds.map .round) := by
  obtain ⟨rounds, hdiscussed⟩ := hheard
  exact ⟨rounds, hs, h.counted.restored hretained.toRestored, hretained.inStep h.inStep,
    hretained.tidy h.tidy, hdiscussed⟩

theorem Conversing.enter (h : c.Conversing d q topics) (hi : i.index < c.graph.size) :
    (c.enter (some i)).Conversing d q topics := by
  refine ⟨sound_enter h.sound hi, h.counted.enter fun j hj => Option.some.inj hj ▸ hi,
    inStep_enter h.inStep _, h.tidy, ?_⟩
  exact h.discussed.of_graph_eq rfl (quiet_enter c _)

/-- An `allOf` is gone into outside of all compositions. -/
theorem Conversing.alone (h : c.Conversing d q topics) (hb : c.Budding i top)
    (hdepth : c.composeDepth = 0) {members : Option Json}
    (hbody : (c.graph.node i).body = .composed .allOf members) :
    (c.enter (some i)).Alone d q topics i := by
  have hlt := hb.sprout.lt_size
  have hcomposed : c.isComposition (some i) = true := by
    show (c.graph.node i).body.isComposed = true
    rw [hbody]
    rfl
  refine ⟨h.enter hlt, rfl, ?_, hlt, ⟨members, hbody⟩, ?_, fun r hr hri => ?_, ?_⟩
  · show (if c.isComposition (some i) then c.composeDepth + 1 else c.composeDepth) = 1
    rw [if_pos hcomposed, hdepth]
  · rw [entered_enter]
    exact List.mem_append_right _ (List.mem_singleton_self i)
  · have hentered := h.discussed.entered r hr
    rw [hri] at hentered
    exact hb.fresh i le_rfl hb.sprout.inside hentered
  · exact hb.sprout.bud.bare (by rw [hbody]; simp)

end Context

namespace Visit

variable {α : Type} {d : Document} {q : Option NodeId} {c c' : Context} {i : NodeId} {top depth : Nat}
  {topics : List Topic} {v : Visitor}

/-- Visits of sprouts that ask in rounds. -/
def Questioning (d : Document) (q : Option NodeId) (v : Visitor) : Prop :=
  ∀ {c : Context} {i : NodeId} {top : Nat} {topics : List Topic}, c.Conversing d q topics →
    c.Budding i top → Asks d topics (v i) c

/-- A state to which a conversation came. -/
def Reached (d : Document) (topics : List Topic) (c c' : Context) : Prop :=
  c.Retained c' ∧ c'.Heard d topics

/-- Visits break down where they are guarded, or where a round breaks off. -/
def BrokeDown (d : Document) (q : Option NodeId) (topics : List Topic) (c : Context) : Prop :=
  ¬c.Sound d q ∨ c.Interrupted d topics

theorem lasting_reached {X : NodeId → Prop}
    (hX : ∀ j, X j → j.index < c.graph.size ∧ ∀ members, (c.graph.node j).body ≠ .composed .allOf members) :
    Lasting X (Reached d topics c) := by
  rintro c₁ c₂ ⟨hretained, hheard⟩ hmoves
  refine ⟨hretained.trans hmoves.retained, hheard.moves hmoves fun j hj members hbody => ?_⟩
  obtain ⟨hlt, hnot⟩ := hX j hj
  exact hnot members ((hretained.kept j hlt).composed_eq hbody)

/-- Guarded visits that ask in rounds. -/
theorem shadows_questioning (hq : Questioning d q v)
    (hretained : ∀ i (c : Context), c.Retained (after (v i) c)) (h : c.Conversing d q topics)
    (i : NodeId) :
    Shadows (Reached d topics c) (BrokeDown d q topics) (guarded d q v i) (guarded d q v i) := by
  rintro c' ⟨hreached, hheard⟩
  by_cases hguard : c'.Sound d q ∧ ∃ top, c'.Budding i top
  · obtain ⟨hs, top, hb⟩ := hguard
    have hv : guarded d q v i c' = v i c' := guarded_of_budding hs hb
    obtain ⟨rounds, hconversing⟩ := h.heard hs hreached hheard
    rcases hq hconversing hb with hafter | ⟨fault, c₁, he, hinterrupted⟩
    · refine .inl ⟨rfl, ?_⟩
      rw [after, hv]
      exact ⟨hreached.trans (hretained i c'), hafter.append⟩
    · exact .inr ⟨fault, c₁, hv.trans he, .inr hinterrupted.append⟩
  · exact .inr ⟨_, _, if_neg hguard, .inl not_sound_brokenDown⟩

/-- What ends in a sound state has not broken down, but a round may have broken off. -/
theorem asks_of_shadows {m : Run α} {P : NodeId → Prop} {R : α → Context → Prop}
    (hm : Works d q P m c R) (hheard : c.Heard d topics)
    (h : Shadows (Reached d topics c) (BrokeDown d q topics) m m) : Asks d topics m c := by
  rcases h c ⟨.refl c, hheard⟩ with ⟨-, -, hafter⟩ | ⟨fault, c', he, hbroken | hinterrupted⟩
  · exact .inl hafter
  · have hs := hm.sound
    rw [after_of_error he] at hs
    exact absurd hs hbroken
  · exact .inr ⟨fault, c', he, hinterrupted⟩

/-- A node that is no `allOf` asks nothing but what the visits of the nodes below ask. -/
theorem asks_body (hv : Visits d q v) (hq : Questioning d q v)
    (hretained : ∀ i (c : Context), c.Retained (after (v i) c)) (h : c.Conversing d q topics)
    (ho : c.Opened i top) (hnot : ∀ members, (c.graph.node i).body ≠ .composed .allOf members) :
    Asks d topics (body d v i (c.graph.node i)) c := by
  have hlt := ho.sprout.lt_size
  have hguarded := body_eq_of_visits (G := c.Retained) (w := guarded d q v) hv (lasting_retained c)
    (fun c' hc' => hc'.kept i hlt)
    (fun collected c' hc' => .inl ⟨rfl, hc'.trans (spoke_select i collected c').retained⟩)
    (fun c' j top' hc' hs hb => ⟨guarded_of_budding hs hb, hc'.trans (hretained j c')⟩) h.sound ho (.refl c)
  have hG : Lasting (· = i) (Reached d topics c) := by
    refine lasting_reached fun j hj => ?_
    subst hj
    exact ⟨hlt, hnot⟩
  have hbody := shadows_body (B := BrokeDown d q topics) hG (shadows_questioning hq hretained h) rfl
    (fun c' hc' => hc'.1.kept i hlt) (fun members hmembers => absurd hmembers (hnot members)) d
  exact Asks.congr (asks_of_shadows (works_body (visits_guarded hv) h.sound ho) h.discussed.heard hbody)
    hguarded.1.symm

/-- A node asks in rounds, outside of all other compositions. -/
theorem asks_body_of_composeDepth (h : c.Conversing d q topics) (hb : c.Budding i top)
    (hdepth : c.composeDepth = 0) (hq : Questioning d q (visitWithin d depth)) :
    Asks d topics (body d (visitWithin d depth) i (c.graph.node i)) (c.enter (some i)) := by
  by_cases hallOf : ∃ members, (c.graph.node i).body = .composed .allOf members
  · obtain ⟨members, hbody⟩ := hallOf
    have hrun : body d (visitWithin d depth) i (c.graph.node i) =
        visitComposed (visitWithin d depth) i (c.graph.node i) .allOf members := by
      rw [body, hbody]
    rw [hrun]
    exact asks_visitComposed (h.alone hb hdepth hbody) _ members
  · exact asks_body (visits_visitWithin depth) hq (retained_visitWithin d depth)
      (h.enter hb.sprout.lt_size) hb.opened fun members hbody => hallOf ⟨members, hbody⟩

/-- A node is visited once what is below was. -/
theorem heard_update_visited (hheard : c.Heard d topics) (i : NodeId) :
    Heard d topics { c with graph := c.graph.update i fun n => { n with visited := true } } := by
  refine hheard.later (Graph.grown_of_kept (Graph.size_update _ _ _).ge fun j _ => ?_) ⟨[], rfl, nofun⟩
    fun j _ _ => ?_
  all_goals
    rw [Graph.node_update_eq]
    split
  · next h => exact h.1 ▸ (Node.Kept.refl _).visit
  · exact .refl _
  · next h => rw [h.1]
  · rfl

/-- Inside a composition nothing is asked, and what was discussed is left alone. -/
theorem heard_of_composeDepth (h : c.Conversing d q topics) (hb : c.Budding i top)
    (hdepth : 0 < c.composeDepth) (depth : Nat) : (after (visitWithin d depth i) c).Heard d topics := by
  have hgrows := (visits_visitWithin (d := d) depth h.sound hb).grows
  refine (h.discussed.later hgrows.grown (quiet_visitWithin d depth i c hdepth)
    fun r hr => ?_).heard
  have houtside : c.Outside i top r.node :=
    ⟨(h.discussed.isOf r hr).lt_size, fun hinside =>
      hb.fresh r.node hinside.1 hinside.2 (h.discussed.entered r hr)⟩
  rw [(hgrows.spared _ houtside).1]

/-- Visits of any depth ask in rounds. -/
theorem questioning_visitWithin (depth : Nat) : Questioning d q (visitWithin d depth) := by
  induction depth with
  | zero => exact fun h _ => .inl h.discussed.heard
  | succ depth ih =>
    intro c i top topics h hb
    rcases Nat.eq_zero_or_pos c.composeDepth with hdepth | hdepth
    · have hstep : visitWithin d (depth + 1) i c = Run.within i (do
          body d (visitWithin d depth) i (c.graph.node i)
          Run.update i fun n => { n with visited := true }) c :=
        step_of_unvisited hb.sprout.bud.unvisited
      refine Asks.congr (Asks.within ?_) hstep
      exact (asks_body_of_composeDepth h hb hdepth ih).bind fun _ _ _ hheard =>
        .inl (heard_update_visited hheard i)
    · exact .inl (heard_of_composeDepth h hb hdepth (depth + 1))

theorem asks_resolve (depth : Nat) (h : c.Conversing d q topics) (owner : Option NodeId) (ref : Json) :
    Asks d topics (resolve d (visitWithin d depth) owner ref) c := by
  have hv : Visits d q (visitWithin d depth) := visits_visitWithin depth
  have hretained := retained_visitWithin d depth
  have hguarded := resolve_eq_of_visits (G := c.Retained) (w := guarded d q (visitWithin d depth)) hv
    (lasting_retained c)
    (fun c' j top' hc' hs hb => ⟨guarded_of_budding hs hb, hc'.trans (hretained j c')⟩) h.sound (.refl c)
    owner ref
  have hG : Lasting (fun _ => False) (Reached d topics c) := lasting_reached fun _ hj => hj.elim
  have hresolve := shadows_resolve (B := BrokeDown d q topics) hG
    (shadows_questioning (questioning_visitWithin depth) hretained h) d owner ref
  exact Asks.congr (asks_of_shadows (works_resolve (visits_guarded hv) h.sound owner ref)
    h.discussed.heard hresolve) hguarded.1.symm

end Visit

end ApiGraph
