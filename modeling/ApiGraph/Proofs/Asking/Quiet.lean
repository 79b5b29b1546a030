import ApiGraph.Proofs.Asking.Rounds
import ApiGraph.Proofs.Finishing.Visits

/-!
# Quiet visits

Inside a composition nothing is asked, whatever is visited and however it ends. What the members of a
composition bring in is called by its keys, which are different.

* `Visit.quiet_visitWithin` — visits inside a composition;
* `Visit.hushed_collect` — the visits of the members of an `allOf`;
* `Visit.called_collect` — what they bring in.
-/

namespace ApiGraph

open OrderedMap Context

namespace Context

variable {c c' : Context} {X : NodeId → Prop}

/-- A run restored in which nothing was asked. -/
structure Hushed (c c' : Context) : Prop extends Retained c c' where
  quiet : c.Quiet c'

theorem Hushed.refl (c : Context) : c.Hushed c := ⟨.refl c, .refl c⟩

theorem Hushed.trans {c'' : Context} (h : c.Hushed c') (h' : c'.Hushed c'') : c.Hushed c'' :=
  ⟨h.toRetained.trans h'.toRetained, h.quiet.trans h'.quiet⟩

theorem Moves.hushed (h : c.Moves X c') : c.Hushed c' := ⟨h.retained, h.quiet⟩

theorem lasting_hushed (c : Context) : Lasting X c.Hushed := fun _ _ h hmoves => h.trans hmoves.hushed

/-- Inside a composition, a composition is inside of another one than itself. -/
theorem inComposition_of_enter {i : NodeId} (hdepth : 0 < c.composeDepth)
    (hi : (c.graph.node i).body.isComposed = true) (h : (c.enter (some i)).Restored c') :
    c'.inComposition (some i) = true := by
  have hentered : c'.composeDepth = c.composeDepth + 1 := by
    rw [h.composeDepth]
    exact if_pos hi
  unfold inComposition
  dsimp only
  rw [hentered, decide_eq_true_iff]
  split <;> omega

end Context

namespace Visit

variable {d : Document} {v : Visitor} {i : NodeId} {c c' : Context}

/-! ## Visits inside a composition -/

/-- What a visit does inside an `allOf` that is inside another composition: all properties are kept. -/
theorem shadows_visitAllOf_of_inComposition {X : NodeId → Prop} {G B : Context → Prop} {v' : Visitor}
    (hG : Lasting X G) (hv : ∀ i, Shadows G B (v' i) (v i)) (hi : X i)
    (hcomposed : ∀ c, G c → (c.graph.node i).body.isComposed = true)
    (hinside : ∀ c : Context, G c → c.inComposition (some i) = true) :
    Shadows G B (visitAllOf v' i) (visitAllOf v i) := by
  refine (shadows_collect hG hv i).bind fun collected c hc => ?_
  refine .inl ⟨rfl, ?_⟩
  rw [after_get_bind]
  dsimp only
  rw [if_pos (hinside c hc)]
  rcases shadows_keep (B := fun _ => False) hG hi hcomposed (values collected) c hc with
    ⟨-, hafter⟩ | ⟨-, -, -, hfalse⟩
  · exact hafter
  · exact hfalse.elim

/-- Inside a composition nothing is asked. -/
theorem quiet_step (hv : ∀ i (c : Context), 0 < c.composeDepth → c.Quiet (after (v i) c))
    (hretained : ∀ i (c : Context), c.Retained (after (v i) c)) (hdepth : 0 < c.composeDepth) :
    c.Quiet (after (step d v i) c) := by
  cases hvisited : (c.graph.node i).visited with
  | true =>
    rw [after_of_ok (step_of_visited hvisited)]
    exact .refl c
  | false =>
    rw [after, step_of_unvisited hvisited]
    change c.Quiet (after (Run.within i _) c)
    rw [after_within]
    refine ((quiet_enter c (some i)).trans ?_).trans (quiet_leave _)
    by_cases hi : i.index < c.graph.size
    · have hentered : c.composeDepth ≤ (c.enter (some i)).composeDepth := by
        show c.composeDepth ≤ if c.isComposition (some i) then c.composeDepth + 1 else c.composeDepth
        split <;> omega
      have hG : Lasting (· = i) (c.enter (some i)).Hushed := lasting_hushed _
      have hvisit : ∀ j, Shadows (c.enter (some i)).Hushed (fun _ => False) (v j) (v j) := by
        refine fun j c' hc' => .inl ⟨rfl, hc'.trans ⟨hretained j c', hv j c' ?_⟩⟩
        rw [hc'.composeDepth]
        omega
      have hbody := (shadows_body hG hvisit rfl (fun c' hc' => hc'.kept i hi)
        (fun _ _ hcomposed => shadows_visitAllOf_of_inComposition hG hvisit rfl hcomposed
          fun c' hc' => inComposition_of_enter hdepth (hcomposed (c.enter (some i)) (.refl _))
            hc'.toRestored) d).bind
        fun _ => shadows_update (f := fun n => { n with visited := true }) hG rfl
          (fun _ _ => (Node.Kept.refl _).visit) fun _ => rfl
      rcases hbody _ (.refl _) with ⟨-, hafter⟩ | ⟨-, -, -, hfalse⟩
      · exact hafter.quiet
      · exact hfalse.elim
    · rw [after_of_error (bind_of_error (body_of_size_le (Nat.not_lt.1 hi) _))]
      exact .refl _

theorem quiet_visitWithin (d : Document) (depth : Nat) (i : NodeId) (c : Context)
    (hdepth : 0 < c.composeDepth) : c.Quiet (after (visitWithin d depth i) c) := by
  induction depth generalizing i c with
  | zero => exact .refl c
  | succ depth ih => exact quiet_step ih (retained_visitWithin d depth) hdepth

/-- So the members of a composition are visited without a question. -/
theorem hushed_collect (d : Document) (depth : Nat) (i : NodeId) (c : Context)
    (hdepth : 0 < c.composeDepth) : c.Hushed (after (collect (visitWithin d depth) i) c) := by
  have hvisit : ∀ j, Shadows c.Hushed (fun _ => False) (visitWithin d depth j) (visitWithin d depth j) := by
    refine fun j c' hc' => .inl ⟨rfl, hc'.trans ⟨retained_visitWithin d depth j c', ?_⟩⟩
    exact quiet_visitWithin d depth j c' (by rw [hc'.composeDepth]; exact hdepth)
  rcases shadows_collect (X := fun _ => False) (lasting_hushed c) hvisit i c (.refl c) with
    ⟨-, hafter⟩ | ⟨-, -, -, hfalse⟩
  · exact hafter
  · exact hfalse.elim

/-! ## What members bring in -/

theorem called_collectFrom (hretained : ∀ i (c : Context), c.Retained (after (v i) c))
    {collected gathered : OrderedMap Key NodeId} {members : List Json} (htidy : c.graph.Tidy)
    (hcalled : ∀ e ∈ collected, c.graph.Called e) (hdistinct : Distinct (keys collected))
    (h : collectFrom v i collected members c = .ok gathered c') :
    (∀ e ∈ gathered, c'.graph.Called e) ∧ Distinct (keys gathered) := by
  induction members generalizing c collected with
  | nil =>
    cases h
    exact ⟨hcalled, hdistinct⟩
  | cons schema rest ih =>
    obtain ⟨member, c₁, hbuild, h⟩ := bind_eq_ok_iff.1 h
    obtain ⟨u, c₂, hvisit, h⟩ := bind_eq_ok_iff.1 h
    obtain ⟨props, c₃, hprops, h⟩ := bind_eq_ok_iff.1 h
    have h₁ := (Build.moving_fromSchema (X := fun _ => False) (some i) schema c).retained
    rw [after_of_ok hbuild] at h₁
    have h₂ := hretained member c₁
    rw [after_of_ok hvisit] at h₂
    have hboth := h₁.trans h₂
    have htidy₂ := hboth.tidy htidy
    obtain ⟨hread, rfl⟩ := eq_ok_of_lift (show Run.lift (c₂.graph.propertiesOf member) c₂ = _ from hprops)
    refine ih htidy₂ (Graph.called_insertAll (fun e he => ?_) ?_) (distinct_keys_insertAll hdistinct _) h
    · exact (hcalled e he).grow fun j hj => (hboth.kept j hj).name
    · exact htidy₂.called_of_propertiesWithin hread

theorem called_collect {depth : Nat} {gathered : OrderedMap Key NodeId} (htidy : c.graph.Tidy)
    (h : collect (visitWithin d depth) i c = .ok gathered c') :
    (∀ e ∈ gathered, c'.graph.Called e) ∧ Distinct (keys gathered) := by
  obtain ⟨members, elements, -, -, hfrom⟩ := collectFrom_of_collect h
  have hdistinct : Distinct (keys ([] : OrderedMap Key NodeId)) := List.Pairwise.nil
  exact called_collectFrom (retained_visitWithin d depth) htidy (fun _ he => absurd he List.not_mem_nil)
    hdistinct hfrom

end Visit

end ApiGraph
