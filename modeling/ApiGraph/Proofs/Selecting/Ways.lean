import ApiGraph.Proofs.Drafting.Unwrapping

/-!
# What selections go to

The selection of a value goes through arrays, references and unions, but not through choices by `oneOf`,
which it goes into.

* `Graph.peeled?`, `Graph.Targets` — the way to what a selection goes to;
* `Graph.selectionTarget_eq_iff` — a selection goes there just if there is such a way;
* `Graph.IsCompound`, `Graph.IsPlain` — a value with a selection of its own, or without one;
* `Whole.visited_of_targets` — a selection goes to a node that was visited;
* `Context.Spares.targets`, `Context.Spares.isCompound_iff` — it goes there in every later graph.
-/

namespace ApiGraph

open OrderedMap Context

/-- Whether a node is a choice between shapes. -/
def Body.isChoice : Body → Bool
  | .union _ => true
  | .composed .oneOf _ => true
  | _ => false

namespace Graph

/-- The value that the selection of a value goes on to: the items of an array, where a reference leads,
and the kept shape of a union. -/
def peeled? (g : Graph) (i : NodeId) : Option (Option NodeId) :=
  match (g.node i).body with
  | .array items => some items
  | .ref link => some link.target
  | .union _ => some (g.unionVariant i).toOption.join
  | _ => none

/-- The selection of a value goes to a node. -/
def Targets (g : Graph) (value : Option NodeId) (t : NodeId) : Prop := ∃ n, LandsIn g.peeled? n value t

/-- A value needs a selection of its own: it unwraps to a node with fields. -/
def IsCompound (g : Graph) (value : Option NodeId) : Prop :=
  ∃ t, g.Unwraps value t ∧ g.hasFields t = true

/-- A value has no selection of its own: there is none, or it unwraps to a node without fields. -/
def IsPlain (g : Graph) (value : Option NodeId) : Prop :=
  value = none ∨ ∃ t, g.Unwraps value t ∧ g.hasFields t = false ∧ (g.node t).body.isChoice = false

variable {g g' : Graph} {n : Nat} {i k t t' : NodeId} {value : Option NodeId}

theorem Targets.unique (h : g.Targets value t) (h' : g.Targets value t') : t = t' := by
  obtain ⟨n, h⟩ := h
  obtain ⟨m, h'⟩ := h'
  exact (h.unique h').2

/-- A node that is neither array nor reference nor union is where its selection goes. -/
theorem targets_self (h : g.peeled? i = none) : g.Targets (some i) i := ⟨0, .last h⟩

theorem lt_size_of_peeled? {v : Option NodeId} (h : g.peeled? i = some v) : i.index < g.size := by
  refine Nat.lt_of_not_le fun hle => ?_
  rw [peeled?, node_of_size_le hle] at h
  cases h

theorem selectionTargetWithin_of_peeled? {v : Option NodeId} (h : g.peeled? i = some v) (steps : Nat)
    (ht : g.selectionTargetWithin steps v = .ok (some t)) :
    g.selectionTargetWithin (steps + 1) (some i) = .ok (some t) := by
  rw [selectionTargetWithin]
  rcases hbody : (g.node i).body with _ | _ | _ | items | shapes | _ | link | _ | _ <;>
    simp only [peeled?, hbody, reduceCtorEq, Option.some.injEq] at h <;> subst h
  · exact ht
  · cases hvariant : g.unionVariant i with
    | error fault =>
      rw [hvariant] at ht
      cases steps <;> cases ht
    | ok v =>
      rw [hvariant] at ht
      exact ht
  · exact ht

theorem selectionTargetWithin_of_peeled?_eq_none (h : g.peeled? i = none) (steps : Nat) :
    g.selectionTargetWithin (steps + 1) (some i) = .ok (some i) := by
  rw [selectionTargetWithin]
  rcases hbody : (g.node i).body with _ | _ | _ | items | shapes | _ | link | _ | _ <;>
    simp only [peeled?, hbody, reduceCtorEq] at h <;> rfl

theorem selectionTargetWithin_of_lands {steps : Nat} (h : LandsIn g.peeled? n value t)
    (hsteps : n < steps) : g.selectionTargetWithin steps value = .ok (some t) := by
  induction h generalizing steps with
  | last hlast =>
    obtain ⟨steps, rfl⟩ : ∃ m, steps = m + 1 := ⟨steps - 1, by omega⟩
    exact selectionTargetWithin_of_peeled?_eq_none hlast steps
  | step hnext _ ih =>
    obtain ⟨steps, rfl⟩ : ∃ m, steps = m + 1 := ⟨steps - 1, by omega⟩
    exact selectionTargetWithin_of_peeled? hnext steps (ih (by omega))

theorem exists_lands_of_selectionTargetWithin {steps : Nat}
    (h : g.selectionTargetWithin steps value = .ok (some t)) : g.Targets value t := by
  induction steps generalizing value with
  | zero => cases h
  | succ steps ih =>
    cases value with
    | none => cases h
    | some i =>
      have hstep : ∀ v, g.peeled? i = some v → g.Targets v t → g.Targets (some i) t := by
        rintro v hv ⟨n, hway⟩
        exact ⟨n + 1, .step hv hway⟩
      rw [selectionTargetWithin] at h
      split at h
      · next items hbody => exact hstep items (by rw [peeled?, hbody]) (ih h)
      · next link hbody => exact hstep link.target (by rw [peeled?, hbody]) (ih h)
      · next shapes hbody =>
        cases hvariant : g.unionVariant i with
        | error fault =>
          rw [hvariant] at h
          cases h
        | ok v =>
          rw [hvariant] at h
          exact hstep v (by rw [peeled?, hbody, hvariant]; rfl) (ih h)
      · next harray href hunion =>
        cases h
        refine targets_self ?_
        rw [peeled?]
        split
        · next items hbody => exact absurd hbody (harray items)
        · next link hbody => exact absurd hbody (href link)
        · next shapes hbody => exact absurd hbody (hunion shapes)
        · rfl

theorem selectionTarget_eq_iff : g.selectionTarget value = .ok (some t) ↔ g.Targets value t := by
  refine ⟨exists_lands_of_selectionTargetWithin, ?_⟩
  rintro ⟨n, hway⟩
  have := hway.add_length_le (fun _ _ => lt_size_of_peeled?) List.nodup_nil (by simp) (by simp)
  exact selectionTargetWithin_of_lands hway (by rw [List.length_nil] at this; omega)

/-! ## Followed nodes -/

theorem mem_followed_of_firstChild {n : Node} (h : n.firstChild = .ok (some k)) : k ∈ n.followed := by
  rcases hn : n.children with _ | ⟨first, rest⟩ <;> rw [Node.firstChild, hn] at h
  · cases h
  · obtain rfl : first = some k := Except.ok.inj h
    simp [Node.followed, hn]

theorem mem_followed_of_unionVariant (h : g.unionVariant i = .ok (some k)) :
    k ∈ (g.node i).followed := by
  simp only [unionVariant] at h
  split at h
  · exact mem_followed_of_firstChild h
  · cases h

theorem mem_followed_of_unionOf (h : g.unionOf i = .ok (some k)) : k ∈ (g.node i).followed := by
  simp only [unionOf] at h
  split at h
  · exact mem_followed_of_firstChild h
  · cases h

/-- The shape of a choice is that of its union. -/
theorem exists_union_of_oneOfVariant {v : Option NodeId} (h : g.oneOfVariant i = .ok v) :
    ∃ u, g.unionOf i = .ok (some u) ∧ g.unionVariant u = .ok v := by
  rw [oneOfVariant] at h
  cases hunion : g.unionOf i with
  | error fault =>
    rw [hunion] at h
    cases h
  | ok u =>
    rw [hunion] at h
    cases u with
    | none => cases h
    | some u => exact ⟨u, rfl, h⟩

theorem mem_followed_of_peeled? (h : g.peeled? i = some (some k)) : k ∈ (g.node i).followed := by
  rcases hbody : (g.node i).body with _ | _ | _ | items | shapes | _ | link | _ | _ <;>
    simp only [peeled?, hbody, reduceCtorEq, Option.some.injEq] at h
  · simp [Node.followed, Node.items?, hbody, h]
  · refine mem_followed_of_unionVariant ?_
    cases hvariant : g.unionVariant i with
    | error fault =>
      rw [hvariant] at h
      cases h
    | ok v =>
      rw [hvariant] at h
      exact congrArg _ h
  · simp [Node.followed, Node.target?, Body.link?, hbody, h]

end Graph

/-! ## Later graphs -/

namespace Graph

variable {n : Nat} {t : NodeId} {value : Option NodeId}

/-- Ways stay what they are as long as they go through nodes from which they go on alike. -/
theorem LandsIn.congr {next next' : NodeId → Option (Option NodeId)} {V : NodeId → Prop}
    (h : LandsIn next n value t) (hvalue : ∀ i, value = some i → V i)
    (hclosed : ∀ i k, V i → next i = some (some k) → V k) (hsame : ∀ i, V i → next' i = next i) :
    LandsIn next' n value t ∧ V t := by
  induction h with
  | @last t hlast =>
    have ht := hvalue t rfl
    exact ⟨.last ((hsame t ht).trans hlast), ht⟩
  | @step n i t v hnext _ ih =>
    have hi := hvalue i rfl
    obtain ⟨hway, ht⟩ := ih fun k hk => hclosed i k hi (hk ▸ hnext)
    exact ⟨.step ((hsame i hi).trans hnext) hway, ht⟩

end Graph

section

variable {A : NodeId → Prop} {c : Context} {g : Graph} {i k t : NodeId} {value : Option NodeId}
  (hw : Whole A (fun _ => False) c)

include hw in
theorem Whole.visited_of_peeled? (hi : c.Visited i) (hk : c.graph.peeled? i = some (some k)) :
    c.Visited k :=
  hw.led_visited hi (Graph.mem_followed_of_peeled? hk)

include hw in
theorem Whole.visited_of_unionOf (hi : c.Visited i) (hk : c.graph.unionOf i = .ok (some k)) :
    c.Visited k :=
  hw.led_visited hi (Graph.mem_followed_of_unionOf hk)

include hw in
theorem Whole.visited_of_inner? (hi : c.Visited i) (hk : c.graph.inner? i = some (some k)) :
    c.Visited k := by
  rcases hbody : (c.graph.node i).body with _ | _ | _ | items | shapes | ⟨_ | _, parts⟩ | link | _ | _ <;>
    simp only [Graph.inner?, hbody, reduceCtorEq, Option.some.injEq] at hk
  · exact hw.visited_of_peeled? hi (by rw [Graph.peeled?, hbody, hk])
  · cases hvariant : c.graph.unionVariant i with
    | error fault =>
      rw [hvariant] at hk
      cases hk
    | ok v =>
      rw [hvariant] at hk
      cases hk
      exact hw.led_visited hi (Graph.mem_followed_of_unionVariant hvariant)
  · cases hvariant : c.graph.oneOfVariant i with
    | error fault =>
      rw [hvariant] at hk
      cases hk
    | ok v =>
      rw [hvariant] at hk
      cases hk
      obtain ⟨u, hu, hv⟩ := Graph.exists_union_of_oneOfVariant hvariant
      exact hw.led_visited (hw.visited_of_unionOf hi hu) (Graph.mem_followed_of_unionVariant hv)
  · exact hw.visited_of_peeled? hi (by rw [Graph.peeled?, hbody]; exact congrArg some hk)

include hw in
/-- A visited node unwraps to another one, or it is no choice. -/
theorem Whole.inner?_cases (hi : c.Visited i) : (∃ k, c.graph.inner? i = some (some k)) ∨
    c.graph.inner? i = none ∧ (c.graph.node i).body.isChoice = false := by
  have hripe := hw.ripe i hi
  have hvariant : ∀ {u shapes}, c.Visited u → (c.graph.node u).body = .union shapes →
      ∃ v, c.graph.unionVariant u = .ok (some v) := by
    intro u shapes hu hbody
    obtain ⟨first, rest, v, -, hchildren, -⟩ := (hw.ripe u hu).union shapes hbody
    exact ⟨v, by simp [Graph.unionVariant, Node.firstChild, hbody, hchildren, expect]⟩
  rcases hbody : (c.graph.node i).body with _ | _ | _ | items | shapes | ⟨_ | _, parts⟩ | link | _ | _ <;>
    simp only [Graph.inner?, hbody, Body.isChoice, reduceCtorEq, exists_false, and_self, or_true]
  · obtain ⟨k, rfl, -⟩ := hripe.items items hbody
    exact .inl ⟨k, rfl⟩
  · obtain ⟨v, hv⟩ := hvariant hi hbody
    exact .inl ⟨v, by rw [hv]; rfl⟩
  · obtain ⟨declared, shapes, u, -, -, hchildren, -, -, hunion⟩ := hripe.oneOf parts hbody
    have hu : c.graph.unionOf i = .ok (some u) := by
      simp [Graph.unionOf, Node.firstChild, hbody, hchildren, expect]
    obtain ⟨v, hv⟩ := hvariant (hw.visited_of_unionOf hi hu) hunion
    refine .inl ⟨v, ?_⟩
    have hone : c.graph.oneOfVariant i = .ok (some v) := by
      rw [Graph.oneOfVariant, hu]
      exact hv
    rw [hone]
    rfl
  · obtain ⟨t, ht, -⟩ := hripe.target link (by rw [hbody]; rfl)
    exact .inl ⟨t, congrArg some ht⟩

include hw in
/-- A visited value that is known to need no selection of its own has none. -/
theorem Whole.isPlain_of_isCompound (hvalue : ∀ i, value = some i → c.Visited i)
    (h : c.graph.isCompound value = .ok false) : c.graph.IsPlain value := by
  rw [Graph.isCompound] at h
  generalize c.graph.size + 2 = steps at h
  induction steps generalizing value with
  | zero => cases h
  | succ steps ih =>
    cases value with
    | none => exact .inl rfl
    | some i =>
      have hi := hvalue i rfl
      rcases hw.inner?_cases hi with ⟨k, hk⟩ | ⟨hends, hplain⟩
      · rw [Graph.isCompoundWithin_of_inner? hk] at h
        have hvisited := hw.visited_of_inner? hi hk
        obtain hnone | ⟨t, ⟨n, hway⟩, ht⟩ := ih (fun j hj => Option.some.inj hj ▸ hvisited) h
        · cases hnone
        · exact .inr ⟨t, ⟨n + 1, .step hk hway⟩, ht⟩
      · refine .inr ⟨i, ⟨0, .last hends⟩, Bool.eq_false_iff.2 fun hfields => ?_, hplain⟩
        rw [(Graph.isCompoundWithin_of_inner?_eq_none hends steps).2 hfields] at h
        cases h

include hw in
/-- A selection goes to a node that was visited. -/
theorem Whole.visited_of_targets (hvalue : ∀ i, value = some i → c.Visited i)
    (ht : c.graph.Targets value t) : c.Visited t := by
  obtain ⟨n, hway⟩ := ht
  exact (hway.congr hvalue (fun i k hi => hw.visited_of_peeled? hi) fun _ _ => rfl).2

namespace Context.Spares

theorem unionOf (h : c.Spares g) (hi : c.Visited i) : g.unionOf i = c.graph.unionOf i := by
  rw [Graph.unionOf, Graph.unionOf, h i hi]

theorem peeled? (h : c.Spares g) (hi : c.Visited i) : g.peeled? i = c.graph.peeled? i := by
  rw [Graph.peeled?, Graph.peeled?, Graph.unionVariant, Graph.unionVariant, h i hi]

include hw in
theorem inner? (h : c.Spares g) (hi : c.Visited i) : g.inner? i = c.graph.inner? i := by
  have hvariant : g.oneOfVariant i = c.graph.oneOfVariant i := by
    rw [Graph.oneOfVariant, Graph.oneOfVariant, h.unionOf hi]
    rcases hunion : c.graph.unionOf i with fault | _ | u
    · rfl
    · rfl
    · show g.unionVariant u = c.graph.unionVariant u
      rw [Graph.unionVariant, Graph.unionVariant, h u (hw.visited_of_unionOf hi hunion)]
  rw [Graph.inner?, Graph.inner?, hvariant, Graph.unionVariant, Graph.unionVariant, h i hi]

theorem hasFields (h : c.Spares g) (hi : c.Visited i) : g.hasFields i = c.graph.hasFields i := by
  rw [Graph.hasFields, Graph.hasFields, h i hi]

include hw in
/-- A selection goes where it went. -/
theorem targets (h : c.Spares g) (hvalue : ∀ i, value = some i → c.Visited i)
    (ht : c.graph.Targets value t) : g.Targets value t := by
  obtain ⟨n, hway⟩ := ht
  exact ⟨n, (hway.congr hvalue (fun i k hi => hw.visited_of_peeled? hi) fun i hi => h.peeled? hi).1⟩

include hw in
/-- A value is compound if it was. -/
theorem isCompound_iff (h : c.Spares g) (hvalue : ∀ i, value = some i → c.Visited i) :
    g.IsCompound value ↔ c.graph.IsCompound value := by
  have hclosed : ∀ i k, c.Visited i → c.graph.inner? i = some (some k) → c.Visited k :=
    fun i k hi => hw.visited_of_inner? hi
  have hsame : ∀ i, c.Visited i → g.inner? i = c.graph.inner? i := fun i hi => h.inner? hw hi
  constructor
  · rintro ⟨t, ⟨n, hway⟩, hfields⟩
    obtain ⟨hway', ht⟩ := hway.congr hvalue (fun i k hi hk => hclosed i k hi (hsame i hi ▸ hk))
      fun i hi => (hsame i hi).symm
    exact ⟨t, ⟨n, hway'⟩, by rwa [← h.hasFields ht]⟩
  · rintro ⟨t, ⟨n, hway⟩, hfields⟩
    obtain ⟨hway', ht⟩ := hway.congr hvalue hclosed hsame
    exact ⟨t, ⟨n, hway'⟩, by rwa [h.hasFields ht]⟩

include hw in
/-- A value is plain if it was. -/
theorem isPlain (h : c.Spares g) (hvalue : ∀ i, value = some i → c.Visited i)
    (hplain : c.graph.IsPlain value) : g.IsPlain value := by
  refine hplain.imp_right ?_
  rintro ⟨t, ⟨n, hway⟩, hfields, hchoice⟩
  obtain ⟨hway', ht⟩ := hway.congr hvalue (fun i k hi => hw.visited_of_inner? hi)
    fun i hi => h.inner? hw hi
  exact ⟨t, ⟨n, hway'⟩, by rwa [h.hasFields ht], by rwa [h t ht]⟩

end Context.Spares

end

end ApiGraph
