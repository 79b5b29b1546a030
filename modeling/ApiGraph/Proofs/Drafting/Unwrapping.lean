import ApiGraph.Definitions.Draft
import ApiGraph.Proofs.Finishing.Finished

/-!
# Unwrapping values

What a value stands for once arrays, references and choices are unwrapped.

* `Graph.LandsIn` — the last node of a way, however its steps are made;
* `Graph.inner?`, `Graph.Unwraps` — the way through arrays, references and choices;
* `Graph.spoken?`, `Graph.Expresses` — the way of a type expression, which also goes through properties
  and parameters;
* `Graph.hasFields` — the nodes that are written with fields;
* `Graph.isCompound_eq_true_iff` — a value needs a selection of its own just if it unwraps to one;
* `Context.Finished.visited_of_inlineTarget` — the node that a value gives a name to.
-/

namespace ApiGraph

open OrderedMap

namespace Graph

/-- Whether a node is written with fields: an object or a composition by `allOf` with properties. -/
def hasFields (g : Graph) (i : NodeId) : Bool :=
  match (g.node i).body with
  | .object => !(g.node i).props.isEmpty
  | .composed .allOf _ => !(g.node i).props.isEmpty
  | _ => false

theorem body_of_hasFields {g : Graph} {i : NodeId} (h : g.hasFields i = true) :
    (g.node i).body = .object ∨ ∃ parts, (g.node i).body = .composed .allOf parts := by
  rcases hbody : (g.node i).body with _ | _ | _ | _ | _ | ⟨_ | _, parts⟩ | _ | _ | _ <;>
    simp [hasFields, hbody] at h ⊢

theorem slot?_of_hasFields {g : Graph} {i : NodeId} (h : g.hasFields i = true) :
    (g.node i).slot? = none := by
  rcases body_of_hasFields h with hbody | ⟨parts, hbody⟩ <;> rw [Node.slot?, hbody]

/-! ## Ways -/

/-- A way from a value to a node, in a number of steps, that goes no further. It may also end where
there is no node, or come back to where it was; then it lands nowhere. -/
inductive LandsIn (next : NodeId → Option (Option NodeId)) : Nat → Option NodeId → NodeId → Prop where
  | last {t : NodeId} (ends : next t = none) : LandsIn next 0 (some t) t
  | step {n : Nat} {i t : NodeId} {v : Option NodeId} (goes : next i = some v)
      (rest : LandsIn next n v t) : LandsIn next (n + 1) (some i) t

/-- The value that a value is unwrapped to next: the items of an array, where a reference leads, and the
kept shape of a choice. -/
def inner? (g : Graph) (i : NodeId) : Option (Option NodeId) :=
  match (g.node i).body with
  | .array items => some items
  | .ref link => some link.target
  | .union _ => (g.unionVariant i).toOption
  | .composed .oneOf _ => (g.oneOfVariant i).toOption
  | _ => none

/-- The value that a type expression goes on to: what a value is unwrapped to, and the value of a
property or parameter. -/
def spoken? (g : Graph) (i : NodeId) : Option (Option NodeId) :=
  match (g.node i).body with
  | .property _ _ _ => some (g.node i).valueType?
  | .parameter slot => some slot.type
  | _ => g.inner? i

/-- A value unwraps to a node. -/
def Unwraps (g : Graph) (value : Option NodeId) (t : NodeId) : Prop := ∃ n, LandsIn g.inner? n value t

/-- A type expression for a value is one for a node. -/
def Expresses (g : Graph) (value : Option NodeId) (t : NodeId) : Prop :=
  ∃ n, LandsIn g.spoken? n value t

variable {g : Graph} {next : NodeId → Option (Option NodeId)} {n m : Nat} {i k t t' : NodeId}
  {value : Option NodeId}

/-- A way lands in one place. -/
theorem LandsIn.unique (h : LandsIn next n value t) (h' : LandsIn next m value t') :
    n = m ∧ t = t' := by
  induction h generalizing m with
  | last hlast =>
    cases h' with
    | last => exact ⟨rfl, rfl⟩
    | step hnext =>
      rw [hlast] at hnext
      cases hnext
  | step hnext _ ih =>
    cases h' with
    | last hlast =>
      rw [hlast] at hnext
      cases hnext
    | step hnext' hrest' =>
      obtain rfl := Option.some.inj (hnext.symm.trans hnext')
      obtain ⟨rfl, rfl⟩ := ih hrest'
      exact ⟨rfl, rfl⟩

theorem Unwraps.unique (h : g.Unwraps value t) (h' : g.Unwraps value t') : t = t' := by
  obtain ⟨n, h⟩ := h
  obtain ⟨m, h'⟩ := h'
  exact (h.unique h').2

/-- No node is met twice on a way, so it is not longer than there are nodes. -/
theorem LandsIn.add_length_le (h : LandsIn next n value t)
    (hsize : ∀ i v, next i = some v → i.index < g.size) {seen : List NodeId} (hnodup : seen.Nodup)
    (hlt : ∀ j ∈ seen, j.index < g.size)
    (hseen : ∀ j ∈ seen, ∃ m, n < m ∧ LandsIn next m (some j) t) : n + seen.length ≤ g.size := by
  induction h generalizing seen with
  | last =>
    rw [Nat.zero_add]
    exact length_le_size hnodup hlt
  | @step n i t v hnext hrest ih =>
    have hnew : i ∉ seen := by
      intro hmem
      obtain ⟨m, hm, hway⟩ := hseen i hmem
      have := (hway.unique (.step hnext hrest)).1
      omega
    have hmore := ih (List.nodup_cons.2 ⟨hnew, hnodup⟩)
      (List.forall_mem_cons.2 ⟨hsize i v hnext, hlt⟩)
      (List.forall_mem_cons.2 ⟨⟨n + 1, Nat.lt_succ_self n, .step hnext hrest⟩, fun j hj => by
        obtain ⟨m, hm, hway⟩ := hseen j hj
        exact ⟨m, by omega, hway⟩⟩)
    rw [List.length_cons] at hmore
    omega

theorem lt_size_of_inner? {v : Option NodeId} (h : g.inner? i = some v) : i.index < g.size := by
  refine Nat.lt_of_not_le fun hle => ?_
  rw [inner?, node_of_size_le hle] at h
  cases h

theorem spoken?_of_inner? {v : Option NodeId} (h : g.inner? i = some v) : g.spoken? i = some v := by
  rw [spoken?]
  split
  · next hbody => simp [inner?, hbody] at h
  · next hbody => simp [inner?, hbody] at h
  · exact h

/-- Ways end at a type with fields. -/
theorem inner?_of_hasFields (h : g.hasFields i = true) : g.inner? i = none := by
  rcases body_of_hasFields h with hbody | ⟨parts, hbody⟩ <;> rw [inner?, hbody]

theorem spoken?_of_hasFields (h : g.hasFields i = true) : g.spoken? i = none := by
  rcases body_of_hasFields h with hbody | ⟨parts, hbody⟩ <;> simp [spoken?, inner?, hbody]

/-- What a value unwraps to is what a type expression for it is about. -/
theorem Unwraps.expresses (h : g.Unwraps value t) (hfields : g.hasFields t = true) :
    g.Expresses value t := by
  obtain ⟨n, h⟩ := h
  refine ⟨n, ?_⟩
  induction h with
  | last => exact .last (spoken?_of_hasFields hfields)
  | step hnext _ ih => exact .step (spoken?_of_inner? hnext) (ih hfields)

/-! ## Values with a selection of their own -/

theorem isCompoundWithin_of_inner? {v : Option NodeId} (h : g.inner? i = some v) (steps : Nat) :
    g.isCompoundWithin (steps + 1) (some i) = g.isCompoundWithin steps v := by
  rw [isCompoundWithin]
  rcases hbody : (g.node i).body with _ | _ | _ | items | shapes | ⟨_ | _, parts⟩ | link | _ | _ <;>
    simp only [inner?, hbody, reduceCtorEq] at h
  · rw [Option.some.inj h]
  · cases hvariant : g.unionVariant i with
    | ok u =>
      rw [hvariant] at h
      rw [Option.some.inj h]
      rfl
    | error fault =>
      rw [hvariant] at h
      cases h
  · cases hvariant : g.oneOfVariant i with
    | ok u =>
      rw [hvariant] at h
      rw [Option.some.inj h]
      rfl
    | error fault =>
      rw [hvariant] at h
      cases h
  · dsimp only
    rw [Option.some.inj h]

/-- At the end of a way only a node with fields needs a selection. -/
theorem isCompoundWithin_of_inner?_eq_none (h : g.inner? i = none) (steps : Nat) :
    g.isCompoundWithin (steps + 1) (some i) = .ok true ↔ g.hasFields i = true := by
  rw [isCompoundWithin]
  rcases hbody : (g.node i).body with _ | _ | _ | items | shapes | ⟨_ | _, parts⟩ | link | _ | _ <;>
    simp only [inner?, hbody, reduceCtorEq] at h <;> simp [hasFields, hbody]
  · cases hvariant : g.unionVariant i with
    | ok u =>
      rw [hvariant] at h
      cases h
    | error fault => rintro ⟨⟩
  · cases hvariant : g.oneOfVariant i with
    | ok u =>
      rw [hvariant] at h
      cases h
    | error fault => rintro ⟨⟩

theorem isCompoundWithin_of_lands (h : LandsIn g.inner? n value t) (hfields : g.hasFields t = true)
    {steps : Nat} (hsteps : n < steps) : g.isCompoundWithin steps value = .ok true := by
  induction h generalizing steps with
  | last hlast =>
    obtain ⟨steps, rfl⟩ : ∃ m, steps = m + 1 := ⟨steps - 1, by omega⟩
    exact (isCompoundWithin_of_inner?_eq_none hlast steps).2 hfields
  | step hnext _ ih =>
    obtain ⟨steps, rfl⟩ : ∃ m, steps = m + 1 := ⟨steps - 1, by omega⟩
    rw [isCompoundWithin_of_inner? hnext]
    exact ih hfields (by omega)

theorem exists_unwraps_of_isCompoundWithin {steps : Nat}
    (h : g.isCompoundWithin steps value = .ok true) : ∃ t, g.Unwraps value t ∧ g.hasFields t = true := by
  induction steps generalizing value with
  | zero => cases h
  | succ steps ih =>
    cases value with
    | none => cases h
    | some i =>
      cases hinner : g.inner? i with
      | none =>
        rw [isCompoundWithin_of_inner?_eq_none hinner] at h
        exact ⟨i, ⟨0, .last hinner⟩, h⟩
      | some v =>
        rw [isCompoundWithin_of_inner? hinner] at h
        obtain ⟨t, ⟨n, hway⟩, hfields⟩ := ih h
        exact ⟨t, ⟨n + 1, .step hinner hway⟩, hfields⟩

/-- A value needs a selection of its own just if it unwraps to a node with fields. -/
theorem isCompound_eq_true_iff :
    g.isCompound value = .ok true ↔ ∃ t, g.Unwraps value t ∧ g.hasFields t = true := by
  refine ⟨exists_unwraps_of_isCompoundWithin, ?_⟩
  rintro ⟨t, ⟨n, hway⟩, hfields⟩
  have := hway.add_length_le (fun _ _ => lt_size_of_inner?) List.nodup_nil (by simp) (by simp)
  exact isCompoundWithin_of_lands hway hfields (by omega)

end Graph

/-! ## Visited values -/

namespace Whole

variable {A : NodeId → Prop} {c : Context} {i k : NodeId}

/-- The kept shape of a visited union is followed. -/
theorem exists_unionVariant (hw : Whole A (fun _ => False) c) (hi : c.Visited i) {shapes : List Json}
    (hbody : (c.graph.node i).body = .union shapes) :
    ∃ v, c.graph.unionVariant i = .ok (some v) ∧ v ∈ (c.graph.node i).followed := by
  obtain ⟨first, rest, v, -, hchildren, -, -⟩ := (hw.ripe i hi).union shapes hbody
  refine ⟨v, ?_, by simp [Node.followed, hchildren]⟩
  simp [Graph.unionVariant, hbody, Node.firstChild, hchildren, expect]

/-- The kept shape of a visited choice is followed from its union. -/
theorem exists_oneOfVariant (hw : Whole A (fun _ => False) c) (hi : c.Visited i) {parts : Option Json}
    (hbody : (c.graph.node i).body = .composed .oneOf parts) :
    ∃ u v, c.graph.oneOfVariant i = .ok (some v) ∧ u ∈ (c.graph.node i).followed ∧
      v ∈ (c.graph.node u).followed := by
  obtain ⟨declared, shapes, u, -, -, hchildren, -, -, hunion⟩ := (hw.ripe i hi).oneOf parts hbody
  have hu : u ∈ (c.graph.node i).followed := by simp [Node.followed, hchildren]
  obtain ⟨v, hv, hfollowed⟩ := hw.exists_unionVariant (hw.led_visited hi hu) hunion
  refine ⟨u, v, ?_, hu, hfollowed⟩
  rw [← hv]
  simp [Graph.oneOfVariant, Graph.unionOf, hbody, Node.firstChild, hchildren, expect, bind, Except.bind]

/-- What a visited node speaks of is followed from a visited node. -/
theorem exists_followed_of_spoken? (hw : Whole A (fun _ => False) c) (hi : c.Visited i)
    (hk : c.graph.spoken? i = some (some k)) : ∃ j, c.Visited j ∧ k ∈ (c.graph.node j).followed := by
  rcases hbody : (c.graph.node i).body with
    _ | _ | _ | items | shapes | ⟨_ | _, parts⟩ | link | ⟨slot, arguments, link⟩ | slot <;>
    simp only [Graph.spoken?, Graph.inner?, hbody, reduceCtorEq, Option.some.injEq] at hk
  · exact ⟨i, hi, by simp [Node.followed, Node.items?, hbody, hk]⟩
  · obtain ⟨v, hv, hfollowed⟩ := hw.exists_unionVariant hi hbody
    rw [hv] at hk
    cases hk
    exact ⟨i, hi, hfollowed⟩
  · obtain ⟨u, v, hv, hu, hfollowed⟩ := hw.exists_oneOfVariant hi hbody
    rw [hv] at hk
    cases hk
    exact ⟨u, hw.led_visited hi hu, hfollowed⟩
  · exact ⟨i, hi, by simp [Node.followed, Node.target?, Body.link?, hbody, hk]⟩
  · exact ⟨i, hi, Node.mem_followed_of_valueType? hk⟩
  · exact ⟨i, hi, by simp [Node.followed, Node.type?, Node.slot?, hbody, hk]⟩

end Whole

namespace Context.Finished

open Context Drafting

variable {d : Document} {query : NodeId} {c : Context} {i k t : NodeId}

/-- The kept shape of a choice was visited, and is not the query object. -/
theorem oneOf (h : c.Finished d query) (hi : c.Visited i) {parts : Option Json}
    (hbody : (c.graph.node i).body = .composed .oneOf parts) :
    ∃ v, c.graph.oneOfVariant i = .ok (some v) ∧ c.Visited v ∧ v ≠ query := by
  obtain ⟨A, hw, -⟩ := h.whole
  obtain ⟨u, v, hv, hu, hfollowed⟩ := hw.exists_oneOfVariant hi hbody
  exact ⟨v, hv, h.led (hw.led_visited hi hu) hfollowed⟩

theorem union (h : c.Finished d query) (hi : c.Visited i) {shapes : List Json}
    (hbody : (c.graph.node i).body = .union shapes) :
    ∃ v, c.graph.unionVariant i = .ok (some v) ∧ c.Visited v ∧ v ≠ query := by
  obtain ⟨A, hw, -⟩ := h.whole
  obtain ⟨v, hv, hfollowed⟩ := hw.exists_unionVariant hi hbody
  exact ⟨v, hv, h.led hi hfollowed⟩

/-- The node that a value gives a name to was visited, and is not the query object. -/
theorem visited_of_inlineTarget (h : c.Finished d query) (hi : c.Visited i ∧ i ≠ query) {steps : Nat}
    (ht : inlineTarget c.graph steps (some i) = .ok (some t)) : c.Visited t ∧ t ≠ query := by
  induction steps generalizing i with
  | zero => cases ht
  | succ steps ih =>
    rw [inlineTarget] at ht
    split at ht
    · next items hbody =>
      obtain ⟨k, rfl, -⟩ := (h.ripe hi.1).items items hbody
      exact ih (h.led hi.1 (by simp [Node.followed, Node.items?, hbody])) ht
    · next shapes hbody =>
      obtain ⟨v, hv, hvisited⟩ := h.union hi.1 hbody
      rw [hv] at ht
      exact ih hvisited ht
    · next parts hbody =>
      split at ht
      · obtain ⟨v, hv, hvisited⟩ := h.oneOf hi.1 hbody
        rw [hv] at ht
        exact ih hvisited ht
      · cases ht
        exact hi
    · cases ht
      exact hi

/-- The kept shape of a union or choice was visited, and is not the query object. -/
theorem visited_of_variantOf (h : c.Finished d query) (hi : c.Visited i)
    (ht : variantOf c.graph i = .ok (some t)) : c.Visited t ∧ t ≠ query := by
  rw [variantOf] at ht
  split at ht
  · next parts hbody =>
    obtain ⟨v, hv, hvisited⟩ := h.oneOf hi hbody
    rw [hv] at ht
    cases ht
    exact hvisited
  · next shapes hbody =>
    obtain ⟨v, hv, hvisited⟩ := h.union hi hbody
    rw [hv] at ht
    cases ht
    exact hvisited
  · cases ht

/-- The value of a visited property was visited, and is not the query object. -/
theorem visited_of_valueType? (h : c.Finished d query) (hi : c.Visited i)
    (hk : (c.graph.node i).valueType? = some k) : c.Visited k ∧ k ≠ query :=
  h.led hi (Node.mem_followed_of_valueType? hk)

/-- What a visited node speaks of was visited, and is not the query object. -/
theorem led_spoken? (h : c.Finished d query) (hi : c.Visited i)
    (hk : c.graph.spoken? i = some (some k)) : c.Visited k ∧ k ≠ query := by
  obtain ⟨A, hw, -⟩ := h.whole
  obtain ⟨j, hj, hfollowed⟩ := hw.exists_followed_of_spoken? hi hk
  exact h.led hj hfollowed

/-- What the type expression for a visited value is about is not the query object. -/
theorem ne_query_of_expresses (h : c.Finished d query) (hi : c.Visited i ∧ i ≠ query)
    (ht : c.graph.Expresses (some i) t) : t ≠ query := by
  obtain ⟨n, hway⟩ := ht
  generalize hvalue : some i = value at hway
  induction hway generalizing i with
  | last =>
    cases hvalue
    exact hi.2
  | step goes rest ih =>
    cases hvalue
    cases rest with
    | last => exact (h.led_spoken? hi.1 goes).2
    | step goes' rest' => exact ih (h.led_spoken? hi.1 goes) rfl

end Context.Finished

/-- What a sprout speaks of is in its tree. -/
theorem Sprout.spoken?_mem_below {g : Graph} {i k : NodeId} {top : Nat} (h : Sprout g i top)
    (hk : g.spoken? i = some (some k)) : k ∈ (g.node i).below := by
  have hbud := h.bud
  rcases hbody : (g.node i).body with
    _ | _ | _ | items | shapes | ⟨_ | _, parts⟩ | link | ⟨slot, arguments, _ | link⟩ | slot <;>
    simp only [Graph.spoken?, Graph.inner?, hbody, reduceCtorEq, Option.some.injEq, Node.valueType?]
      at hk
  · simp [Node.below, hbody, hk]
  · have hnone := hbud.children_eq_nil (by simp [Node.below, hbody])
    simp [Graph.unionVariant, hbody, Node.firstChild, hnone, expect, Except.toOption] at hk
  · have hnone := hbud.children_eq_nil (by simp [Node.below, hbody])
    simp [Graph.oneOfVariant, Graph.unionOf, hbody, Node.firstChild, hnone, expect, Except.toOption,
      bind, Except.bind] at hk
  · have htarget := hbud.target
    simp [Node.target?, Body.link?, hbody, hk] at htarget
  · simp [Node.below, hbody, hk]
  · have htarget := hbud.target
    simp [Node.target?, Body.link?, hbody, hk] at htarget
  · simp [Node.below, hbody, hk]

/-- What the type expression for a sprout is about comes after its root. -/
theorem Sprout.le_of_expresses {g : Graph} {i t : NodeId} {top : Nat} (h : Sprout g i top)
    (ht : g.Expresses (some i) t) : i.index ≤ t.index := by
  obtain ⟨n, hway⟩ := ht
  generalize hvalue : some i = value at hway
  induction hway generalizing i top with
  | last =>
    cases hvalue
    exact le_rfl
  | step goes rest ih =>
    cases hvalue
    cases rest with
    | last => exact (h.tree_bounds (Tree.head (h.spoken?_mem_below goes) (.refl _ _))).1
    | @step _ k _ _ goes' rest' =>
      obtain ⟨top', hsprout, hle, -⟩ :=
        h.of_tree (Tree.head (h.spoken?_mem_below goes) (.refl _ _))
      exact hle.trans (ih hsprout rfl)

namespace Context.Finished

variable {d : Document} {query : NodeId} {c : Context} {i a t : NodeId}

/-- What the type expression for an argument is about is not the query object, whether the argument was
visited or not. -/
theorem ne_query_of_argument (h : c.Finished d query) (hi : c.Visited i)
    (ha : some a ∈ (c.graph.node i).arguments) {type : Option NodeId}
    (htype : (c.graph.node a).type? = some type) (ht : c.graph.Expresses type t) : t ≠ query := by
  obtain ⟨k, rfl⟩ : ∃ k, type = some k := by
    obtain ⟨n, hway⟩ := ht
    cases hway <;> exact ⟨_, rfl⟩
  by_cases hlink : (c.graph.node i).body.link?.isSome = true
  · obtain ⟨A, hw, hsprigs⟩ := h.whole
    obtain ⟨link, hlink⟩ := Option.isSome_iff_exists.1 hlink
    have hA : A a := by
      rcases hbody : (c.graph.node i).body with _ | _ | _ | _ | _ | _ | _ | ⟨slot, arguments, link⟩ | _ <;>
        simp [Node.arguments, Body.link?, hbody] at ha hlink
      subst hlink
      exact (hw.plain i (.inl hi) slot arguments _ hbody).2 a ha
    obtain ⟨hafter, hloose, top, hsprout⟩ := hsprigs a hA
    have hbelow : k ∈ (c.graph.node a).below := by
      have hattached := hsprout.bud.attached
      rcases hbody : (c.graph.node a).body with
        _ | _ | _ | _ | _ | _ | _ | ⟨slot, arguments, _ | link⟩ | slot <;>
        simp [Node.type?, Node.slot?, hbody, hattached] at htype
      · simp [Node.below, hbody, htype]
      · have := (hloose.plain slot arguments link hbody).1
        rw [this] at htype
        cases htype
      · simp [Node.below, hbody, htype]
    obtain ⟨top', hsprout', hle, -⟩ := hsprout.of_tree (Tree.head hbelow (.refl _ _))
    have := hsprout'.le_of_expresses ht
    rintro rfl
    omega
  · have hvisited : c.Visited a := by
      refine (h.led hi ?_).1
      have hmem : a ∈ (c.graph.node i).arguments.filterMap id := List.mem_filterMap.2 ⟨some a, ha, rfl⟩
      simp only [Node.followed, if_neg hlink, List.mem_append]
      exact .inl (.inr hmem)
    exact h.ne_query_of_expresses (h.led hvisited (by simp [Node.followed, htype])) ht

end Context.Finished

end ApiGraph
