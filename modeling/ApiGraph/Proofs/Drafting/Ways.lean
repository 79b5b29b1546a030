import ApiGraph.Proofs.Drafting.Unwrapping

/-!
# Ways and what they pass

A way goes from value to value, along a function that gives the next one. Either it comes to an end, and
then it passes no node twice, or it comes back to a node that it has passed.

* `Graph.Way` — the nodes that a way has passed, and the value that it has come to;
* `Graph.Ends`, `Graph.GoesOn` — a value at which ways end, and one from where a way goes on for ever;
* `Graph.Way.nodup` — a way to an end passes no node twice;
* `Graph.Way.landsIn` — a way to a node at which ways end lands there;
* `Graph.exists_way` — within as many steps as there are nodes a way ends, or comes back;
* `Graph.goesOn_iff` — a way goes on for ever just if it comes back.
-/

namespace ApiGraph

namespace Graph

variable {next : NodeId → Option (Option NodeId)}

/-- A way from a value passes some nodes and comes to a value. -/
inductive Way (next : NodeId → Option (Option NodeId)) :
    Option NodeId → List NodeId → Option NodeId → Prop where
  | start (value : Option NodeId) : Way next value [] value
  | step {i : NodeId} {v w : Option NodeId} {passed : List NodeId} (goes : next i = some v)
      (rest : Way next v passed w) : Way next (some i) (i :: passed) w

/-- Ways end at a value: it is no node, or a node from which they do not go on. -/
def Ends (next : NodeId → Option (Option NodeId)) (value : Option NodeId) : Prop :=
  ∀ i, value = some i → next i = none

/-- From a value there are ways of any length. -/
def GoesOn (next : NodeId → Option (Option NodeId)) (value : Option NodeId) : Prop :=
  ∀ n, ∃ passed w, passed.length = n ∧ Way next value passed w

variable {i j : NodeId} {value v w w' : Option NodeId} {passed passed' before after : List NodeId}

namespace Way

theorem imp {next' : NodeId → Option (Option NodeId)} (h : Way next value passed w)
    (hnext : ∀ i v, next i = some v → next' i = some v) : Way next' value passed w := by
  induction h with
  | start value => exact .start value
  | step goes _ ih => exact .step (hnext _ _ goes) ih

theorem snoc (h : Way next value passed (some i))
    (goes : next i = some v) : Way next value (passed ++ [i]) v := by
  generalize hw : some i = w at h
  induction h with
  | start value => exact hw ▸ .step goes (.start v)
  | step goes' _ ih => exact .step goes' (ih hw)

/-- A way to a node at which ways end lands there. -/
theorem landsIn {t : NodeId} (h : Way next value passed (some t))
    (hends : next t = none) : LandsIn next passed.length value t := by
  generalize hw : some t = w at h
  induction h with
  | start value => exact hw ▸ .last hends
  | step goes _ ih => exact .step goes (ih hw)

/-- From a node that a way has passed, it went on to where it came to. -/
theorem of_passed (h : Way next value (before ++ i :: after) w) : Way next (some i) (i :: after) w := by
  induction before generalizing value with
  | nil =>
    cases h with
    | step goes rest => exact .step goes rest
  | cons k before ih =>
    cases h with
    | step goes rest => exact ih rest

/-- A way that has come to an end is as long as any other. -/
theorem length_le (h : Way next value passed w) (hends : Ends next w) (h' : Way next value passed' w') :
    passed'.length ≤ passed.length := by
  induction h generalizing passed' with
  | start value =>
    cases h' with
    | start => exact le_rfl
    | step goes rest =>
      rw [hends _ rfl] at goes
      cases goes
  | step goes rest ih =>
    cases h' with
    | start => exact Nat.zero_le _
    | step goes' rest' =>
      obtain rfl := Option.some.inj (goes.symm.trans goes')
      exact Nat.succ_le_succ (ih hends rest')

/-- A way that has come to an end went through all that another way comes to. -/
theorem exists_append (h : Way next value passed w) (h' : Way next value passed' w')
    (hends : Ends next w') : ∃ more, passed' = passed ++ more ∧ Way next w more w' := by
  induction h generalizing passed' with
  | start value => exact ⟨passed', rfl, h'⟩
  | step goes rest ih =>
    cases h' with
    | start =>
      rw [hends _ rfl] at goes
      cases goes
    | step goes' rest' =>
      obtain rfl := Option.some.inj (goes.symm.trans goes')
      obtain ⟨more, rfl, hmore⟩ := ih rest'
      exact ⟨more, rfl, hmore⟩

/-- A way that has come to an end passed no node twice: from a node that it comes back to it would have
to be longer than it is. -/
theorem nodup (h : Way next value passed w) (hends : Ends next w) : passed.Nodup := by
  induction h with
  | start value => exact List.nodup_nil
  | @step i v w passed goes rest ih =>
    refine List.nodup_cons.2 ⟨fun hmem => ?_, ih hends⟩
    obtain ⟨before, after, rfl⟩ := List.append_of_mem hmem
    have hlength := rest.of_passed.length_le hends (.step goes rest)
    simp only [List.length_cons, List.length_append] at hlength
    omega

/-- A node at which ways end was not passed. -/
theorem not_mem_of_ends (h : Way next value passed (some i)) (hends : Ends next (some i)) :
    i ∉ passed := by
  intro hmem
  obtain ⟨before, after, rfl⟩ := List.append_of_mem hmem
  cases h.of_passed with
  | step goes rest =>
    rw [hends i rfl] at goes
    cases goes

/-- What holds of a value and is handed on from node to node holds of what the way comes to. -/
theorem preserves {P : NodeId → Prop} (h : Way next value passed w) (hvalue : ∀ i, value = some i → P i)
    (hnext : ∀ i k, P i → next i = some (some k) → P k) : ∀ i, w = some i → P i := by
  induction h with
  | start value => exact hvalue
  | @step i v w passed goes rest ih =>
    refine ih fun k hk => ?_
    subst hk
    exact hnext i k (hvalue i rfl) goes

end Way

/-- A way goes on for ever, or comes to an end. -/
theorem GoesOn.not_ends (h : GoesOn next value) (hway : Way next value passed w) : ¬Ends next w := by
  intro hends
  obtain ⟨more, w', hlength, hmore⟩ := h (passed.length + 1)
  have := hway.length_le hends hmore
  omega

/-- Within as many steps as there are nodes a way ends, or comes to a node that it passed or that was
passed before. -/
theorem exists_way {g : Graph} (hsize : ∀ i v, next i = some v → i.index < g.size) {seen : List NodeId}
    (hnodup : seen.Nodup) (hlt : ∀ j ∈ seen, j.index < g.size) {steps : Nat}
    (hsteps : g.size < steps + seen.length) (value : Option NodeId) :
    ∃ passed w, Way next value passed w ∧ passed.Nodup ∧ (∀ j ∈ passed, j ∉ seen) ∧
      (Ends next w ∨ ∃ j, w = some j ∧ (j ∈ passed ∨ j ∈ seen)) := by
  induction steps generalizing seen value with
  | zero =>
    have := length_le_size hnodup hlt
    omega
  | succ steps ih =>
    cases value with
    | none => exact ⟨[], none, .start none, List.nodup_nil, by simp, .inl nofun⟩
    | some i =>
      by_cases hmem : i ∈ seen
      · exact ⟨[], some i, .start _, List.nodup_nil, by simp, .inr ⟨i, rfl, .inr hmem⟩⟩
      · cases hnext : next i with
        | none =>
          have hends : Ends next (some i) := fun k hk => Option.some.inj hk ▸ hnext
          exact ⟨[], some i, .start _, List.nodup_nil, by simp, .inl hends⟩
        | some v =>
          obtain ⟨passed, w, hway, hpassed, hnew, hend⟩ := ih (List.nodup_cons.2 ⟨hmem, hnodup⟩)
            (List.forall_mem_cons.2 ⟨hsize i v hnext, hlt⟩) (by rw [List.length_cons]; omega) v
          refine ⟨i :: passed, w, .step hnext hway, ?_, ?_, hend.imp_right ?_⟩
          · exact List.nodup_cons.2 ⟨fun hi => hnew i hi List.mem_cons_self, hpassed⟩
          · exact List.forall_mem_cons.2 ⟨hmem, fun j hj hold => hnew j hj (List.mem_cons_of_mem i hold)⟩
          · rintro ⟨j, rfl, hj | hj⟩
            · exact ⟨j, rfl, .inl (List.mem_cons_of_mem i hj)⟩
            · rcases List.mem_cons.1 hj with rfl | hj
              · exact ⟨j, rfl, .inl List.mem_cons_self⟩
              · exact ⟨j, rfl, .inr hj⟩

/-- Where no way comes to an end, it goes on for ever. -/
theorem goesOn_of_not_ends (h : ∀ passed w, Way next value passed w → ¬Ends next w) :
    GoesOn next value := by
  intro n
  induction n generalizing value with
  | zero => exact ⟨[], value, rfl, .start value⟩
  | succ n ih =>
    cases value with
    | none => exact absurd nofun (h [] none (.start none))
    | some i =>
      cases hnext : next i with
      | none => exact absurd (fun k hk => Option.some.inj hk ▸ hnext) (h [] (some i) (.start _))
      | some v =>
        obtain ⟨passed, w, hlength, hway⟩ := ih fun passed w hway => h _ w (.step hnext hway)
        exact ⟨i :: passed, w, by simp [hlength], .step hnext hway⟩

/-- A way goes on for ever just if it comes back to a node. The nodes that it passes before the first one
that it comes back to are different. -/
theorem goesOn_iff {g : Graph} (hsize : ∀ i v, next i = some v → i.index < g.size) :
    GoesOn next value ↔ ∃ passed j, Way next value passed (some j) ∧ passed.Nodup ∧ j ∈ passed := by
  constructor
  · intro h
    obtain ⟨passed, w, hway, hnodup, -, hends | ⟨j, rfl, hj⟩⟩ :=
      exists_way hsize List.nodup_nil (by simp) (Nat.lt_succ_self g.size) value
    · exact absurd hends (h.not_ends hway)
    · exact ⟨passed, j, hway, hnodup, hj.resolve_right List.not_mem_nil⟩
  · rintro ⟨passed, j, hway, -, hj⟩
    refine goesOn_of_not_ends fun passed' w' hway' hends => ?_
    obtain ⟨more, rfl, hmore⟩ := hway.exists_append hway' hends
    cases hmore with
    | start => exact hway.not_mem_of_ends hends hj
    | step goes rest =>
      exact List.disjoint_of_nodup_append (hway'.nodup hends) hj List.mem_cons_self

/-- No node is passed twice, so there are not more of them than nodes in the graph. -/
theorem Way.length_le_size {g : Graph} (hsize : ∀ i v, next i = some v → i.index < g.size)
    (h : Way next value passed w) (hnodup : passed.Nodup) : passed.length ≤ g.size := by
  refine Graph.length_le_size hnodup ?_
  clear hnodup
  induction h with
  | start value => simp
  | step goes rest ih => exact List.forall_mem_cons.2 ⟨hsize _ _ goes, ih⟩

end Graph

end ApiGraph
