import ApiGraph.Proofs.Drafting.Steps
import ApiGraph.Proofs.Selecting.Ways

/-!
# Values that can be written

When the way of a value comes to an end, and not at a choice that has no shape, then what is asked about
the value is answered, and there is a type expression for it.

* `Graph.Stuck` — a value that leads to a choice without a shape;
* `Graph.exists_isCompound_of_unwraps`, `Graph.exists_inlineTarget_of_unwraps`,
  `Graph.exists_targets_of_unwraps` — what is asked about a value that comes to an end;
* `Graph.Targets.unwraps` — from where a selection goes, the way of the value goes on to its end;
* `Graph.exists_isCompoundWithin_of_sprout` — whether a value that was not visited has fields;
* `Config.Typed` — the settings that type expressions are written with have their declared types;
* `Graph.Speakable` — nodes that type expressions can speak of;
* `Drafting.exists_typeExpr` — the type expression for such a node;
* `Drafting.not_stuck_of_typeExpr` — there is none for a value that is stuck.
-/

namespace ApiGraph

open OrderedMap Drafting

namespace Graph

/-- A type expression for the value would lead to a choice that has no shape to go on to. -/
def Stuck (g : Graph) (value : Option NodeId) : Prop :=
  ∃ t, g.Expresses value t ∧ (g.node t).body.isChoice = true

variable {g : Graph} {n : Nat} {i k t t' : NodeId} {value : Option NodeId}

theorem stuck_of_spoken? {v : Option NodeId} (h : g.spoken? i = some v) :
    g.Stuck (some i) ↔ g.Stuck v := by
  simp only [Stuck, expresses_of_spoken? h]

/-- At a choice, a type expression goes on to what the value is unwrapped to. -/
theorem spoken?_of_isChoice (h : (g.node i).body.isChoice = true) : g.spoken? i = g.inner? i := by
  rcases hbody : (g.node i).body with _ | _ | _ | _ | _ | ⟨_ | _, _⟩ | _ | _ | _ <;>
    simp [Body.isChoice, hbody] at h <;> simp [spoken?, hbody]

/-! ## Values that come to an end -/

/-- At the end of a way, other than a choice, it is known whether the node has fields. -/
theorem exists_isCompoundWithin_of_inner?_eq_none (h : g.inner? i = none)
    (hplain : (g.node i).body.isChoice = false) (steps : Nat) :
    ∃ b, g.isCompoundWithin (steps + 1) (some i) = .ok b := by
  rw [isCompoundWithin]
  rcases hbody : (g.node i).body with _ | _ | _ | _ | _ | ⟨_ | _, _⟩ | _ | _ | _ <;>
    simp only [inner?, hbody, reduceCtorEq] at h <;> simp only [Body.isChoice, hbody] at hplain <;>
    first
    | exact ⟨_, rfl⟩
    | cases hplain

theorem exists_isCompoundWithin_of_lands (h : LandsIn g.inner? n value t)
    (hplain : (g.node t).body.isChoice = false) {steps : Nat} (hsteps : n < steps) :
    ∃ b, g.isCompoundWithin steps value = .ok b := by
  induction h generalizing steps with
  | last hlast =>
    obtain ⟨steps, rfl⟩ : ∃ m, steps = m + 1 := ⟨steps - 1, by omega⟩
    exact exists_isCompoundWithin_of_inner?_eq_none hlast hplain steps
  | step hnext _ ih =>
    obtain ⟨steps, rfl⟩ : ∃ m, steps = m + 1 := ⟨steps - 1, by omega⟩
    rw [isCompoundWithin_of_inner? hnext]
    exact ih hplain (by omega)

theorem LandsIn.lt_size_add (h : LandsIn g.inner? n value t) : n < g.size + 2 := by
  have := h.add_length_le (fun _ _ => lt_size_of_inner?) List.nodup_nil (by simp) (by simp)
  rw [List.length_nil] at this
  omega

theorem exists_isCompound_of_unwraps (h : g.Unwraps value t)
    (hplain : (g.node t).body.isChoice = false) : ∃ b, g.isCompound value = .ok b := by
  obtain ⟨n, hway⟩ := h
  exact exists_isCompoundWithin_of_lands hway hplain hway.lt_size_add

/-- The way to a node in need of a name goes along the way of the value, and may end earlier. -/
theorem exists_inlineTarget_of_lands (h : LandsIn g.inner? n value t)
    (hplain : (g.node t).body.isChoice = false) {steps : Nat} (hsteps : n < steps) :
    ∃ r, inlineTarget g steps value = .ok r := by
  induction h generalizing steps with
  | @last i hlast =>
    obtain ⟨steps, rfl⟩ : ∃ m, steps = m + 1 := ⟨steps - 1, by omega⟩
    rw [inlineTarget]
    rcases hbody : (g.node i).body with _ | _ | _ | _ | _ | ⟨_ | _, _⟩ | _ | _ | _ <;>
      simp only [inner?, hbody, reduceCtorEq] at hlast <;>
      simp only [Body.isChoice, hbody] at hplain <;>
      first
      | exact ⟨_, rfl⟩
      | cases hplain
  | @step n i t v hnext _ ih =>
    obtain ⟨steps, rfl⟩ : ∃ m, steps = m + 1 := ⟨steps - 1, by omega⟩
    obtain ⟨r, hr⟩ : ∃ r, inlineTarget g steps v = .ok r := ih hplain (by omega)
    rw [inlineTarget]
    rcases hbody : (g.node i).body with _ | _ | _ | items | shapes | ⟨_ | _, parts⟩ | link | _ | _ <;>
      simp only [inner?, hbody, reduceCtorEq] at hnext
    · obtain rfl := Option.some.inj hnext
      exact ⟨r, hr⟩
    · rw [Attempt.eq_ok_of_toOption hnext]
      exact ⟨r, hr⟩
    · rw [Attempt.eq_ok_of_toOption hnext]
      dsimp only
      split
      · exact ⟨r, hr⟩
      · exact ⟨_, rfl⟩
    · exact ⟨_, rfl⟩

theorem exists_inlineTarget_of_unwraps (h : g.Unwraps value t)
    (hplain : (g.node t).body.isChoice = false) :
    ∃ r, inlineTarget g (g.size + 2) value = .ok r := by
  obtain ⟨n, hway⟩ := h
  exact exists_inlineTarget_of_lands hway hplain hway.lt_size_add

/-- What a selection goes on to is what the value is unwrapped to, if it is. -/
theorem inner?_of_peeled? {v w : Option NodeId} (h : g.peeled? i = some v) (hw : g.inner? i = some w) :
    w = v := by
  rcases hbody : (g.node i).body with _ | _ | _ | _ | _ | _ | _ | _ | _ <;>
    simp only [peeled?, inner?, hbody, reduceCtorEq, Option.some.injEq] at h hw
  · exact hw.symm.trans h
  · rw [hw] at h
    exact h
  · exact hw.symm.trans h

theorem peeled?_eq_none (h : g.inner? i = none) (hplain : (g.node i).body.isChoice = false) :
    g.peeled? i = none := by
  rcases hbody : (g.node i).body with _ | _ | _ | _ | _ | _ | _ | _ | _ <;>
    simp only [inner?, Body.isChoice, hbody, reduceCtorEq] at h hplain <;> simp [peeled?, hbody]

/-- The way of a selection goes along the way of the value, and may end earlier. -/
theorem exists_targets_of_unwraps (h : g.Unwraps value t) (hplain : (g.node t).body.isChoice = false) :
    ∃ t', g.Targets value t' := by
  obtain ⟨n, hway⟩ := h
  induction hway with
  | @last i hlast => exact ⟨i, targets_self (peeled?_eq_none hlast hplain)⟩
  | @step n i t v hnext _ ih =>
    obtain ⟨t', m, hway⟩ := ih hplain
    cases hpeeled : g.peeled? i with
    | none => exact ⟨i, targets_self hpeeled⟩
    | some w =>
      obtain rfl := inner?_of_peeled? hpeeled hnext
      exact ⟨t', m + 1, .step hpeeled hway⟩

/-- From where a selection goes, the way of the value goes on to its end. -/
theorem Targets.unwraps (h : g.Targets value t') (hvalue : g.Unwraps value t)
    (hplain : (g.node t).body.isChoice = false) : g.Unwraps (some t') t := by
  obtain ⟨n, hway⟩ := h
  induction hway with
  | last => exact hvalue
  | @step n i t' v hpeeled _ ih =>
    obtain ⟨m, hvalue⟩ := hvalue
    cases hvalue with
    | last hlast =>
      rw [peeled?_eq_none hlast hplain] at hpeeled
      cases hpeeled
    | @step m _ _ w hnext hrest =>
      obtain rfl := inner?_of_peeled? hpeeled hnext
      exact ih ⟨m, hrest⟩

/-! ## Sprouts -/

/-- In a sprout every way goes on to later places. -/
theorem exists_isCompoundWithin_of_sprout {top : Nat} (h : Sprout g i top) (hnot : ¬g.Stuck (some i))
    {steps : Nat} (hsteps : g.size < steps + i.index) :
    ∃ b, g.isCompoundWithin steps (some i) = .ok b := by
  induction steps generalizing i top with
  | zero =>
    have := h.lt_size
    omega
  | succ steps ih =>
    cases hinner : g.inner? i with
    | none =>
      refine exists_isCompoundWithin_of_inner?_eq_none hinner (Bool.eq_false_iff.2 fun hchoice => ?_) steps
      exact hnot ⟨i, ⟨0, .last ((spoken?_of_isChoice hchoice).trans hinner)⟩, hchoice⟩
    | some v =>
      have hspoken := spoken?_of_inner? hinner
      rw [isCompoundWithin_of_inner? hinner]
      rw [stuck_of_spoken? hspoken] at hnot
      have := h.lt_size
      cases v with
      | none =>
        obtain ⟨more, rfl⟩ : ∃ more, steps = more + 1 := ⟨steps - 1, by omega⟩
        exact ⟨false, rfl⟩
      | some k =>
        have hk := h.spoken?_mem_below hspoken
        obtain ⟨ends, -, -, -, order, -, sprouts⟩ := h
        have := (order k hk).1
        exact ih (sprouts k hk) hnot (by omega)

end Graph

/-! ## Type expressions -/

/-- The settings that definitions are written with have their declared types. -/
structure Config.Typed (config : Config) : Prop where
  scalarTypes : ∃ table, config.scalarTypes = some (.obj table) ∧ ∀ e ∈ table, ∃ s, e.2 = .str s
  jsonScalar : ∃ s, config.jsonScalar = .str s
  queryType : ∃ s, config.queryType = .str s

theorem Config.typed_usual : Config.Typed {} where
  scalarTypes := ⟨_, rfl, by simp⟩
  jsonScalar := ⟨_, rfl⟩
  queryType := ⟨_, rfl⟩

/-- A node without a name, or one whose name is a text. -/
def Node.Nameable (n : Node) : Prop := n.name.isNull = true ∨ ∃ s, n.name = .str s ∧ s ≠ ""

/-- Nodes that type expressions can speak of: each has a kind, a choice has a shape, and a node with
fields can be named. They go on to such nodes. -/
structure Graph.Speakable (g : Graph) (V : NodeId → Prop) : Prop where
  kind : ∀ i, V i → (g.node i).body ≠ .bare
  shape : ∀ i, V i → (g.node i).body.isChoice = true → g.spoken? i ≠ none
  named : ∀ i, V i → g.hasFields i = true → (g.node i).Nameable
  closed : ∀ i k, V i → g.spoken? i = some (some k) → V k

/-- The nodes of a sprout that are not stuck, if those with fields can be named. -/
theorem Graph.speakable_sprout {g : Graph}
    (hnamed : ∀ i top, Sprout g i top → g.hasFields i = true → (g.node i).Nameable) :
    g.Speakable fun i => (∃ top, Sprout g i top) ∧ ¬g.Stuck (some i) where
  kind i hi := by
    obtain ⟨⟨top, hsprout⟩, -⟩ := hi
    exact hsprout.bud.kind
  shape i hi hchoice hends := hi.2 ⟨i, ⟨0, .last hends⟩, hchoice⟩
  named i hi := by
    obtain ⟨⟨top, hsprout⟩, -⟩ := hi
    exact hnamed i top hsprout
  closed i k hi hk := by
    obtain ⟨⟨top, hsprout⟩, hnot⟩ := hi
    refine ⟨?_, by rwa [← Graph.stuck_of_spoken? hk]⟩
    have hbelow := hsprout.spoken?_mem_below hk
    obtain ⟨ends, -, -, -, -, -, sprouts⟩ := hsprout
    exact ⟨ends k, sprouts k hbelow⟩

theorem Config.Typed.exists_scalarFor {config : Config} (h : config.Typed) (p : Primitive) :
    ∃ s, scalarFor config p = .ok (.str s) := by
  obtain ⟨table, htable, htexts⟩ := h.scalarTypes
  have heq : scalarFor config p = .ok ((get? p.word table).getD (.str p.word)) := by
    rw [scalarFor, htable]
    rfl
  rw [heq]
  cases hget : get? p.word table with
  | none => exact ⟨p.word, rfl⟩
  | some name =>
    obtain ⟨key, hmem, -⟩ := exists_mem_of_get? hget
    obtain ⟨s, hs⟩ := htexts _ hmem
    exact ⟨s, congrArg Except.ok hs⟩

namespace Drafting

variable {config : Config} {D D' : Draft} {i t : NodeId} {value : Option NodeId} {e : TypeExpr}

/-- The scalar for values of any form is a text. -/
theorem exists_json (hconfig : config.Typed) (D : Draft) :
    ∃ e D', (do return .named (← json config) : Drafting TypeExpr) D = .ok e D' ∧ e.isText = true := by
  obtain ⟨s, hs⟩ := hconfig.jsonScalar
  refine ⟨_, _, rfl, ?_⟩
  rw [hs]
  rfl

/-- The name of a type is a text. -/
theorem exists_typeName (hconfig : config.Typed) (h : (D.context.graph.node i).Nameable) :
    ∃ s D', typeName config i D = .ok (.str s) D' := by
  rw [typeName, bind_of_ok (m := node i) rfl]
  rcases h with hnull | ⟨s, hs, hne⟩
  · rw [if_neg (by simp [hnull]), bind_of_ok (m := get) rfl]
    rcases get? i D.inlineNames with _ | _ | name
    · obtain ⟨s, hs⟩ := hconfig.jsonScalar
      exact ⟨s, _, by rw [← hs]; rfl⟩
    · obtain ⟨s, hs⟩ := hconfig.jsonScalar
      exact ⟨s, _, by rw [← hs]; rfl⟩
    · exact ⟨name, D, rfl⟩
  · rw [if_pos (by simp [hs, Json.isNull])]
    refine ⟨ApiGraph.typeName s, D, ?_⟩
    simp only [Node.simpleName, hs, if_neg hne]
    rfl

/-- There is a type expression for a node at which a way ends. -/
theorem exists_typeExprWithin_last (hconfig : config.Typed) (hends : D.context.graph.spoken? i = none)
    (hkind : (D.context.graph.node i).body ≠ .bare)
    (hplain : (D.context.graph.node i).body.isChoice = false)
    (hnamed : D.context.graph.hasFields i = true → (D.context.graph.node i).Nameable)
    {seen : List NodeId} (hnew : i ∉ seen) (depth : Nat) :
    ∃ e D', typeExprWithin config (depth + 1) seen (some i) D = .ok e D' ∧ e.isText = true := by
  -- an object or a composition by `allOf`, with properties or without
  have hobject : D.context.graph.hasFields i = !(D.context.graph.node i).props.isEmpty →
      ∃ e D', (if (D.context.graph.node i).props.isEmpty then (do return .named (← json config))
        else (do return .named (← typeName config i)) : Drafting TypeExpr) D = .ok e D' ∧
          e.isText = true := by
    intro hhas
    split
    · exact exists_json hconfig D
    · next hsome =>
      obtain ⟨s, D', hname⟩ := exists_typeName hconfig (hnamed (by simpa [hhas] using hsome))
      exact ⟨.named (.str s), D', bind_of_ok hname, rfl⟩
  simp only [typeExprWithin, if_neg hnew]
  rw [bind_of_ok (m := graph) rfl]
  cases hbody : (D.context.graph.node i).body with
  | bare => exact absurd hbody hkind
  | scalar type =>
    cases type with
    | none => exact exists_json hconfig D
    | some p =>
      obtain ⟨s, hs⟩ := hconfig.exists_scalarFor p
      exact ⟨.named (.str s), D, bind_of_ok (lift_of_ok hs), rfl⟩
  | object => exact hobject (by simp [Graph.hasFields, hbody])
  | composed kind parts =>
    cases kind with
    | allOf => exact hobject (by simp [Graph.hasFields, hbody])
    | oneOf =>
      rw [hbody] at hplain
      cases hplain
  | union shapes =>
    rw [hbody] at hplain
    cases hplain
  | _ => simp [Graph.spoken?, Graph.inner?, hbody] at hends

/-- A type expression for what a value goes on to gives one for the value. -/
theorem exists_typeExprWithin_step {v : Option NodeId} (hspoken : D.context.graph.spoken? i = some v)
    {seen : List NodeId} (hnew : i ∉ seen) {depth : Nat}
    (h : typeExprWithin config depth (i :: seen) v D = .ok e D') (htext : e.isText = true) :
    ∃ e D', typeExprWithin config (depth + 1) seen (some i) D = .ok e D' ∧ e.isText = true := by
  simp only [typeExprWithin, if_neg hnew]
  rw [bind_of_ok (m := graph) rfl]
  rcases hbody : (D.context.graph.node i).body with
    _ | _ | _ | items | shapes | ⟨_ | _, parts⟩ | link | ⟨_, _, _⟩ | slot <;>
    simp only [Graph.spoken?, Graph.inner?, hbody, reduceCtorEq] at hspoken
  · obtain rfl := Option.some.inj hspoken
    exact ⟨.list e, D', bind_of_ok h, rfl⟩
  · exact ⟨e, D', (bind_of_ok (lift_of_ok (Attempt.eq_ok_of_toOption hspoken))).trans h, htext⟩
  · exact ⟨e, D', (bind_of_ok (lift_of_ok (Attempt.eq_ok_of_toOption hspoken))).trans h, htext⟩
  all_goals
    obtain rfl := Option.some.inj hspoken
    exact ⟨e, D', h, htext⟩

/-- There is a type expression for a value, within a depth that leaves room for all nodes that no
expression was written around. It can be joined to a text. -/
theorem exists_typeExprWithin {V : NodeId → Prop} (hconfig : config.Typed)
    (hV : D.context.graph.Speakable V) (hvalue : ∀ i, value = some i → V i) {seen : List NodeId}
    (hnodup : seen.Nodup) (hlt : ∀ j ∈ seen, j.index < D.context.graph.size) {depth : Nat}
    (hdepth : D.context.graph.size < depth + seen.length) :
    ∃ e D', typeExprWithin config depth seen value D = .ok e D' ∧ e.isText = true := by
  induction depth generalizing seen value with
  | zero =>
    have := Graph.length_le_size hnodup hlt
    omega
  | succ depth ih =>
    cases value with
    | none => exact exists_json hconfig D
    | some i =>
      have hi := hvalue i rfl
      by_cases hmem : i ∈ seen
      · simp only [typeExprWithin, if_pos hmem]
        exact exists_json hconfig D
      · cases hspoken : D.context.graph.spoken? i with
        | none =>
          refine exists_typeExprWithin_last hconfig hspoken (hV.kind i hi) ?_ (hV.named i hi) hmem depth
          exact Bool.eq_false_iff.2 fun hchoice => hV.shape i hi hchoice hspoken
        | some v =>
          have hin : i.index < D.context.graph.size := by
            refine Nat.lt_of_not_le fun hle => hV.kind i hi ?_
            rw [Graph.node_of_size_le hle]
          obtain ⟨e, D', h, htext⟩ := ih (fun k hk => hV.closed i k hi (hk ▸ hspoken))
            (List.nodup_cons.2 ⟨hmem, hnodup⟩) (List.forall_mem_cons.2 ⟨hin, hlt⟩)
            (by rw [List.length_cons]; omega)
          exact exists_typeExprWithin_step hspoken hmem h htext

theorem exists_typeExpr {V : NodeId → Prop} (hconfig : config.Typed)
    (hV : D.context.graph.Speakable V) (hvalue : ∀ i, value = some i → V i) :
    ∃ e D', typeExpr config value D = .ok e D' ∧ e.isText = true := by
  rw [typeExpr, bind_of_ok (m := graph) rfl]
  exact exists_typeExprWithin hconfig hV hvalue List.nodup_nil (by simp) (by simp)

/-- A value is none of those from which the way goes on to it. -/
theorem not_mem_of_lands {next : NodeId → Option (Option NodeId)} {n : Nat} {seen : List NodeId}
    (hway : Graph.LandsIn next n (some i) t)
    (hseen : ∀ j ∈ seen, ∃ m, n < m ∧ Graph.LandsIn next m (some j) t) : i ∉ seen := by
  intro hmem
  obtain ⟨m, hm, hway'⟩ := hseen i hmem
  have := (hway.unique hway').1
  omega

/-- A type expression does not end at a choice. `seen` holds values from which the way goes on to this
one. -/
theorem isChoice_of_typeExprWithin {n depth : Nat} {seen : List NodeId}
    (hway : Graph.LandsIn D.context.graph.spoken? n value t)
    (hseen : ∀ j ∈ seen, ∃ m, n < m ∧ Graph.LandsIn D.context.graph.spoken? m (some j) t)
    (h : typeExprWithin config depth seen value D = .ok e D') :
    (D.context.graph.node t).body.isChoice = false := by
  induction hway generalizing depth seen e with
  | @last t hlast =>
    cases depth with
    | zero => cases h
    | succ depth =>
      have hnew := not_mem_of_lands (.last hlast) hseen
      refine Bool.eq_false_iff.2 fun hchoice => ?_
      simp only [typeExprWithin, if_neg hnew] at h
      obtain ⟨g, D₁, hg, h⟩ := bind_eq_ok_iff.1 h
      cases hg
      rcases hbody : (D.context.graph.node t).body with _ | _ | _ | _ | shapes | ⟨_ | _, parts⟩ | _ | _ | _ <;>
        simp only [Body.isChoice, hbody, reduceCtorEq] at hchoice <;> rw [hbody] at h <;>
        obtain ⟨v, D₂, hlift, h⟩ := bind_eq_ok_iff.1 h <;>
        obtain ⟨hvariant, rfl⟩ := eq_ok_of_lift hlift <;>
        simp [Graph.spoken?, Graph.inner?, hbody, hvariant, Except.toOption] at hlast
  | @step n i t v hnext hrest ih =>
    cases depth with
    | zero => cases h
    | succ depth =>
      have hnew := not_mem_of_lands (.step hnext hrest) hseen
      obtain ⟨e', h, -⟩ := exists_typeExprWithin_of_spoken? hnext hnew h
      refine ih (List.forall_mem_cons.2 ⟨⟨n + 1, Nat.lt_succ_self n, .step hnext hrest⟩, fun j hj => ?_⟩) h
      obtain ⟨m, hm, hway⟩ := hseen j hj
      exact ⟨m, by omega, hway⟩

/-- There is no type expression for a value that is stuck. -/
theorem not_stuck_of_typeExpr (h : typeExpr config value D = .ok e D') :
    ¬D.context.graph.Stuck value := by
  rintro ⟨t, ⟨n, hway⟩, hchoice⟩
  rw [typeExpr, bind_of_ok (m := graph) rfl] at h
  rw [isChoice_of_typeExprWithin hway (by simp) h] at hchoice
  cases hchoice

end Drafting

end ApiGraph
