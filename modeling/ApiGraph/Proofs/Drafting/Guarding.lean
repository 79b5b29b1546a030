import ApiGraph.Proofs.Drafting.Steps
import ApiGraph.Proofs.Drafting.Ways

/-!
# Type expressions of values that go round

A type expression is written along the way of its value, within lists for the arrays that it passes.
Where the way comes back to a node, the value is one of any form.

* `Drafting.unguarded` — the type expression of a value, written without regard to the nodes around it;
* `Drafting.lastName` — the name that it ends with;
* `Drafting.typeExprWithin_of_way`, `Drafting.unguarded_of_way` — what either of the two has come to
  along a way;
* `Drafting.typeExpr_of_ends`, `Drafting.typeExpr_of_back` — type expressions of values that come to an
  end, and of values that come back;
* `Conversion.guarded_typeExpr` — in a graph that was visited the two agree where the second comes to an
  end, and the first always does.
-/

namespace ApiGraph

open OrderedMap Attempt

namespace TypeExpr

/-- A type inside a number of lists. -/
def inLists (e : TypeExpr) : Nat → TypeExpr
  | 0 => e
  | k + 1 => (e.inLists k).list

theorem inLists_add (e : TypeExpr) (k m : Nat) : e.inLists (k + m) = (e.inLists m).inLists k := by
  induction k with
  | zero => rw [Nat.zero_add]; rfl
  | succ k ih => rw [Nat.succ_add, inLists, ih, inLists]

theorem innermost_inLists (e : TypeExpr) (k : Nat) : (e.inLists k).innermost = e.innermost := by
  induction k with
  | zero => rfl
  | succ k ih => exact ih

end TypeExpr

namespace Graph

/-- How many arrays there are among some nodes. -/
def arrays (g : Graph) (passed : List NodeId) : Nat :=
  passed.countP fun i => match (g.node i).body with
    | .array _ => true
    | _ => false

theorem arrays_append (g : Graph) (passed passed' : List NodeId) :
    g.arrays (passed ++ passed') = g.arrays passed + g.arrays passed' :=
  List.countP_append

theorem arrays_cons (g : Graph) (i : NodeId) (passed : List NodeId) :
    g.arrays (i :: passed) = g.arrays [i] + g.arrays passed :=
  g.arrays_append [i] passed

theorem lt_size_of_spoken? {g : Graph} (i : NodeId) (v : Option NodeId) (h : g.spoken? i = some v) :
    i.index < g.size := by
  refine Nat.lt_of_not_le fun hle => ?_
  rw [spoken?, inner?, node_of_size_le hle] at h
  cases h

end Graph

namespace Drafting

/-- The name that the type expression for a value ends with: that of a scalar, an object or a composition
by `allOf`, or of values of any form if there is no node, or nothing known of it. -/
def lastName (config : Config) : Option NodeId → Drafting Json
  | none => json config
  | some i => do
    let g ← graph
    let n := g.node i
    match n.body with
    | .scalar (some p) => lift (scalarFor config p)
    | .scalar none => json config
    | .object | .composed .allOf _ => if n.props.isEmpty then json config else typeName config i
    | .bare => throw (.noTypeExpression (g.literal i))
    | _ => throw .malformed

/-- The type expression for a node, from what it is for another value. -/
def typeExprFrom (config : Config) (inner : Option NodeId → Drafting TypeExpr) (i : NodeId) :
    Drafting TypeExpr := do
  let g ← graph
  let n := g.node i
  match n.body with
  | .scalar none => return .named (← json config)
  | .scalar (some p) => return .named (← lift (scalarFor config p))
  | .object | .composed .allOf _ =>
    if n.props.isEmpty then return .named (← json config)
    else return .named (← typeName config i)
  | .array items => return .list (← inner items)
  | .ref link => inner link.target
  | .composed .oneOf _ => inner (← lift (g.oneOfVariant i))
  | .union _ => inner (← lift (g.unionVariant i))
  | .property _ _ _ => inner n.valueType?
  | .parameter slot => inner slot.type
  | .bare => throw (.noTypeExpression (g.literal i))

/-- The type expression for a value, within a depth, without regard to the nodes around. -/
def unguarded (config : Config) : Nat → Option NodeId → Drafting TypeExpr
  | 0, _ => throw .endless
  | _ + 1, none => return .named (← json config)
  | depth + 1, some i => typeExprFrom config (unguarded config depth) i

variable {config : Config} {D : Draft} {i j : NodeId} {value v w : Option NodeId}
  {passed seen : List NodeId}

/-- A type expression is written just so for a node that is not around. -/
theorem typeExprWithin_succ (depth : Nat) (seen : List NodeId) (i : NodeId) :
    typeExprWithin config (depth + 1) seen (some i) =
      if i ∈ seen then (do return .named (← json config))
      else typeExprFrom config (typeExprWithin config depth (i :: seen)) i := rfl

/-! ## Steps -/

theorem map_congr_at {α β : Type} {m m' : Drafting α} (h : m D = m' D) (f : α → β) :
    (f <$> m) D = (f <$> m') D := by
  show EStateM.map f m D = EStateM.map f m' D
  rw [EStateM.map, EStateM.map, h]

/-- From a node that a way passes, the type expression is that for the next value, in a list if the node
is an array. -/
theorem typeExprFrom_of_spoken? (h : D.context.graph.spoken? i = some v)
    (inner : Option NodeId → Drafting TypeExpr) :
    typeExprFrom config inner i D =
      ((fun e => e.inLists (D.context.graph.arrays [i])) <$> inner v) D := by
  rw [typeExprFrom, bind_of_ok (m := graph) rfl]
  rcases hbody : (D.context.graph.node i).body with
    _ | _ | _ | items | shapes | ⟨_ | _, parts⟩ | link | ⟨_, _, _⟩ | slot <;>
    simp only [Graph.spoken?, Graph.inner?, hbody, reduceCtorEq] at h
  · obtain rfl := Option.some.inj h
    simp only [Graph.arrays, hbody, List.countP_cons, List.countP_nil, TypeExpr.inLists, if_true,
      map_eq_pure_bind]
  all_goals
    have hplain : (fun e : TypeExpr => e.inLists (D.context.graph.arrays [i])) = id := by
      simp [Graph.arrays, hbody, TypeExpr.inLists, funext_iff]
    rw [hplain, id_map]
  · exact bind_of_ok (lift_of_ok (eq_ok_of_toOption h))
  · exact bind_of_ok (lift_of_ok (eq_ok_of_toOption h))
  all_goals
    obtain rfl := Option.some.inj h
    rfl

/-- At a node at which ways end, the type expression is a name. -/
theorem typeExprFrom_of_spoken?_eq_none (h : D.context.graph.spoken? i = none)
    (inner : Option NodeId → Drafting TypeExpr) :
    typeExprFrom config inner i D = (TypeExpr.named <$> lastName config (some i)) D := by
  -- the name is that which is found for the kind of the node
  have hlast : ∀ {m : Drafting Json}, lastName config (some i) D = m D →
      (TypeExpr.named <$> lastName config (some i)) D = (do return .named (← m) : Drafting TypeExpr) D :=
    fun hm => by rw [map_congr_at hm, map_eq_pure_bind]
  have hfault : ∀ {a : Attempt (Option NodeId)}, Fails (· = .malformed) a → a.toOption = none →
      lastName config (some i) D = (throw .malformed : Drafting Json) D →
      (lift a >>= inner) D = (TypeExpr.named <$> lastName config (some i)) D := by
    intro a hfails hnone hm
    cases a with
    | ok v => cases hnone
    | error fault =>
      obtain rfl := fails_error_iff.1 hfails
      rw [hlast hm]
      rfl
  rw [typeExprFrom, bind_of_ok (m := graph) rfl]
  rcases hbody : (D.context.graph.node i).body with
    _ | ⟨_ | p⟩ | _ | items | shapes | ⟨_ | _, parts⟩ | link | ⟨_, _, _⟩ | slot <;>
    simp only [Graph.spoken?, Graph.inner?, hbody, reduceCtorEq] at h
  · rw [hlast (by rw [lastName, bind_of_ok (m := graph) rfl, hbody])]
    rfl
  · rw [hlast (by rw [lastName, bind_of_ok (m := graph) rfl, hbody])]
  · rw [hlast (by rw [lastName, bind_of_ok (m := graph) rfl, hbody])]
  · rw [hlast (by rw [lastName, bind_of_ok (m := graph) rfl, hbody])]
    split <;> rfl
  · exact hfault (Graph.fails_unionVariant_of (P := (· = .malformed)) rfl _ i) h
      (by rw [lastName, bind_of_ok (m := graph) rfl, hbody])
  · rw [hlast (by rw [lastName, bind_of_ok (m := graph) rfl, hbody])]
    split <;> rfl
  · exact hfault (Graph.fails_oneOfVariant_of (P := (· = .malformed)) rfl _ i) h
      (by rw [lastName, bind_of_ok (m := graph) rfl, hbody])

/-! ## Ways -/

/-- Along a way that passes none of the nodes around, and none twice, a type expression has come to that
for a value inside of all that was passed, in a list for each array. -/
theorem typeExprWithin_of_way (h : Graph.Way D.context.graph.spoken? value passed w)
    (hnodup : passed.Nodup) (hnew : ∀ j ∈ passed, j ∉ seen) (depth : Nat) :
    typeExprWithin config (depth + passed.length) seen value D =
      ((fun e => e.inLists (D.context.graph.arrays passed)) <$>
        typeExprWithin config depth (passed.reverse ++ seen) w) D := by
  induction h generalizing seen with
  | start value =>
    show typeExprWithin config depth seen value D = (id <$> typeExprWithin config depth seen value) D
    rw [id_map]
  | @step i v w passed goes rest ih =>
    obtain ⟨hi, hpassed⟩ := List.nodup_cons.1 hnodup
    have hrest : ∀ j ∈ passed, j ∉ i :: seen := by
      intro j hj hmem
      rcases List.mem_cons.1 hmem with rfl | hmem
      · exact hi hj
      · exact hnew j (List.mem_cons_of_mem i hj) hmem
    rw [List.length_cons, ← Nat.add_assoc, typeExprWithin_succ, if_neg (hnew i List.mem_cons_self),
      typeExprFrom_of_spoken? goes, map_congr_at (ih hpassed hrest), Functor.map_map]
    simp only [← TypeExpr.inLists_add, ← Graph.arrays_cons, List.reverse_cons, List.append_assoc,
      List.singleton_append]

theorem unguarded_of_way (h : Graph.Way D.context.graph.spoken? value passed w) (depth : Nat) :
    unguarded config (depth + passed.length) value D =
      ((fun e => e.inLists (D.context.graph.arrays passed)) <$> unguarded config depth w) D := by
  induction h with
  | start value =>
    show unguarded config depth value D = (id <$> unguarded config depth value) D
    rw [id_map]
  | @step i v w passed goes rest ih =>
    rw [List.length_cons, ← Nat.add_assoc, unguarded, typeExprFrom_of_spoken? goes, map_congr_at ih,
      Functor.map_map]
    simp only [← TypeExpr.inLists_add, ← Graph.arrays_cons]

/-! ## Ends -/

theorem typeExprWithin_of_ends (h : Graph.Ends D.context.graph.spoken? w)
    (hnew : ∀ i, w = some i → i ∉ seen) (depth : Nat) :
    typeExprWithin config (depth + 1) seen w D = (TypeExpr.named <$> lastName config w) D := by
  cases w with
  | none => rfl
  | some i =>
    rw [typeExprWithin_succ, if_neg (hnew i rfl)]
    exact typeExprFrom_of_spoken?_eq_none (h i rfl) _

theorem unguarded_of_ends (h : Graph.Ends D.context.graph.spoken? w) (depth : Nat) :
    unguarded config (depth + 1) w D = (TypeExpr.named <$> lastName config w) D := by
  cases w with
  | none => rfl
  | some i => exact typeExprFrom_of_spoken?_eq_none (h i rfl) _

/-- The type expression of a value that comes to an end: the name of what it comes to, in a list for each
array on the way. -/
theorem typeExprWithin_of_way_of_ends (h : Graph.Way D.context.graph.spoken? value passed w)
    (hends : Graph.Ends D.context.graph.spoken? w) {depth : Nat} (hdepth : passed.length < depth) :
    typeExprWithin config depth [] value D =
      ((fun name => (TypeExpr.named name).inLists (D.context.graph.arrays passed)) <$>
        lastName config w) D := by
  obtain ⟨depth, rfl⟩ : ∃ m, depth = (m + 1) + passed.length := ⟨depth - passed.length - 1, by omega⟩
  have hlast : typeExprWithin config (depth + 1) (passed.reverse ++ []) w D = _ :=
    typeExprWithin_of_ends hends (fun i hi => by
      subst hi
      simpa using h.not_mem_of_ends hends) depth
  rw [typeExprWithin_of_way h (h.nodup hends) (by simp), map_congr_at hlast, Functor.map_map]

theorem unguarded_of_way_of_ends (h : Graph.Way D.context.graph.spoken? value passed w)
    (hends : Graph.Ends D.context.graph.spoken? w) {depth : Nat} (hdepth : passed.length < depth) :
    unguarded config depth value D =
      ((fun name => (TypeExpr.named name).inLists (D.context.graph.arrays passed)) <$>
        lastName config w) D := by
  obtain ⟨depth, rfl⟩ : ∃ m, depth = (m + 1) + passed.length := ⟨depth - passed.length - 1, by omega⟩
  rw [unguarded_of_way h, map_congr_at (unguarded_of_ends hends depth), Functor.map_map]

/-! ## Ways that come back -/

/-- The type expression of a value that comes back to a node: one of any form, in a list for each array
that is met before. -/
theorem typeExprWithin_of_back (h : Graph.Way D.context.graph.spoken? value passed (some j))
    (hnodup : passed.Nodup) (hback : j ∈ passed) {depth : Nat} (hdepth : passed.length < depth) :
    typeExprWithin config depth [] value D =
      .ok ((TypeExpr.named config.jsonScalar).inLists (D.context.graph.arrays passed))
        { D with usesJson := true } := by
  obtain ⟨depth, rfl⟩ : ∃ m, depth = (m + 1) + passed.length := ⟨depth - passed.length - 1, by omega⟩
  rw [typeExprWithin_of_way h hnodup (by simp),
    map_congr_at (by rw [typeExprWithin_succ, if_pos (by simpa using hback)])]
  rfl

/-- Without regard to the nodes around, the type expression of a value that goes on for ever does too. -/
theorem unguarded_of_goesOn (h : Graph.GoesOn D.context.graph.spoken? value) (depth : Nat) :
    outcome (unguarded config depth value) D = .error .endless := by
  obtain ⟨passed, w, rfl, hway⟩ := h depth
  have hrun : unguarded config (0 + passed.length) value D = _ := unguarded_of_way hway 0
  rw [Nat.zero_add] at hrun
  rw [outcome, hrun]
  rfl

/-! ## Steps that end -/

/-- A step that does not go on for ever. -/
def Finite {α : Type} (m : Drafting α) : Prop := ∀ D, Fails (· ≠ .endless) (outcome m D)

section

variable {α β : Type}

theorem finite_pure (a : α) : Finite (pure a : Drafting α) := fun _ => fails_ok a

theorem finite_throw {fault : Fault} (h : fault ≠ .endless) : Finite (throw fault : Drafting α) :=
  fun _ => fails_error_iff.2 h

theorem finite_lift {a : Attempt α} (h : Fails Fault.Plain a) : Finite (lift a) := by
  intro D
  cases a with
  | ok x => exact fails_ok x
  | error fault => exact fails_error_iff.2 (h fault rfl).2

theorem Finite.bind {m : Drafting α} {f : α → Drafting β} (hm : Finite m) (hf : ∀ a, Finite (f a)) :
    Finite (m >>= f) := by
  intro D
  cases h : outcome m D with
  | ok a =>
    rw [outcome_bind_of_ok h]
    exact hf a _
  | error fault =>
    rw [outcome_bind_of_error h]
    exact fails_error_iff.2 (hm D fault h)

theorem Finite.map {m : Drafting α} (h : Finite m) (f : α → β) : Finite (f <$> m) := by
  rw [map_eq_pure_bind]
  exact h.bind fun a => finite_pure (f a)

theorem finite_get_bind {f : Draft → Drafting α} (h : ∀ D, Finite (f D)) : Finite (get >>= f) :=
  fun D => h D D

theorem finite_graph : Finite graph := finite_get_bind fun _ => finite_pure _

theorem finite_json (config : Config) : Finite (json config) := fun _ => fails_ok _

theorem finite_typeName (config : Config) (i : NodeId) : Finite (typeName config i) := by
  refine (finite_graph.bind fun _ => finite_pure _ : Finite (node i)).bind fun n => ?_
  split
  · exact (finite_lift (Graph.fails_simpleName n)).bind fun _ => finite_pure _
  · refine finite_get_bind fun D => ?_
    split
    · exact finite_pure _
    · exact fun _ => fails_ok _

theorem finite_lastName (config : Config) (w : Option NodeId) : Finite (lastName config w) := by
  have hobject : ∀ (n : Node) (i : NodeId),
      Finite (if n.props.isEmpty then json config else typeName config i) := by
    intro n i
    split
    · exact finite_json config
    · exact finite_typeName config i
  cases w with
  | none => exact finite_json config
  | some i =>
    refine finite_graph.bind fun g => ?_
    dsimp only
    split
    · exact finite_lift (fails_scalarFor config _)
    · exact finite_json config
    · exact hobject _ i
    · exact hobject _ i
    · exact finite_throw nofun
    · exact finite_throw nofun

end

/-! ## Any value -/

/-- A type expression comes to its end within a depth that is greater than the number of nodes. -/
theorem typeExprWithin_of_size_lt {depth : Nat} (h : D.context.graph.size < depth)
    (value : Option NodeId) :
    typeExprWithin config depth [] value D = typeExpr config value D ∧
      outcome (typeExpr config value) D ≠ .error .endless := by
  have hdepth : D.context.graph.size < D.context.graph.size + 2 := by omega
  have hsize := @Graph.lt_size_of_spoken? D.context.graph
  obtain ⟨passed, w, hway, hnodup, -, hend⟩ :=
    Graph.exists_way hsize List.nodup_nil (by simp) (Nat.lt_succ_self _) value
  have hlength := hway.length_le_size hsize hnodup
  rcases hend with hends | ⟨j, rfl, hj⟩
  · have hrun : typeExpr config value D = _ :=
      typeExprWithin_of_way_of_ends hway hends (hlength.trans_lt hdepth)
    refine ⟨(typeExprWithin_of_way_of_ends hway hends (hlength.trans_lt h)).trans hrun.symm, ?_⟩
    rw [outcome, hrun]
    exact fun he => (finite_lastName config w).map _ D _ he rfl
  · have hback := hj.resolve_right List.not_mem_nil
    have hrun : typeExpr config value D = _ :=
      typeExprWithin_of_back hway hnodup hback (hlength.trans_lt hdepth)
    refine ⟨(typeExprWithin_of_back hway hnodup hback (hlength.trans_lt h)).trans hrun.symm, ?_⟩
    rw [outcome, hrun]
    intro he
    cases he

end Drafting

/-! ## Visited values -/

/-- What a visited value comes to in the end was visited, and is a scalar, an object or a composition by
`allOf`. -/
theorem Whole.last_of_way {A : NodeId → Prop} {c : Context} {i t : NodeId} {passed : List NodeId}
    (hw : Whole A (fun _ => False) c) (hi : c.Visited i)
    (hway : Graph.Way c.graph.spoken? (some i) passed (some t))
    (hends : Graph.Ends c.graph.spoken? (some t)) :
    c.Visited t ∧ ((∃ type, (c.graph.node t).body = .scalar type) ∨ (c.graph.node t).body = .object ∨
      ∃ parts, (c.graph.node t).body = .composed .allOf parts) := by
  have ht : c.Visited t := by
    refine hway.preserves (P := c.Visited) (fun j hj => Option.some.inj hj ▸ hi) (fun j k hj hk => ?_) t rfl
    obtain ⟨l, hl, hfollowed⟩ := hw.exists_followed_of_spoken? hj hk
    exact hw.led_visited hl hfollowed
  refine ⟨ht, ?_⟩
  have hnone := hends t rfl
  rcases hbody : (c.graph.node t).body with
    _ | type | _ | items | shapes | ⟨_ | _, parts⟩ | link | ⟨slot, arguments, link⟩ | slot <;>
    simp only [Graph.spoken?, Graph.inner?, hbody, reduceCtorEq] at hnone
  · exact absurd hbody (hw.ripe t ht).kind
  · exact .inl ⟨type, rfl⟩
  · exact .inr (.inl rfl)
  · obtain ⟨v, hv, -⟩ := hw.exists_unionVariant ht hbody
    rw [hv] at hnone
    cases hnone
  · exact .inr (.inr ⟨parts, rfl⟩)
  · obtain ⟨u, v, hv, -⟩ := hw.exists_oneOfVariant ht hbody
    rw [hv] at hnone
    cases hnone

namespace Conversion

open Drafting Context

variable {d : Document} {config : Config} {oracle : Oracle} {root : Option NodeId} {c : Context}

/-- In a graph that was visited, every value has a type expression that comes to an end, within any depth
that is great enough. If the way of a value ends, the expression is the one that is written without regard
to the nodes around: the name of what the value comes to, in a list for each array on the way. For a
visited value this is a node that has such a name. If the way goes on for ever, the expression without
regard to the nodes around does so too, and the one with it is the scalar for values of any form, in a list
for each array that is met before the first node that is met again. -/
theorem guarded_typeExpr (h : Milestone d config oracle root c) {D : Draft}
    (hgraph : D.context.graph = c.graph) (i : NodeId) :
    outcome (typeExpr config (some i)) D ≠ .error .endless ∧
    (∀ depth, c.graph.size < depth →
      typeExprWithin config depth [] (some i) D = typeExpr config (some i) D) ∧
    (∀ passed w, Graph.Way c.graph.spoken? (some i) passed w → Graph.Ends c.graph.spoken? w →
      (∀ depth, passed.length < depth →
        typeExpr config (some i) D = unguarded config depth (some i) D) ∧
      typeExpr config (some i) D =
        ((fun name => (TypeExpr.named name).inLists (c.graph.arrays passed)) <$> lastName config w) D ∧
      (c.Visited i → ∀ t, w = some t → c.Visited t ∧
        ((∃ type, (c.graph.node t).body = .scalar type) ∨ (c.graph.node t).body = .object ∨
          ∃ parts, (c.graph.node t).body = .composed .allOf parts))) ∧
    (Graph.GoesOn c.graph.spoken? (some i) →
      (∀ depth, outcome (unguarded config depth (some i)) D = .error .endless) ∧
      ∃ passed j, Graph.Way c.graph.spoken? (some i) passed (some j) ∧ passed.Nodup ∧ j ∈ passed ∧
        typeExpr config (some i) D =
          .ok ((TypeExpr.named config.jsonScalar).inLists (c.graph.arrays passed))
            { D with usesJson := true }) := by
  obtain ⟨A, q, hrest, -⟩ := atRest_of_milestone h
  have hsize := @Graph.lt_size_of_spoken? c.graph
  refine ⟨(typeExprWithin_of_size_lt (Nat.lt_succ_self _) (some i)).2, fun depth hdepth => ?_,
    fun passed w hway hends => ?_, fun hon => ?_⟩
  · rw [← hgraph] at hdepth
    exact (typeExprWithin_of_size_lt hdepth (some i)).1
  · have hlength := hway.length_le_size hsize (hway.nodup hends)
    have hway' : Graph.Way D.context.graph.spoken? (some i) passed w := by rwa [hgraph]
    have hends' : Graph.Ends D.context.graph.spoken? w := by rwa [hgraph]
    have hrun : typeExpr config (some i) D = _ := typeExprWithin_of_way_of_ends hway' hends'
      (by rw [hgraph]; omega)
    refine ⟨fun depth hdepth => hrun.trans (unguarded_of_way_of_ends hway' hends' hdepth).symm, ?_,
      fun hi t ht => ?_⟩
    · rwa [hgraph] at hrun
    · subst ht
      exact hrest.whole.last_of_way hi hway hends
  · obtain ⟨passed, j, hway, hnodup, hback⟩ := (Graph.goesOn_iff hsize).1 hon
    have hlength := hway.length_le_size hsize hnodup
    rw [← hgraph] at hon hway hlength ⊢
    exact ⟨unguarded_of_goesOn hon, passed, j, hway, hnodup, hback,
      typeExprWithin_of_back hway hnodup hback (by omega)⟩

/-- A document with a schema that refers to itself, arrays of arrays of themselves, and arrays of arrays
of references to an object. -/
def nestedLists : Document :=
  ⟨.obj [("paths", .obj []), ("components", .obj [("schemas", .obj [
    ("Loop", .obj [("$ref", .str "#/components/schemas/Loop")]),
    ("Tree", .obj [("type", .str "array"), ("items", .obj [("type", .str "array"),
      ("items", .obj [("$ref", .str "#/components/schemas/Tree")])])]),
    ("Rows", .obj [("type", .str "array"), ("items", .obj [("type", .str "array"),
      ("items", .obj [("$ref", .str "#/components/schemas/Pet")])])]),
    ("Pet", .obj [("type", .str "object"), ("properties", .obj [
      ("name", .obj [("type", .str "string")])])])])])]⟩

/-- A list of lists of pets has a type expression that names the pets, and a tree is a list of lists of
values of any form. -/
theorem guarded_typeExpr_nestedLists :
    let c := after (visitAll nestedLists {}) (start Oracle.always)
    let D : Draft := { context := c }
    Milestone nestedLists {} Oracle.always (some ⟨10⟩) c ∧ D.context.graph = c.graph ∧
      ((outcome (typeExpr {} (some ⟨4⟩)) D).toOption.map TypeExpr.text) = some "[[Pet]]" ∧
      Graph.GoesOn c.graph.spoken? (some ⟨1⟩) ∧
      (∀ depth, outcome (unguarded {} depth (some ⟨1⟩)) D = .error .endless) ∧
      ∃ passed j, Graph.Way c.graph.spoken? (some ⟨1⟩) passed (some j) ∧ passed.Nodup ∧ j ∈ passed ∧
        typeExpr {} (some ⟨1⟩) D =
          .ok ((TypeExpr.named (.str "JSON")).inLists (c.graph.arrays passed))
            { D with usesJson := true } := by
  intro c D
  have hrun : visitAll nestedLists {} (start Oracle.always) = .ok ⟨10⟩ c :=
    eq_ok_of_toOption_outcome (by decide +kernel)
  have hmilestone : Milestone nestedLists {} Oracle.always (some ⟨10⟩) c := .queried hrun
  obtain ⟨hpets, h₁, h₂, h₃⟩ :
      ((outcome (typeExpr {} (some ⟨4⟩)) D).toOption.map TypeExpr.text) = some "[[Pet]]" ∧
        c.graph.spoken? ⟨1⟩ = some (some ⟨2⟩) ∧ c.graph.spoken? ⟨2⟩ = some (some ⟨3⟩) ∧
        c.graph.spoken? ⟨3⟩ = some (some ⟨1⟩) := by decide +kernel
  have hround : Graph.Way c.graph.spoken? (some ⟨1⟩) [⟨1⟩, ⟨2⟩, ⟨3⟩] (some ⟨1⟩) :=
    .step h₁ (.step h₂ (.step h₃ (.start _)))
  have hon : Graph.GoesOn c.graph.spoken? (some ⟨1⟩) :=
    (Graph.goesOn_iff Graph.lt_size_of_spoken?).2 ⟨_, ⟨1⟩, hround, by decide, by decide⟩
  have hgraph : D.context.graph = c.graph := rfl
  exact ⟨hmilestone, hgraph, hpets, hon, (guarded_typeExpr hmilestone hgraph ⟨1⟩).2.2.2 hon⟩

end Conversion

end ApiGraph
