import ApiGraph.Proofs.Drafting.Unwrapping

/-!
# Steps of a draft

What happens to a draft while type expressions and arguments are written.

* `Draft.Still`, `Draft.Same` — nothing but messages, and maybe the use of the scalar, or not;
* `Drafting.Quiet` — steps that do no more than this;
* `Draft.Knows`, `Draft.Calls` — the types that have a name in a draft, and what they are called;
* `Stands`, `Graph.Formless` — what the name inside a type expression stands for, and the values that are
  of any form;
* `Argument.Rendered`, `Argument.FallsBack` — so for the type of an argument, where objects are passed as
  values of any form;
* `Drafting.stands_typeExpr`, `Drafting.stands_argument` — so it is with every type expression, and the
  scalar is used just for these values.
-/

namespace ApiGraph

open OrderedMap Drafting

namespace Draft

variable {D D' D'' : Draft}

/-- Nothing has happened to a draft but messages, and the scalar may have been used. -/
structure Still (D D' : Draft) : Prop where
  graph : D'.context.graph = D.context.graph
  names : D'.inlineNames = D.inlineNames
  taken : D'.takenNames = D.takenNames
  pending : D'.pending = D.pending
  variants : D'.writtenVariants = D.writtenVariants
  types : D'.types = D.types
  json : D.usesJson = true → D'.usesJson = true

theorem Still.refl (D : Draft) : D.Still D := ⟨rfl, rfl, rfl, rfl, rfl, rfl, id⟩

theorem Still.trans (h : D.Still D') (h' : D'.Still D'') : D.Still D'' where
  graph := h'.graph.trans h.graph
  names := h'.names.trans h.names
  taken := h'.taken.trans h.taken
  pending := h'.pending.trans h.pending
  variants := h'.variants.trans h.variants
  types := h'.types.trans h.types
  json := h'.json ∘ h.json

/-- Nothing has happened to a draft but messages. -/
structure Same (D D' : Draft) : Prop where
  still : D.Still D'
  json : D'.usesJson = D.usesJson

theorem Same.refl (D : Draft) : D.Same D := ⟨.refl D, rfl⟩

theorem Same.trans (h : D.Same D') (h' : D'.Same D'') : D.Same D'' :=
  ⟨h.still.trans h'.still, h'.json.trans h.json⟩

/-- What happens to the context does not matter as long as the graph is the same. -/
theorem same_context {c : Context} (h : c.graph = D.context.graph) :
    D.Same { D with context := c } :=
  ⟨⟨h, rfl, rfl, rfl, rfl, rfl, id⟩, rfl⟩

/-- What an object or composition is called: by its own name, or by the one it was given. -/
inductive Calls (D : Draft) (i : NodeId) : Json → Prop where
  | own {name : Option String} (named : (D.context.graph.node i).name.isNull = false)
      (simple : (D.context.graph.node i).simpleName = .ok name) : D.Calls i (nameValue name)
  | given {name : String} (nameless : (D.context.graph.node i).name.isNull = true)
      (given : get? i D.inlineNames = some (some name)) : D.Calls i (.str name)

/-- A node with a name of its own, or one that it was given. -/
def Knows (D : Draft) (i : NodeId) : Prop :=
  (D.context.graph.node i).name.isNull = false ∨ contains i D.inlineNames = true

/-- Every name that was given is a text. -/
def Spelt (D : Draft) : Prop := ∀ i given, get? i D.inlineNames = some given → ∃ s, given = some s

variable {config : Config} {i : NodeId} {name name' : Json}

/-- A node is called one thing only. -/
theorem Calls.unique (h : D.Calls i name) (h' : D.Calls i name') : name = name' := by
  cases h with
  | own hnamed hsimple =>
    cases h' with
    | own _ hsimple' =>
      cases hsimple.symm.trans hsimple'
      rfl
    | given hnameless _ =>
      rw [hnamed] at hnameless
      cases hnameless
  | given hnameless hgiven =>
    cases h' with
    | own hnamed _ =>
      rw [hnamed] at hnameless
      cases hnameless
    | given _ hgiven' =>
      cases hgiven.symm.trans hgiven'
      rfl

theorem Calls.congr (h : D.Calls i name) (hgraph : D'.context.graph = D.context.graph)
    (hnames : D'.inlineNames = D.inlineNames) : D'.Calls i name := by
  cases h with
  | own hnamed hsimple => exact .own (by rwa [hgraph]) (by rwa [hgraph])
  | given hnameless hgiven => exact .given (by rwa [hgraph]) (by rwa [hnames])

theorem Knows.still (hs : D.Still D') : D'.Knows i ↔ D.Knows i := by
  rw [Knows, Knows, hs.graph, hs.names]

theorem Spelt.still (h : D.Spelt) (hs : D.Still D') : D'.Spelt := by
  rw [Spelt, hs.names]
  exact h

end Draft

namespace Drafting

variable {α β : Type} {D D' : Draft}

/-- A step that leaves a draft still. -/
def Quiet (m : Drafting α) : Prop := ∀ D : Draft, D.Still (after m D)

theorem quiet_pure (a : α) : Quiet (pure a : Drafting α) := Draft.Still.refl

theorem quiet_throw (fault : Fault) : Quiet (throw fault : Drafting α) := Draft.Still.refl

theorem Quiet.bind {m : Drafting α} {f : α → Drafting β} (hm : Quiet m) (hf : ∀ a, Quiet (f a)) :
    Quiet (m >>= f) := by
  intro D
  cases h : outcome m D with
  | ok a =>
    rw [after_bind_of_ok h]
    exact (hm D).trans (hf a _)
  | error fault =>
    rw [after_bind_of_error h]
    exact hm D

theorem quiet_get_bind {f : Draft → Drafting α} (hf : ∀ D, Quiet (f D)) : Quiet (get >>= f) :=
  fun D => hf D D

theorem Quiet.of_ok {m : Drafting α} (h : Quiet m) {a : α} (hm : m D = .ok a D') : D.Still D' := by
  have hstill := h D
  rwa [after_of_ok hm] at hstill

/-- A step of the run that changes neither graph nor store. -/
theorem same_run {step : Run α} (h : Idle step) (D : Draft) : D.Same (after (run step) D) := by
  have hstill := h D.context
  rw [after, run]
  cases hstep : step D.context with
  | ok a c =>
    rw [after_of_ok hstep] at hstill
    exact Draft.same_context hstill.graph
  | error fault c =>
    rw [after_of_error hstep] at hstill
    exact Draft.same_context hstill.graph

theorem same_of_run {step : Run α} (h : Idle step) {a : α} (hrun : run step D = .ok a D') :
    D.Same D' := by
  have hsame := same_run h D
  rwa [after_of_ok hrun] at hsame

theorem quiet_run {step : Run α} (h : Idle step) : Quiet (run step) := fun D => (same_run h D).still

theorem quiet_lift (a : Attempt α) : Quiet (lift a) := quiet_run (Run.idle_lift a)

theorem quiet_graph : Quiet graph := quiet_get_bind fun _ => quiet_pure _

theorem quiet_node (i : NodeId) : Quiet (node i) := quiet_graph.bind fun _ => quiet_pure _

theorem eq_ok_of_lift {a : Attempt α} {x : α} (h : lift a D = .ok x D') : a = .ok x ∧ D = D' := by
  cases a with
  | ok y =>
    cases h
    exact ⟨rfl, rfl⟩
  | error fault => cases h

theorem lift_of_ok {a : Attempt α} {x : α} (h : a = .ok x) : lift a D = .ok x D := by
  rw [h]
  rfl

theorem eq_str_of_textOf {v : Json} {s : String} (h : textOf v = .ok s) : v = .str s := by
  cases v with
  | str t => exact congrArg Json.str (Except.ok.inj h)
  | _ => cases h

theorem quiet_mapM {f : α → Drafting β} (hf : ∀ a, Quiet (f a)) (xs : List α) :
    Quiet (xs.mapM f) := by
  induction xs with
  | nil => exact quiet_pure _
  | cons x xs ih =>
    rw [List.mapM_cons]
    exact (hf x).bind fun _ => ih.bind fun _ => quiet_pure _

/-! ## Types -/

theorem quiet_json (config : Config) : Quiet (json config) := fun _ =>
  ⟨rfl, rfl, rfl, rfl, rfl, rfl, fun _ => rfl⟩

theorem quiet_typeName (config : Config) (i : NodeId) : Quiet (typeName config i) := by
  refine (quiet_node i).bind fun n => ?_
  split
  · exact (quiet_lift _).bind fun _ => quiet_pure _
  · refine quiet_get_bind fun D => ?_
    split
    · exact quiet_pure _
    · exact (quiet_run (Run.idle_log _ _ _)).bind fun _ => quiet_json config

theorem quiet_typeExprWithin (config : Config) (depth : Nat) (seen : List NodeId)
    (i : Option NodeId) : Quiet (typeExprWithin config depth seen i) := by
  have hjson : Quiet (do return .named (← json config) : Drafting TypeExpr) :=
    (quiet_json config).bind fun _ => quiet_pure _
  induction depth generalizing seen i with
  | zero => exact quiet_throw _
  | succ depth ih =>
    cases i with
    | none => exact hjson
    | some i =>
      simp only [typeExprWithin]
      split
      · exact hjson
      · refine quiet_graph.bind fun g => ?_
        split
        · exact hjson
        · exact (quiet_lift _).bind fun _ => quiet_pure _
        · split
          · exact hjson
          · exact (quiet_typeName config i).bind fun _ => quiet_pure _
        · split
          · exact hjson
          · exact (quiet_typeName config i).bind fun _ => quiet_pure _
        · exact (ih _ _).bind fun _ => quiet_pure _
        · exact ih _ _
        · exact (quiet_lift _).bind fun _ => ih _ _
        · exact (quiet_lift _).bind fun _ => ih _ _
        · exact ih _ _
        · exact ih _ _
        · exact quiet_throw _

theorem quiet_typeExpr (config : Config) (i : Option NodeId) : Quiet (typeExpr config i) :=
  quiet_graph.bind fun _ => quiet_typeExprWithin config _ _ _

theorem quiet_argumentType (config : Config) (type : Option NodeId) :
    Quiet (argumentType config type) := by
  refine quiet_graph.bind fun g => (quiet_lift _).bind fun compound => ?_
  split
  · exact (quiet_json config).bind fun _ => quiet_pure _
  · exact quiet_typeExpr config type

theorem quiet_argument (config : Config) (i : NodeId) : Quiet (argument config i) :=
  (quiet_node i).bind fun _ => (quiet_lift _).bind fun _ => (quiet_argumentType config _).bind
    fun _ => (quiet_lift _).bind fun _ => (quiet_lift _).bind fun _ => quiet_pure _

/-- The name of a type is what the node is called. One that is not called anything falls back to the
scalar. -/
theorem typeName_cases {config : Config} {i : NodeId} {name : Json} (hspelt : D.Spelt)
    (h : typeName config i D = .ok name D') :
    (D.Knows i ∧ D.Calls i name ∧ D'.usesJson = D.usesJson) ∨
      (¬D.Knows i ∧ name = config.jsonScalar ∧ D'.usesJson = true) := by
  obtain ⟨n, D₁, hn, h⟩ := bind_eq_ok_iff.1 h
  cases hn
  split at h
  · next hnamed =>
    obtain ⟨s, D₂, hlift, h⟩ := bind_eq_ok_iff.1 h
    obtain ⟨hsimple, rfl⟩ := eq_ok_of_lift hlift
    cases h
    have hnot : (D.context.graph.node i).name.isNull = false := Bool.not_eq_true' _ ▸ hnamed
    exact .inl ⟨.inl hnot, .own hnot hsimple, rfl⟩
  · next hnameless =>
    have hnull : (D.context.graph.node i).name.isNull = true := by simpa using hnameless
    obtain ⟨D₂, D₃, hget, h⟩ := bind_eq_ok_iff.1 h
    cases hget
    cases hgiven : get? i D.inlineNames with
    | none =>
      rw [hgiven] at h
      obtain ⟨u, D₂, -, h⟩ := bind_eq_ok_iff.1 h
      cases h
      exact .inr ⟨by simp [Draft.Knows, hnull, contains, hgiven], rfl, rfl⟩
    | some given =>
      obtain ⟨s, rfl⟩ := hspelt i given hgiven
      rw [hgiven] at h
      cases h
      exact .inl ⟨.inr (by simp [contains, hgiven]), .given hnull hgiven, rfl⟩

end Drafting

/-! ## What type expressions stand for -/

/-- A value of any form: it leads to no primitive type, and to no type with a name. -/
def Graph.Formless (g : Graph) (N : NodeId → Prop) (value : Option NodeId) : Prop :=
  ∀ t, g.Expresses value t →
    (∀ p, (g.node t).body ≠ .scalar (some p)) ∧ (g.hasFields t = true → ¬N t)

/-- What the name inside the type expression of a value stands for, when the nodes of a set `N` are
types with a name: a primitive type that the value leads to, such a type, or values of any form. -/
inductive Stands (config : Config) (g : Graph) (N : NodeId → Prop) (called : NodeId → Json → Prop)
    (value : Option NodeId) : Json → Prop where
  | primitive {t : NodeId} {p : Primitive} {name : Json} (lands : g.Expresses value t)
      (type : (g.node t).body = .scalar (some p)) (scalar : Drafting.scalarFor config p = .ok name) :
      Stands config g N called value name
  | type {t : NodeId} {name : Json} (lands : g.Expresses value t) (fields : g.hasFields t = true)
      (named : N t) (calls : called t name) : Stands config g N called value name
  | any (formless : g.Formless N value) : Stands config g N called value config.jsonScalar

/-- A type whose values are passed as values of any form: one that needs a selection of its own, or one
that is of any form itself. -/
def Graph.Freeform (g : Graph) (N : NodeId → Prop) (type : Option NodeId) : Prop :=
  g.isCompound type = .ok true ∨ g.Formless N type

/-- What the name inside the type expression of an argument stands for. -/
def PassedAs (config : Config) (g : Graph) (N : NodeId → Prop) (called : NodeId → Json → Prop)
    (type : Option NodeId) (name : Json) : Prop :=
  (g.isCompound type = .ok true ∧ name = config.jsonScalar) ∨ Stands config g N called type name

/-- The type of an argument as it was written. -/
def Argument.Rendered (config : Config) (g : Graph) (N : NodeId → Prop)
    (called : NodeId → Json → Prop) (a : Argument) : Prop :=
  PassedAs config g N called (g.node a.node).type?.join a.type.innermost

/-- The type of an argument fell back to the scalar. -/
def Argument.FallsBack (g : Graph) (N : NodeId → Prop) (a : Argument) : Prop :=
  g.Freeform N (g.node a.node).type?.join

section

variable {config : Config} {g : Graph} {N N' : NodeId → Prop} {called called' : NodeId → Json → Prop}
  {value v : Option NodeId} {i t : NodeId} {name : Json}

/-- Only the names of types with fields matter. -/
theorem Graph.formless_congr (h : ∀ t, g.hasFields t = true → (N t ↔ N' t)) :
    g.Formless N value ↔ g.Formless N' value := by
  refine forall_congr' fun t => imp_congr_right fun _ => and_congr_right fun _ => ?_
  exact forall_congr' fun hfields => not_congr (h t hfields)

theorem Stands.imp (hs : Stands config g N called value name)
    (h : ∀ t, g.hasFields t = true → (N t ↔ N' t))
    (hcalled : ∀ t name, g.Expresses value t → g.hasFields t = true → N t → called t name →
      called' t name) : Stands config g N' called' value name := by
  cases hs with
  | primitive lands type scalar => exact .primitive lands type scalar
  | type lands fields named calls =>
    exact .type lands fields ((h _ fields).1 named) (hcalled _ _ lands fields named calls)
  | any formless => exact .any ((Graph.formless_congr h).1 formless)

theorem PassedAs.imp (hs : PassedAs config g N called value name)
    (h : ∀ t, g.hasFields t = true → (N t ↔ N' t))
    (hcalled : ∀ t name, g.Expresses value t → g.hasFields t = true → N t → called t name →
      called' t name) : PassedAs config g N' called' value name :=
  Or.imp id (fun hs => hs.imp h hcalled) hs

/-- Where a value unwraps to a type with fields, the name is the one of this type if it has one, and the
scalar otherwise. -/
theorem Stands.of_unwraps (hs : Stands config g N called value name) (ht : g.Unwraps value t)
    (hfields : g.hasFields t = true) :
    (N t → called t name) ∧ (¬N t → name = config.jsonScalar) := by
  obtain ⟨n, hway⟩ := ht.expresses hfields
  cases hs with
  | primitive lands type scalar =>
    obtain ⟨m, hway'⟩ := lands
    obtain rfl := (hway.unique hway').2
    rcases Graph.body_of_hasFields hfields with hbody | ⟨parts, hbody⟩ <;> rw [hbody] at type <;>
      cases type
  | type lands fields named calls =>
    obtain ⟨m, hway'⟩ := lands
    obtain rfl := (hway.unique hway').2
    exact ⟨fun _ => calls, fun hnot => absurd named hnot⟩
  | any formless => exact ⟨fun hnamed => absurd hnamed ((formless t ⟨n, hway⟩).2 hfields), fun _ => rfl⟩

theorem Graph.freeform_congr (h : ∀ t, g.hasFields t = true → (N t ↔ N' t)) :
    g.Freeform N value ↔ g.Freeform N' value :=
  or_congr Iff.rfl (formless_congr h)

theorem Graph.expresses_of_spoken? (hspoken : g.spoken? i = some v) :
    g.Expresses (some i) t ↔ g.Expresses v t := by
  constructor
  · rintro ⟨n, hway⟩
    cases hway with
    | last ends =>
      rw [hspoken] at ends
      cases ends
    | step goes rest =>
      obtain rfl := Option.some.inj (hspoken.symm.trans goes)
      exact ⟨_, rest⟩
  · rintro ⟨n, hway⟩
    exact ⟨n + 1, .step hspoken hway⟩

theorem Graph.expresses_of_spoken?_eq_none (hspoken : g.spoken? i = none) :
    g.Expresses (some i) t ↔ t = i := by
  constructor
  · rintro ⟨n, hway⟩
    cases hway with
    | last => rfl
    | step goes =>
      rw [hspoken] at goes
      cases goes
  · rintro rfl
    exact ⟨0, .last hspoken⟩

theorem Graph.formless_of_spoken? (hspoken : g.spoken? i = some v) :
    g.Formless N (some i) ↔ g.Formless N v := by
  simp only [Formless, expresses_of_spoken? hspoken]

theorem Stands.of_spoken? (hspoken : g.spoken? i = some v) (h : Stands config g N called v name) :
    Stands config g N called (some i) name := by
  cases h with
  | primitive lands type scalar =>
    exact .primitive ((Graph.expresses_of_spoken? hspoken).2 lands) type scalar
  | type lands fields named calls =>
    exact .type ((Graph.expresses_of_spoken? hspoken).2 lands) fields named calls
  | any formless => exact .any ((Graph.formless_of_spoken? hspoken).2 formless)

/-- A value that comes back to one that it went through lands nowhere. -/
theorem Graph.formless_of_seen {seen : List NodeId} (hmem : i ∈ seen)
    (hseen : ∀ j ∈ seen, ∀ n t, LandsIn g.spoken? n (some i) t → ∃ m, n < m ∧
      LandsIn g.spoken? m (some j) t) : g.Formless N (some i) := by
  rintro t ⟨n, hway⟩
  obtain ⟨m, hm, hway'⟩ := hseen i hmem n t hway
  have := (hway.unique hway').1
  omega

end

namespace Drafting

variable {D D' : Draft} {config : Config} {value : Option NodeId} {e : TypeExpr}

/-- What a type expression promises: it stands for what its value leads to, and the scalar is used if
this is of any form. -/
def Spoken (config : Config) (D D' : Draft) (value : Option NodeId) (name : Json) : Prop :=
  Stands config D.context.graph D.Knows D.Calls value name ∧
    (D'.usesJson = true ↔ D.usesJson = true ∨ D.context.graph.Formless D.Knows value)

theorem Spoken.of_spoken? {i : NodeId} {v : Option NodeId} {name : Json}
    (h : Spoken config D D' v name) (hspoken : D.context.graph.spoken? i = some v) :
    Spoken config D D' (some i) name :=
  ⟨h.1.of_spoken? hspoken, by rw [h.2, Graph.formless_of_spoken? hspoken]⟩

/-- The scalar for a value of any form. -/
theorem spoken_json (hformless : D.context.graph.Formless D.Knows value)
    (h : (do return .named (← json config) : Drafting TypeExpr) D = .ok e D') :
    Spoken config D D' value e.innermost := by
  cases h
  exact ⟨.any hformless, by simp [hformless]⟩

/-- A node at which a way ends, and which no expression was written around. -/
theorem spoken_last {i : NodeId} {depth : Nat} {seen : List NodeId} (hspelt : D.Spelt)
    (hends : D.context.graph.spoken? i = none) (hnew : i ∉ seen)
    (h : typeExprWithin config (depth + 1) seen (some i) D = .ok e D') :
    Spoken config D D' (some i) e.innermost := by
  have hlands : ∀ t, D.context.graph.Expresses (some i) t ↔ t = i :=
    fun t => Graph.expresses_of_spoken?_eq_none hends
  have hany : (∀ p, (D.context.graph.node i).body ≠ .scalar (some p)) →
      (D.context.graph.hasFields i = true → ¬D.Knows i) →
      D.context.graph.Formless D.Knows (some i) := by
    intro hscalar hfields t ht
    obtain rfl := (hlands t).1 ht
    exact ⟨hscalar, hfields⟩
  simp only [typeExprWithin, if_neg hnew] at h
  obtain ⟨g, D₁, hg, h⟩ := bind_eq_ok_iff.1 h
  cases hg
  -- an object or a composition by `allOf`, with properties or without
  have hobject : D.context.graph.hasFields i = !(D.context.graph.node i).props.isEmpty →
      (∀ p, (D.context.graph.node i).body ≠ .scalar (some p)) →
      (if (D.context.graph.node i).props.isEmpty then (do return .named (← json config))
        else (do return .named (← typeName config i)) : Drafting TypeExpr) D = .ok e D' →
      Spoken config D D' (some i) e.innermost := by
    intro hhas hscalar h
    split at h
    · next hempty => exact spoken_json (hany hscalar (by simp [hhas, hempty])) h
    · next hsome =>
      obtain ⟨name, D₂, hname, h⟩ := bind_eq_ok_iff.1 h
      cases h
      have hfields : D.context.graph.hasFields i = true := by simpa [hhas] using hsome
      rcases typeName_cases hspelt hname with ⟨hknows, hcalls, hjson⟩ | ⟨hnot, rfl, hjson⟩
      · refine ⟨.type ((hlands i).2 rfl) hfields hknows hcalls, ?_⟩
        rw [hjson, or_iff_left]
        exact fun hformless => (hformless i ((hlands i).2 rfl)).2 hfields hknows
      · have hformless := hany hscalar fun _ => hnot
        exact ⟨.any hformless, by simp [hjson, hformless]⟩
  cases hbody : (D.context.graph.node i).body with
  | bare =>
    rw [hbody] at h
    cases h
  | scalar type =>
    rw [hbody] at h
    cases type with
    | none => exact spoken_json (hany (by simp [hbody]) (by simp [Graph.hasFields, hbody])) h
    | some p =>
      obtain ⟨name, D₂, hlift, h⟩ := bind_eq_ok_iff.1 h
      obtain ⟨hname, rfl⟩ := eq_ok_of_lift hlift
      cases h
      refine ⟨.primitive ((hlands i).2 rfl) hbody hname, ?_⟩
      rw [or_iff_left]
      exact fun hformless => (hformless i ((hlands i).2 rfl)).1 p hbody
  | object =>
    rw [hbody] at h
    exact hobject (by simp [Graph.hasFields, hbody]) (by simp [hbody]) h
  | composed kind parts =>
    cases kind with
    | allOf =>
      rw [hbody] at h
      exact hobject (by simp [Graph.hasFields, hbody]) (by simp [hbody]) h
    | oneOf =>
      rw [hbody] at h
      obtain ⟨v, D₂, hlift, h⟩ := bind_eq_ok_iff.1 h
      obtain ⟨hvariant, rfl⟩ := eq_ok_of_lift hlift
      simp [Graph.spoken?, Graph.inner?, hbody, hvariant, Except.toOption] at hends
  | union shapes =>
    rw [hbody] at h
    obtain ⟨v, D₂, hlift, h⟩ := bind_eq_ok_iff.1 h
    obtain ⟨hvariant, rfl⟩ := eq_ok_of_lift hlift
    simp [Graph.spoken?, Graph.inner?, hbody, hvariant, Except.toOption] at hends
  | _ => simp [Graph.spoken?, Graph.inner?, hbody] at hends

/-- A type expression goes on along the way of its value, inside of lists or not. -/
theorem exists_typeExprWithin_of_spoken? {i : NodeId} {v : Option NodeId} {depth : Nat}
    {seen : List NodeId} (hspoken : D.context.graph.spoken? i = some v) (hnew : i ∉ seen)
    (h : typeExprWithin config (depth + 1) seen (some i) D = .ok e D') :
    ∃ e', typeExprWithin config depth (i :: seen) v D = .ok e' D' ∧ e.innermost = e'.innermost := by
  simp only [typeExprWithin, if_neg hnew] at h
  obtain ⟨g, D₁, hg, h⟩ := bind_eq_ok_iff.1 h
  cases hg
  rcases hbody : (D.context.graph.node i).body with
    _ | _ | _ | items | shapes | ⟨_ | _, parts⟩ | link | ⟨_, _, _⟩ | slot <;>
    simp only [Graph.spoken?, Graph.inner?, hbody, reduceCtorEq] at hspoken <;> rw [hbody] at h
  · obtain ⟨e', D₂, hinner, h⟩ := bind_eq_ok_iff.1 h
    cases h
    obtain rfl := Option.some.inj hspoken
    exact ⟨e', hinner, rfl⟩
  · obtain ⟨u, D₂, hlift, h⟩ := bind_eq_ok_iff.1 h
    obtain ⟨hvariant, rfl⟩ := eq_ok_of_lift hlift
    rw [hvariant] at hspoken
    obtain rfl := Option.some.inj hspoken
    exact ⟨e, h, rfl⟩
  · obtain ⟨u, D₂, hlift, h⟩ := bind_eq_ok_iff.1 h
    obtain ⟨hvariant, rfl⟩ := eq_ok_of_lift hlift
    rw [hvariant] at hspoken
    obtain rfl := Option.some.inj hspoken
    exact ⟨e, h, rfl⟩
  · obtain rfl := Option.some.inj hspoken
    exact ⟨e, h, rfl⟩
  · obtain rfl := Option.some.inj hspoken
    exact ⟨e, h, rfl⟩
  · obtain rfl := Option.some.inj hspoken
    exact ⟨e, h, rfl⟩

/-- A type expression stands for what its value leads to. `seen` holds values from which the way goes on
to this one. -/
theorem stands_typeExprWithin {depth : Nat} {seen : List NodeId} (hspelt : D.Spelt)
    (hseen : ∀ j ∈ seen, ∀ n t, Graph.LandsIn D.context.graph.spoken? n value t → ∃ m, n < m ∧
      Graph.LandsIn D.context.graph.spoken? m (some j) t)
    (h : typeExprWithin config depth seen value D = .ok e D') :
    Spoken config D D' value e.innermost := by
  induction depth generalizing seen value e with
  | zero => cases h
  | succ depth ih =>
    cases value with
    | none =>
      refine spoken_json (fun t ht => ?_) h
      obtain ⟨n, hway⟩ := ht
      cases hway
    | some i =>
      by_cases hold : i ∈ seen
      · simp only [typeExprWithin, if_pos hold] at h
        exact spoken_json (Graph.formless_of_seen hold hseen) h
      · cases hspoken : D.context.graph.spoken? i with
        | none => exact spoken_last hspelt hspoken hold h
        | some v =>
          obtain ⟨e', h, hname⟩ := exists_typeExprWithin_of_spoken? hspoken hold h
          rw [hname]
          refine (ih (fun j hj n t hway => ?_) h).of_spoken? hspoken
          have hstep := Graph.LandsIn.step hspoken hway
          rcases List.mem_cons.1 hj with rfl | hj
          · exact ⟨n + 1, Nat.lt_succ_self n, hstep⟩
          · obtain ⟨m, hm, hway'⟩ := hseen j hj (n + 1) t hstep
            exact ⟨m, by omega, hway'⟩

theorem stands_typeExpr (hspelt : D.Spelt) (h : typeExpr config value D = .ok e D') :
    Spoken config D D' value e.innermost := by
  obtain ⟨g, D₁, hg, h⟩ := bind_eq_ok_iff.1 h
  cases hg
  exact stands_typeExprWithin hspelt (fun _ hj => absurd hj List.not_mem_nil) h

/-! ## Arguments -/

/-- An argument is given its type: objects are passed as values of any form, and all else as it is. -/
theorem stands_argument {i : NodeId} {a : Argument} (hspelt : D.Spelt)
    (h : argument config i D = .ok a D') :
    a.node = i ∧ a.Rendered config D.context.graph D.Knows D.Calls ∧
      (D'.usesJson = true ↔ D.usesJson = true ∨ a.FallsBack D.context.graph D.Knows) := by
  obtain ⟨n, D₁, hn, h⟩ := bind_eq_ok_iff.1 h
  cases hn
  obtain ⟨type, D₂, hlift, h⟩ := bind_eq_ok_iff.1 h
  obtain ⟨htype, rfl⟩ := eq_ok_of_lift hlift
  obtain ⟨e, D₃, hexpr, h⟩ := bind_eq_ok_iff.1 h
  obtain ⟨name, D₄, hlift, h⟩ := bind_eq_ok_iff.1 h
  obtain ⟨-, rfl⟩ := eq_ok_of_lift hlift
  obtain ⟨slot, D₅, hlift, h⟩ := bind_eq_ok_iff.1 h
  obtain ⟨-, rfl⟩ := eq_ok_of_lift hlift
  cases h
  have hjoin : (D.context.graph.node i).type?.join = type := by rw [eq_some_of_expect htype]; rfl
  refine ⟨rfl, ?_⟩
  simp only [Argument.Rendered, Argument.FallsBack, hjoin]
  obtain ⟨g, D₂, hg, hexpr⟩ := bind_eq_ok_iff.1 hexpr
  cases hg
  obtain ⟨compound, D₃, hlift, hexpr⟩ := bind_eq_ok_iff.1 hexpr
  obtain ⟨hcompound, rfl⟩ := eq_ok_of_lift hlift
  cases compound with
  | true =>
    cases hexpr
    exact ⟨.inl ⟨hcompound, rfl⟩, by simp [Graph.Freeform, hcompound]⟩
  | false =>
    obtain ⟨hstands, hjson⟩ := stands_typeExpr hspelt hexpr
    exact ⟨.inr hstands, by simp [Graph.Freeform, hcompound, hjson]⟩

/-- The arguments of a field, one by one. -/
theorem stands_arguments {arguments : List (Option NodeId)} {written : List Argument}
    (hspelt : D.Spelt)
    (h : (arguments.mapM fun a => do argument config (← lift (expect a)) :
      Drafting (List Argument)) D = .ok written D') :
    written.map (fun a => some a.node) = arguments ∧
    (∀ a ∈ written, a.Rendered config D.context.graph D.Knows D.Calls) ∧
    (D'.usesJson = true ↔
      D.usesJson = true ∨ ∃ a ∈ written, a.FallsBack D.context.graph D.Knows) := by
  induction arguments generalizing D written with
  | nil =>
    rw [List.mapM_nil] at h
    cases h
    simp
  | cons a rest ih =>
    rw [List.mapM_cons] at h
    obtain ⟨first, D₁, hfirst, h⟩ := bind_eq_ok_iff.1 h
    obtain ⟨others, D₂, hothers, h⟩ := bind_eq_ok_iff.1 h
    cases h
    obtain ⟨i, D₀, hlift, hfirst⟩ := bind_eq_ok_iff.1 hfirst
    obtain ⟨hexpect, rfl⟩ := eq_ok_of_lift hlift
    have hstill := (quiet_argument config i).of_ok hfirst
    obtain ⟨hnode, hpassed, hjson⟩ := stands_argument hspelt hfirst
    obtain ⟨hlisted, hall, hjson'⟩ := ih (hspelt.still hstill) hothers
    have hknows : D₁.Knows = D.Knows := funext fun _ => propext (Draft.Knows.still hstill)
    rw [hstill.graph, hknows] at hall hjson'
    refine ⟨?_, List.forall_mem_cons.2 ⟨hpassed, fun a ha => ?_⟩, ?_⟩
    · rw [List.map_cons, hlisted, hnode, eq_some_of_expect hexpect]
    · exact (hall a ha).imp (fun _ _ => Iff.rfl) fun t name _ _ _ hcalls =>
        hcalls.congr hstill.graph.symm hstill.names.symm
    · rw [hjson', hjson, or_assoc]
      simp only [List.mem_cons, or_and_right, exists_or, exists_eq_left]

end Drafting

end ApiGraph
