import ApiGraph.Proofs.Depicting.Nodes
import ApiGraph.Proofs.Selecting.Lines

/-!
# Graphs that mirror each other

The lines of a selection depend on a graph only up to which nodes belong together. Two graphs may hold
the same types at different places, as long as no two types of one belong to one type of the other: then
a type is on the stack of one selection just if its counterpart is on that of the other.

* `Graph.Mirrored` — types of one kind, which lead to types that belong together;
* `Graph.SameField` — fields of one name, whose values belong together;
* `Graph.Reflects`, `Graph.Mirrors` — a relation between the types of two graphs, and one that is one to
  one;
* `Graph.Mirrors.exists_selects` — the lines that one graph says are those that the other one says;
* `Graph.Mirrors.exists_select` — a field is selected in one graph as in the other.
-/

namespace ApiGraph

open OrderedMap

namespace Graph

/-- Types of two graphs that are of one kind, and lead to types that belong together. -/
inductive Mirrored (R : NodeId → NodeId → Prop) (g g' : Graph) (i i' : NodeId) : Prop
  | scalar {type : Option Primitive} (body : (g.node i).body = .scalar type)
      (body' : (g'.node i').body = .scalar type)
  | object (body : (g.node i).body = .object) (body' : (g'.node i').body = .object)
  | allOf {parts : Option Json} (body : (g.node i).body = .composed .allOf parts)
      (body' : (g'.node i').body = .composed .allOf parts)
  | array {k k' : NodeId} (body : (g.node i).body = .array (some k))
      (body' : (g'.node i').body = .array (some k')) (items : R k k')
  | ref {ref : Json} {t t' : NodeId} (body : (g.node i).body = .ref ⟨ref, some t⟩)
      (body' : (g'.node i').body = .ref ⟨ref, some t'⟩) (target : R t t')
  | union {shapes : List Json} {v v' : NodeId} (body : (g.node i).body = .union shapes)
      (body' : (g'.node i').body = .union shapes) (variant : g.unionVariant i = .ok (some v))
      (variant' : g'.unionVariant i' = .ok (some v')) (shape : R v v')
  | oneOf {parts : Option Json} {u u' v v' : NodeId} (body : (g.node i).body = .composed .oneOf parts)
      (body' : (g'.node i').body = .composed .oneOf parts) (union : g.unionOf i = .ok (some u))
      (union' : g'.unionOf i' = .ok (some u')) (choice : R u u')
      (variant : g.unionVariant u = .ok (some v)) (variant' : g'.unionVariant u' = .ok (some v'))
      (shape : R v v')

/-- Fields of one name, whose values belong together. -/
structure SameField (R : NodeId → NodeId → Prop) (g g' : Graph) (p p' : NodeId) : Prop where
  field : (g.node p).body.IsField
  field' : (g'.node p').body.IsField
  name : (g.node p).name = (g'.node p').name
  value : Option.Rel R (g.node p).valueType? (g'.node p').valueType?

/-- A relation between the types of two graphs, which have the same fields and lead to related types. -/
structure Reflects (R : NodeId → NodeId → Prop) (g g' : Graph) : Prop where
  types : ∀ {i i'}, R i i' → Mirrored R g g' i i'
  props : ∀ {i i'}, R i i' → Aligned (SameField R g g') (g.node i).props (g'.node i').props

/-- A relation between the types of two graphs, one to one, by which they mirror each other. -/
structure Mirrors (R : NodeId → NodeId → Prop) (g g' : Graph) : Prop extends Reflects R g g' where
  unique : ∀ {i i' j j'}, R i i' → R j j' → (i = j ↔ i' = j')

variable {R : NodeId → NodeId → Prop} {g g' : Graph} {n : Nat} {i i' t : NodeId} {v v' : Option NodeId}

/-! ## Ways -/

/-- A way goes through types that belong to those of another way. -/
theorem LandsIn.mirror {next next' : NodeId → Option (Option NodeId)} (h : LandsIn next n v t)
    (hv : Option.Rel R v v')
    (hnext : ∀ i i', R i i' → Option.Rel (Option.Rel R) (next i) (next' i')) :
    ∃ t', LandsIn next' n v' t' ∧ R t t' := by
  induction h generalizing v' with
  | @last t hlast =>
    cases hv with
    | @some t t' ht =>
      have hends := hnext t t' ht
      rw [hlast] at hends
      generalize hlast' : next' t' = w at hends
      cases hends
      exact ⟨t', .last hlast', ht⟩
  | @step n i t w hstep _ ih =>
    cases hv with
    | @some i i' hi =>
      have hgoes := hnext i i' hi
      rw [hstep] at hgoes
      generalize hstep' : next' i' = w' at hgoes
      cases hgoes with
      | some hw =>
        obtain ⟨t', hway, ht⟩ := ih hw
        exact ⟨t', .step hstep' hway, ht⟩

theorem Mirrored.peeled? (h : Mirrored R g g' i i') :
    Option.Rel (Option.Rel R) (g.peeled? i) (g'.peeled? i') := by
  cases h with
  | scalar body body' | object body body' | allOf body body' | oneOf body body' =>
    rw [Graph.peeled?, Graph.peeled?, body, body']
    exact .none
  | array body body' items =>
    rw [Graph.peeled?, Graph.peeled?, body, body']
    exact .some (.some items)
  | ref body body' target =>
    rw [Graph.peeled?, Graph.peeled?, body, body']
    exact .some (.some target)
  | union body body' variant variant' shape =>
    rw [Graph.peeled?, Graph.peeled?, body, body', variant, variant']
    exact .some (.some shape)

theorem Mirrored.inner? (h : Mirrored R g g' i i') :
    Option.Rel (Option.Rel R) (g.inner? i) (g'.inner? i') := by
  cases h with
  | scalar body body' | object body body' | allOf body body' =>
    rw [Graph.inner?, Graph.inner?, body, body']
    exact .none
  | array body body' items =>
    rw [Graph.inner?, Graph.inner?, body, body']
    exact .some (.some items)
  | ref body body' target =>
    rw [Graph.inner?, Graph.inner?, body, body']
    exact .some (.some target)
  | union body body' variant variant' shape =>
    rw [Graph.inner?, Graph.inner?, body, body', variant, variant']
    exact .some (.some shape)
  | @oneOf parts u u' v v' body body' union union' choice variant variant' shape =>
    have hone : g.oneOfVariant i = .ok (some v) := by
      rw [oneOfVariant, union]
      exact variant
    have hone' : g'.oneOfVariant i' = .ok (some v') := by
      rw [oneOfVariant, union']
      exact variant'
    rw [Graph.inner?, Graph.inner?, body, body', hone, hone']
    exact .some (.some shape)

theorem Mirrored.isChoice (h : Mirrored R g g' i i') :
    (g.node i).body.isChoice = (g'.node i').body.isChoice := by
  cases h <;> simp_all [Body.isChoice]

theorem Mirrored.isType_iff (h : Mirrored R g g' i i') :
    (g.node i).body.IsType ↔ (g'.node i').body.IsType := by
  cases h <;> simp_all [Body.IsType]

theorem Mirrored.members (h : Mirrored R g g' i i')
    (hi : (g.node i).body = .object ∨ ∃ parts, (g.node i).body = .composed .allOf parts) :
    (g'.node i').body = .object ∨ ∃ parts, (g'.node i').body = .composed .allOf parts := by
  cases h <;> simp_all

/-- The unions of choices belong together. -/
theorem Mirrored.exists_union (h : Mirrored R g g' i i') {parts : Option Json} {u : Option NodeId}
    (hi : (g.node i).body = .composed .oneOf parts) (hu : g.unionOf i = .ok u) :
    ∃ u', (g'.node i').body = .composed .oneOf parts ∧ g'.unionOf i' = .ok u' ∧ Option.Rel R u u' := by
  cases h with
  | oneOf body body' union union' choice =>
    rw [hi] at body
    cases body
    rw [hu] at union
    cases union
    exact ⟨_, body', union', .some choice⟩
  | _ => simp_all

namespace Reflects

variable (h : Reflects R g g')

include h

theorem hasFields (hi : R i i') : g.hasFields i = g'.hasFields i' := by
  have hempty : (g.node i).props.isEmpty = (g'.node i').props.isEmpty := by
    have hprops := h.props hi
    generalize (g.node i).props = m, (g'.node i').props = m' at hprops
    cases hprops <;> rfl
  cases h.types hi <;> simp_all [Graph.hasFields]

/-- A selection goes to types that belong together. -/
theorem exists_targets (hv : Option.Rel R v v') (ht : g.Targets v t) : ∃ t', g'.Targets v' t' ∧ R t t' := by
  obtain ⟨n, hway⟩ := ht
  obtain ⟨t', hway', hrel⟩ := hway.mirror hv fun i i' hi => (h.types hi).peeled?
  exact ⟨t', ⟨n, hway'⟩, hrel⟩

theorem exists_unwraps (hv : Option.Rel R v v') (ht : g.Unwraps v t) : ∃ t', g'.Unwraps v' t' ∧ R t t' := by
  obtain ⟨n, hway⟩ := ht
  obtain ⟨t', hway', hrel⟩ := hway.mirror hv fun i i' hi => (h.types hi).inner?
  exact ⟨t', ⟨n, hway'⟩, hrel⟩

theorem isCompound (hv : Option.Rel R v v') (hcompound : g.IsCompound v) : g'.IsCompound v' := by
  obtain ⟨t, ht, hfields⟩ := hcompound
  obtain ⟨t', ht', hrel⟩ := h.exists_unwraps hv ht
  exact ⟨t', ht', by rwa [← h.hasFields hrel]⟩

theorem isPlain (hv : Option.Rel R v v') (hplain : g.IsPlain v) : g'.IsPlain v' := by
  obtain rfl | ⟨t, ht, hfields, hchoice⟩ := hplain
  · cases hv
    exact .inl rfl
  · obtain ⟨t', ht', hrel⟩ := h.exists_unwraps hv ht
    exact .inr ⟨t', ht', by rwa [← h.hasFields hrel], by rwa [← (h.types hrel).isChoice]⟩

end Reflects

/-! ## Lines -/

end Graph

/-- Lines are written for fields and values that belong together. -/
inductive SelectionTask.Mirrors (R : NodeId → NodeId → Prop) (g g' : Graph) :
    SelectionTask → SelectionTask → Prop
  | field {p p' : NodeId} (same : g.SameField R g' p p') : Mirrors R g g' (.field p) (.field p')
  | value {v v' : Option NodeId} (rel : Option.Rel R v v') : Mirrors R g g' (.value v) (.value v')
  | fields {ps ps' : List NodeId} (same : List.Forall₂ (g.SameField R g') ps ps') :
      Mirrors R g g' (.fields ps) (.fields ps')

theorem Graph.SameField.nameOf {R : NodeId → NodeId → Prop} {g g' : Graph} {p p' : NodeId}
    (h : g.SameField R g' p p') : Selecting.nameOf (g.node p) = Selecting.nameOf (g'.node p') := by
  rw [Selecting.nameOf, Selecting.nameOf, h.name]

namespace Graph.Mirrors

variable {R : NodeId → NodeId → Prop} {g g' : Graph} {stack stack' : List (Option NodeId)}
  {task task' : SelectionTask} {ls : List SelectionLine} {p p' t t' : NodeId} (h : Mirrors R g g')

include h

/-- The run is inside a type just if it is inside the one that belongs to it. -/
theorem mem_stack_iff (hstack : List.Forall₂ (Option.Rel R) stack stack') (ht : R t t') :
    some t ∈ stack ↔ some t' ∈ stack' := by
  induction hstack with
  | nil => simp
  | @cons v v' _ _ hv _ ih =>
    have hhead : some t = v ↔ some t' = v' := by
      cases hv with
      | none => simp
      | some hi => rw [Option.some_inj, Option.some_inj, h.unique ht hi]
    rw [List.mem_cons, List.mem_cons, hhead, ih]

/-- The lines that one graph says are those that the other one says, apart from the places of their
fields. -/
theorem exists_selects (hs : g.Selects stack task ls)
    (hstack : List.Forall₂ (Option.Rel R) stack stack') (htask : task.Mirrors R g g' task') :
    ∃ ls', g'.Selects stack' task' ls' ∧ ls'.map SelectionLine.render = ls.map SelectionLine.render := by
  have hlength := fun {stack stack' : List (Option NodeId)}
    (hstack : List.Forall₂ (Option.Rel R) stack stack') => hstack.length_eq
  induction hs generalizing stack' task' with
  | leaf plain name_eq =>
    cases htask with
    | field same =>
      refine ⟨_, .leaf (h.isPlain same.value plain) (same.nameOf ▸ name_eq), ?_⟩
      rw [← hlength hstack]
      rfl
  | skipped compound target inside =>
    cases htask with
    | field same =>
      obtain ⟨t', target', ht⟩ := h.exists_targets same.value target
      exact ⟨[], .skipped (h.isCompound same.value compound) target'
        ((h.mem_stack_iff hstack ht).1 inside), rfl⟩
  | braces compound target outside name_eq _ ih =>
    cases htask with
    | field same =>
      obtain ⟨t', target', ht⟩ := h.exists_targets same.value target
      obtain ⟨ls', hvalue, hrender⟩ := ih hstack (.value same.value)
      refine ⟨_, .braces (h.isCompound same.value compound) target'
        (mt (h.mem_stack_iff hstack ht).2 outside) (same.nameOf ▸ name_eq) hvalue, ?_⟩
      rw [← hlength hstack, List.map_cons, List.map_cons, List.map_append, List.map_append, hrender]
      rfl
  | property target property =>
    cases htask with
    | value rel =>
      obtain ⟨i', -, hi⟩ := h.exists_targets rel target
      obtain ⟨slot, arguments, link, hbody⟩ := property
      cases h.types hi <;> simp_all
  | inside target type inside =>
    cases htask with
    | value rel =>
      obtain ⟨i', target', hi⟩ := h.exists_targets rel target
      exact ⟨[], .inside target' ((h.types hi).isType_iff.1 type) ((h.mem_stack_iff hstack hi).1 inside), rfl⟩
  | choice target body outside union _ ih =>
    cases htask with
    | value rel =>
      obtain ⟨i', target', hi⟩ := h.exists_targets rel target
      obtain ⟨u', body', hunion', hrel⟩ := (h.types hi).exists_union body union
      obtain ⟨ls', hvariant, hrender⟩ := ih (.cons (.some hi) hstack) (.value hrel)
      exact ⟨ls', .choice target' body' (mt (h.mem_stack_iff hstack hi).2 outside) hunion' hvariant,
        hrender⟩
  | members target body outside _ ih =>
    cases htask with
    | value rel =>
      obtain ⟨i', target', hi⟩ := h.exists_targets rel target
      obtain ⟨ls', hfields, hrender⟩ := ih (.cons (.some hi) hstack) (.fields (h.props hi).forall₂_values)
      exact ⟨ls', .members target' ((h.types hi).members body) (mt (h.mem_stack_iff hstack hi).2 outside)
        hfields, hrender⟩
  | nothing target type property =>
    cases htask with
    | value rel =>
      obtain ⟨i', target', hi⟩ := h.exists_targets rel target
      refine ⟨[], .nothing target' (mt (h.types hi).isType_iff.2 type) ?_, rfl⟩
      rintro ⟨slot, arguments, link, hbody⟩
      cases h.types hi <;> simp_all
  | nil =>
    cases htask with
    | fields same =>
      cases same
      exact ⟨[], .nil, rfl⟩
  | cons _ _ ih ih' =>
    cases htask with
    | fields same =>
      cases same with
      | cons hp hps =>
        obtain ⟨ls', hfield, hrender⟩ := ih hstack (.field hp)
        obtain ⟨more', hfields, hrender'⟩ := ih' hstack (.fields hps)
        refine ⟨_, .cons hfield hfields, ?_⟩
        rw [List.map_append, List.map_append, hrender, hrender']

/-- Types and fields that have counterparts lead to such types and fields. -/
theorem sorted (hmention : ∀ {i i'}, R i i' → ∃ words, Selecting.mention g' i' = .ok words) :
    g'.Sorted (fun i' => ∃ i, R i i') fun p' => ∃ p, g.SameField R g' p p' where
  lt_size := by
    rintro i' ⟨i, hi⟩
    refine lt_size_of_body rfl fun hbare => ?_
    cases h.types hi <;> simp_all
  mention := fun ⟨_, hi⟩ => hmention hi
  kind := by
    rintro i' ⟨i, hi⟩ hbare
    cases h.types hi <;> simp_all
  type := by
    rintro i' ⟨i, hi⟩ ⟨slot, arguments, link, hbody⟩
    cases h.types hi <;> simp_all
  peeled := by
    rintro i' k' ⟨i, hi⟩ hk
    have hpeeled := (h.types hi).peeled?
    rw [hk] at hpeeled
    generalize g.peeled? i = v at hpeeled
    cases hpeeled with
    | some hv =>
      cases hv with
      | some hrel => exact ⟨_, hrel⟩
  union := by
    rintro i' u' parts ⟨i, hi⟩ hbody hu
    cases h.types hi with
    | oneOf body body' union union' choice =>
      rw [hu] at union'
      cases union'
      exact ⟨_, choice⟩
    | _ => simp_all
  props := by
    rintro i' ⟨i, hi⟩ p' hp'
    obtain ⟨p, -, hp⟩ := (h.props hi).exists_left hp'
    exact ⟨p, hp⟩
  field := fun ⟨_, hp⟩ => hp.field'
  value := by
    rintro p' i' ⟨p, hp⟩ hi'
    have hvalue := hp.value
    rw [hi'] at hvalue
    generalize (g.node p).valueType? = v at hvalue
    cases hvalue with
    | some hrel => exact ⟨_, hrel⟩

/-- A field is selected in one graph as in the other, apart from the places of fields. -/
theorem exists_select (hmention : ∀ {i i'}, R i i' → ∃ words, Selecting.mention g' i' = .ok words)
    (hp : g.SameField R g' p p') (hs : g.Selects [] (.field p) ls) {s : SelectionDraft}
    (hgraph : s.context.graph = g') (hstack : s.context.stack = []) :
    ∃ s' ls', Selecting.select (some p') s = .ok () s' ∧ Selecting.Written s s' ls' ∧
      ls'.map SelectionLine.render = ls.map SelectionLine.render := by
  obtain ⟨ls', hselects, hrender⟩ := h.exists_selects hs .nil (.field hp)
  obtain ⟨s', hselect, hwritten⟩ :=
    Selecting.exists_select (h.sorted hmention) ⟨p, hp⟩ hselects hgraph hstack
  exact ⟨s', ls', hselect, hwritten, hrender⟩

end Graph.Mirrors

end ApiGraph
