import ApiGraph.Proofs.Drafting.Documents

/-!
# What definitions declare

Every type among the definitions declares the properties of the node that it was written for, in order
and by their own names.

* `Argument.Declared`, `Field.Declared`, `TypeBlock.Declared` — what a part of the definitions takes from
  its node;
* `Drafting.declared_argument`, `Drafting.declared_field` — so it is with what is written;
* `Drafting.Adds` — steps that leave the graph alone and add types of this kind;
* `Drafting.adds_writeType`, `Drafting.adds_generate`, `Drafting.adds_flush`, … — one lemma for each step;
* `Drafting.declared_of_definitions` — so all definitions of a finished graph are.
-/

namespace ApiGraph

open OrderedMap Drafting

/-- The names that a draft has given to types that had none. -/
def Draft.Given (D : Draft) (t : NodeId) (name : Json) : Prop :=
  ∃ s, get? t D.inlineNames = some (some s) ∧ name = .str s

/-- A step of a draft over a graph yields a value, when the names that were given so far are among those that
types are called by. -/
def Drafting.Yields {α : Type} (g : Graph) (called : NodeId → Json → Prop) (m : Drafting α) (a : α) : Prop :=
  ∃ D D' : Draft, D.context.graph = g ∧ (∀ t name, D.Given t name → called t name) ∧ m D = .ok a D'

/-- What an argument takes from its node: the name, the type, and what the slot says besides it. -/
structure Argument.Declared (config : Config) (g : Graph) (called : NodeId → Json → Prop)
    (a : Argument) : Prop where
  name : ∃ s, (g.node a.node).name = .str s ∧ a.name = fieldName s
  type : ∃ type, (g.node a.node).type? = some type ∧
    Drafting.Yields g called (argumentType config type) a.type
  slot : ∃ slot, (g.node a.node).slot? = some slot ∧ a.required = slot.isRequired ∧
    a.default = slot.default

/-- What a field takes from its property: the name, the type that its value has, the arguments in order,
and what the slot says besides the type. -/
structure Field.Declared (config : Config) (g : Graph) (called : NodeId → Json → Prop) (f : Field) :
    Prop where
  name : ∃ s, (g.node f.node).IsProperty s ∧ f.name = fieldName s
  type : Drafting.Yields g called (typeExpr config (g.node f.node).valueType?) f.type
  slot : ∃ slot, (g.node f.node).slot? = some slot ∧ f.required = slot.isRequired ∧
    f.default = slot.default
  listed : f.arguments.map (fun a => some a.node) = (g.node f.node).arguments
  arguments : ∀ a ∈ f.arguments, a.Declared config g called

/-- A type declares the properties of its node in order. -/
structure TypeBlock.Declared (config : Config) (g : Graph) (called : NodeId → Json → Prop)
    (b : TypeBlock) : Prop where
  listed : b.fields.map Field.node = values (g.node b.node).props
  fields : ∀ f ∈ b.fields, f.Declared config g called

section

variable {config : Config} {g : Graph} {called called' : NodeId → Json → Prop} {D D' : Draft}

theorem Draft.Given.extends {t : NodeId} {name : Json} (h : D.Given t name) (he : D.Extends D') :
    D'.Given t name := by
  obtain ⟨s, hs, rfl⟩ := h
  exact ⟨s, he.names t _ hs, rfl⟩

theorem Drafting.Yields.imp {α : Type} {m : Drafting α} {a : α} (h : Drafting.Yields g called m a)
    (hcalled : ∀ t name, called t name → called' t name) : Drafting.Yields g called' m a := by
  obtain ⟨D, D', hgraph, hgiven, hrun⟩ := h
  exact ⟨D, D', hgraph, fun t name ht => hcalled t name (hgiven t name ht), hrun⟩

theorem Argument.Declared.imp {a : Argument} (h : a.Declared config g called)
    (hcalled : ∀ t name, called t name → called' t name) : a.Declared config g called' := by
  obtain ⟨type, htype, hyields⟩ := h.type
  exact ⟨h.name, ⟨type, htype, hyields.imp hcalled⟩, h.slot⟩

theorem Field.Declared.imp {f : Field} (h : f.Declared config g called)
    (hcalled : ∀ t name, called t name → called' t name) : f.Declared config g called' :=
  ⟨h.name, h.type.imp hcalled, h.slot, h.listed, fun a ha => (h.arguments a ha).imp hcalled⟩

theorem TypeBlock.Declared.imp {b : TypeBlock} (h : b.Declared config g called)
    (hcalled : ∀ t name, called t name → called' t name) : b.Declared config g called' :=
  ⟨h.listed, fun f hf => (h.fields f hf).imp hcalled⟩

end

namespace Drafting

variable {α β : Type} {config : Config} {g : Graph} {D D' : Draft} {i : NodeId} {name : Json}

/-! ## Fields and arguments -/

theorem declared_argument {a : Argument} (h : argument config i D = .ok a D') :
    a.node = i ∧ a.Declared config D.context.graph D.Given := by
  obtain ⟨n, D₁, hn, h⟩ := bind_eq_ok_iff.1 h
  cases hn
  obtain ⟨type, D₂, hlift, h⟩ := bind_eq_ok_iff.1 h
  obtain ⟨htype, rfl⟩ := eq_ok_of_lift hlift
  obtain ⟨e, D₃, he, h⟩ := bind_eq_ok_iff.1 h
  obtain ⟨s, D₄, hlift, h⟩ := bind_eq_ok_iff.1 h
  obtain ⟨hname, rfl⟩ := eq_ok_of_lift hlift
  obtain ⟨slot, D₅, hlift, h⟩ := bind_eq_ok_iff.1 h
  obtain ⟨hslot, rfl⟩ := eq_ok_of_lift hlift
  cases h
  exact ⟨rfl, ⟨s, eq_str_of_textOf hname, rfl⟩,
    ⟨type, eq_some_of_expect htype, _, _, rfl, fun _ _ => id, he⟩, slot, eq_some_of_expect hslot, rfl, rfl⟩

/-- Arguments are written one by one. -/
theorem declared_arguments {arguments : List (Option NodeId)} {written : List Argument}
    (h : (arguments.mapM fun a => do argument config (← lift (expect a)) :
      Drafting (List Argument)) D = .ok written D') :
    written.map (fun a => some a.node) = arguments ∧
      ∀ a ∈ written, a.Declared config D.context.graph D'.Given := by
  induction arguments generalizing D written with
  | nil =>
    rw [List.mapM_nil] at h
    cases h
    simp
  | cons a rest ih =>
    rw [List.mapM_cons] at h
    obtain ⟨first, D₁, hfirst, h⟩ := bind_eq_ok_iff.1 h
    obtain ⟨others, D₂, hothers, h⟩ := bind_eq_ok_iff.1 h
    cases h
    obtain ⟨i, D₀, hlift, hfirst⟩ := bind_eq_ok_iff.1 hfirst
    obtain ⟨hexpect, rfl⟩ := eq_ok_of_lift hlift
    obtain ⟨hnode, hdeclared⟩ := declared_argument hfirst
    obtain ⟨hlisted, hall⟩ := ih hothers
    have hstill := (quiet_argument config i).of_ok hfirst
    have hrest := (quiet_arguments config rest).of_ok hothers
    rw [hstill.graph] at hall
    refine ⟨?_, List.forall_mem_cons.2 ⟨hdeclared.imp fun _ _ hgiven =>
      hgiven.extends (hstill.extends.trans hrest.extends), hall⟩⟩
    rw [List.map_cons, hlisted, hnode, eq_some_of_expect hexpect]

/-- A field is written for a property, under its name. -/
theorem declared_field {f : Field} (h : field config name i D = .ok f D') :
    f.node = i ∧ f.Declared config D.context.graph D'.Given ∧ D.Extends D' ∧ D'.types = D.types := by
  obtain ⟨slot, arguments, link, ownerName, words, s, D₁, written, D₂, e, hbody, -, hinline, hname,
    harguments, htype, rfl⟩ := field_cases h
  have hgives := gives_nameInline hinline
  have harguments' := (quiet_arguments config arguments).of_ok harguments
  have htype' := (quiet_typeExpr config _).of_ok htype
  obtain ⟨hlisted, hall⟩ := declared_arguments harguments
  rw [hgives.keeps.graph] at hall
  refine ⟨rfl, ⟨⟨s, ⟨hname, slot, arguments, link, hbody⟩, rfl⟩, ⟨D₂, D', ?_, ?_, htype⟩,
    ⟨slot, by rw [Node.slot?, hbody], rfl, rfl⟩, ?_, fun a ha => (hall a ha).imp ?_⟩, ?_, ?_⟩
  · rw [harguments'.graph, hgives.keeps.graph]
  · exact fun _ _ hgiven => hgiven.extends htype'.extends
  · rw [Node.arguments, hbody]
    exact hlisted
  · exact fun _ _ hgiven => hgiven.extends htype'.extends
  · exact hgives.keeps.trans (harguments'.extends.trans htype'.extends)
  · exact (harguments'.trans htype').types.trans hgives.types

/-- Fields are written one by one. -/
theorem declared_mapM {props : List NodeId} {fields : List Field}
    (h : props.mapM (field config name) D = .ok fields D') :
    fields.map Field.node = props ∧ (∀ f ∈ fields, f.Declared config D.context.graph D'.Given) ∧
      D.Extends D' ∧ D'.types = D.types := by
  induction props generalizing D fields with
  | nil =>
    rw [List.mapM_nil] at h
    cases h
    exact ⟨rfl, by simp, (Draft.Still.refl _).extends, rfl⟩
  | cons i rest ih =>
    rw [List.mapM_cons] at h
    obtain ⟨f, D₁, hone, h⟩ := bind_eq_ok_iff.1 h
    obtain ⟨others, D₂, hothers, h⟩ := bind_eq_ok_iff.1 h
    cases h
    obtain ⟨hnode, hdeclared, hkeeps, htypes⟩ := declared_field hone
    obtain ⟨hlisted, hall, hkeeps', htypes'⟩ := ih hothers
    rw [hkeeps.graph] at hall
    exact ⟨by rw [List.map_cons, hnode, hlisted], List.forall_mem_cons.2
      ⟨hdeclared.imp fun _ _ hgiven => hgiven.extends hkeeps', hall⟩, hkeeps.trans hkeeps',
      htypes'.trans htypes⟩

/-! ## Steps -/

/-- A step over a graph that keeps what was there, and adds types that declare the properties of their
nodes. -/
def Adds (config : Config) (g : Graph) (m : Drafting α) : Prop :=
  ∀ D a D', D.context.graph = g → m D = .ok a D' → D.Extends D' ∧
    ∃ more, D'.types = D.types ++ more ∧ ∀ b ∈ more, b.Declared config g D'.Given

theorem adds_of_same {m : Drafting α}
    (h : ∀ D a D', D.context.graph = g → m D = .ok a D' → D.Extends D' ∧ D'.types = D.types) :
    Adds config g m := by
  intro D a D' hgraph hrun
  obtain ⟨hkeeps, htypes⟩ := h D a D' hgraph hrun
  exact ⟨hkeeps, [], by rw [htypes, List.append_nil], by simp⟩

theorem Quiet.adds {m : Drafting α} (h : Quiet m) : Adds config g m :=
  adds_of_same fun _ _ _ _ hrun => ⟨(h.of_ok hrun).extends, (h.of_ok hrun).types⟩

theorem Adds.bind {m : Drafting α} {f : α → Drafting β} (hm : Adds config g m) (hf : ∀ a, Adds config g (f a)) :
    Adds config g (m >>= f) := by
  intro D b D' hgraph hrun
  obtain ⟨a, D₁, ha, hb⟩ := bind_eq_ok_iff.1 hrun
  obtain ⟨hkeeps, more, htypes, hmore⟩ := hm D a D₁ hgraph ha
  obtain ⟨hkeeps', more', htypes', hmore'⟩ := hf a D₁ b D' (hkeeps.graph.trans hgraph) hb
  refine ⟨hkeeps.trans hkeeps', more ++ more', by rw [htypes', htypes, List.append_assoc], fun b hb => ?_⟩
  rcases List.mem_append.1 hb with hb | hb
  · exact (hmore b hb).imp fun _ _ hgiven => hgiven.extends hkeeps'
  · exact hmore' b hb

theorem adds_get_bind {f : Draft → Drafting α} (h : ∀ D, Adds config g (f D)) : Adds config g (get >>= f) :=
  fun D => h D D

theorem adds_node_bind {f : Node → Drafting α} (h : Adds config g (f (g.node i))) :
    Adds config g (node i >>= f) := by
  intro D a D' hgraph hrun
  obtain ⟨n, D₁, hn, hrun⟩ := bind_eq_ok_iff.1 hrun
  cases hn
  rw [hgraph] at hrun
  exact h D a D' hgraph hrun

/-- A change to nothing but the names that are taken, the types that wait and the choices that were
written. -/
theorem adds_modify {f : Draft → Draft} (h : ∀ D : Draft, ∃ taken pending variants, f D =
    { D with takenNames := taken, pending := pending, writtenVariants := variants }) :
    Adds config g (modify f : Drafting Unit) := by
  refine adds_of_same fun D u D' _ hrun => ?_
  cases hrun
  obtain ⟨taken, pending, variants, hf⟩ := h D
  rw [hf]
  exact ⟨⟨rfl, fun _ _ => id, List.prefix_refl _, id⟩, rfl⟩

theorem adds_forM {f : α → Drafting Unit} (h : ∀ a, Adds config g (f a)) (xs : List α) :
    Adds config g (xs.forM f) := by
  induction xs with
  | nil => exact (quiet_pure _).adds
  | cons x xs ih => exact (h x).bind fun _ => ih

theorem adds_within {step : Drafting α} (h : Adds config g step) : Adds config g (within i step) := by
  intro D a D' hgraph hrun
  obtain ⟨D₁, D₂, hin, hstep, hout⟩ := exists_of_within hrun
  obtain ⟨hkeeps, more, htypes, hmore⟩ := h D₁ a D₂ (hin.still.graph.trans hgraph) hstep
  refine ⟨hin.still.extends.trans (hkeeps.trans hout.still.extends), more, ?_, fun b hb => ?_⟩
  · rw [hout.still.types, htypes, hin.still.types]
  · exact (hmore b hb).imp fun _ _ hgiven => hgiven.extends hout.still.extends

theorem adds_traced {step : Drafting Unit} (h : Adds config g step) : Adds config g (traced i step) :=
  adds_within ((quiet_node i).adds.bind fun _ => (quiet_run (Run.idle_trace _ _)).adds.bind fun _ =>
    h.bind fun _ => (quiet_run (Run.idle_trace _ _)).adds)

/-! ## Types -/

theorem adds_writeType : Adds config g (writeType config i name (values (g.node i).props)) := by
  intro D u D' hgraph hrun
  obtain ⟨fields, D₁, hfields, hrun⟩ := bind_eq_ok_iff.1 hrun
  obtain ⟨hlisted, hall, hkeeps, htypes⟩ := declared_mapM hfields
  rw [hgraph] at hall
  cases hrun
  refine ⟨hkeeps.trans ⟨rfl, fun _ _ => id, List.prefix_append _ _, id⟩, [⟨i, name, fields⟩],
    congrArg (· ++ _) htypes, fun b hb => ?_⟩
  obtain rfl := List.mem_singleton.1 hb
  exact ⟨hlisted, hall⟩

theorem adds_writeObject : Adds config g (writeObject config i) := by
  refine adds_node_bind ?_
  split
  · exact (quiet_pure _).adds
  · exact (quiet_typeName config i).adds.bind fun _ => adds_writeType

theorem adds_nameVariant : Adds config g (nameVariant i) := by
  refine adds_of_same fun D named D' hgraph hrun => ?_
  obtain ⟨variant, -, ⟨-, rfl, -⟩ | ⟨v, name, -, -, -, ⟨given, -, -, rfl⟩ | ⟨hnone, -, rfl⟩⟩⟩ :=
    nameVariant_cases hgraph hrun
  · exact ⟨(Draft.Still.refl D).extends, rfl⟩
  · exact ⟨(Draft.Still.refl D).extends, rfl⟩
  · refine ⟨⟨rfl, fun t given ht => ?_, List.prefix_refl _, id⟩, rfl⟩
    have hne : t ≠ v := by
      rintro rfl
      rw [hnone] at ht
      cases ht
    rwa [get?_insert_of_ne hne]

theorem adds_writeVariant (variant : Option NodeId) : Adds config g (writeVariant config i variant) := by
  cases variant with
  | none => exact (quiet_pure _).adds
  | some variant =>
    refine adds_nameVariant.bind fun named => ?_
    split
    · refine adds_get_bind fun D => ?_
      split
      · exact Adds.bind (adds_modify fun _ => ⟨_, _, _, rfl⟩) fun _ =>
          adds_traced adds_writeObject
      · exact (quiet_pure _).adds
    · exact (quiet_pure _).adds

theorem adds_generate : Adds config g (generate config i) := by
  refine adds_traced (quiet_graph.adds.bind fun g' => ?_)
  split
  · exact adds_writeObject
  · exact adds_writeObject
  · exact (quiet_lift _).adds.bind fun _ => adds_writeVariant _
  · exact (quiet_lift _).adds.bind fun _ => adds_writeVariant _
  all_goals first | exact (quiet_pure _).adds | exact (quiet_throw _).adds

theorem adds_flushWithin (steps : Nat) : Adds config g (flushWithin config steps) := by
  induction steps with
  | zero => exact (quiet_throw _).adds
  | succ steps ih =>
    refine adds_get_bind fun D => ?_
    split
    · exact (quiet_pure _).adds
    · exact Adds.bind (adds_modify fun _ => ⟨_, _, _, rfl⟩) fun _ => adds_generate.bind fun _ => ih

theorem adds_flush : Adds config g (flush config) := adds_get_bind fun _ => adds_flushWithin _

theorem quiet_filterMapM_lift (f : α → Attempt (Option β)) (xs : List α) :
    Quiet (xs.filterMapM fun x => lift (f x)) := by
  induction xs with
  | nil => exact quiet_pure _
  | cons x xs ih =>
    rw [List.filterMapM_cons]
    refine (quiet_lift _).bind fun y => ?_
    split
    · exact ih
    · exact ih.bind fun _ => quiet_pure _

theorem adds_takeNames (roots : List NodeId) : Adds config g (takeNames roots) :=
  quiet_graph.adds.bind fun _ => (quiet_filterMapM_lift _ roots).adds.bind fun _ =>
    adds_modify fun _ => ⟨_, _, _, rfl⟩

theorem adds_takeQueryName : Adds config g (takeQueryName config) := by
  refine (quiet_lift _).adds.bind fun _ => ?_
  split
  · exact adds_modify fun _ => ⟨_, _, _, rfl⟩
  · exact (quiet_pure _).adds

/-- The definitions hold all types that were written. -/
theorem types_of_finish {defs : Definitions} (h : definitions.finish config D = .ok defs D') :
    defs.types = D'.types := by
  obtain ⟨E, E', hget, h⟩ := bind_eq_ok_iff.1 h
  cases hget
  cases h
  rfl

theorem types_of_definitions {roots : List NodeId} {query : Option NodeId} {defs : Definitions}
    (h : definitions config roots query D = .ok defs D') : defs.types = D'.types := by
  obtain ⟨-, D₁, -, h⟩ := bind_eq_ok_iff.1 h
  obtain ⟨-, D₂, -, h⟩ := bind_eq_ok_iff.1 h
  obtain ⟨-, D₃, -, h⟩ := bind_eq_ok_iff.1 h
  obtain ⟨-, D₄, -, h⟩ := bind_eq_ok_iff.1 h
  split at h
  · exact types_of_finish h
  · obtain ⟨n, D₅, -, h⟩ := bind_eq_ok_iff.1 h
    dsimp only at h
    split at h
    · exact types_of_finish h
    · obtain ⟨-, D₆, -, h⟩ := bind_eq_ok_iff.1 h
      obtain ⟨-, D₇, -, h⟩ := bind_eq_ok_iff.1 h
      exact types_of_finish h

/-- The types that are written for some nodes, and for the query object. -/
theorem adds_definitions (roots : List NodeId) (query : Option NodeId) :
    Adds config g (definitions config roots query) := by
  have hfinish : Adds config g (definitions.finish config) := adds_get_bind fun _ => (quiet_pure _).adds
  refine (adds_takeNames roots).bind fun _ => adds_takeQueryName.bind fun _ =>
    (adds_forM (fun i => adds_nameVariant.bind fun _ => (quiet_pure _).adds) roots).bind fun _ =>
      (adds_forM (fun i => adds_generate.bind fun _ => adds_flush) roots).bind fun _ => ?_
  split
  · exact hfinish
  · next q =>
    refine adds_node_bind ?_
    split
    · exact hfinish
    · exact (adds_within adds_writeType).bind fun _ => adds_flush.bind fun _ => hfinish

end Drafting

/-- In a complete draft, the types that were given names were written under these. -/
theorem Draft.Complete.defines_of_given {d : Document} {config : Config} {query t : NodeId} {c : Context}
    {D : Draft} {name : Json} (h : c.Finished d query) (hD : D.Complete config c query)
    (hgiven : D.Given t name) : TypeBlock.Defines D.types t name := by
  obtain ⟨s, hs, rfl⟩ := hgiven
  have hcontains : contains t D.inlineNames = true := by
    rw [contains, hs]
    rfl
  have hanonymous := ((hD.consistent.names t).1 hcontains).1
  rw [isAnonymous_some, Bool.and_eq_true] at hanonymous
  obtain ⟨b, hb, hnode, hcalls⟩ := hD.written t (hD.consistent.visited_of_contains h hcontains).2
    hanonymous.2 (.inr hcontains)
  have hcalled : D.Calls t (.str s) := .given (by rw [hD.consistent.graph, hanonymous.1]) hs
  exact ⟨b, hb, hnode, hcalls.unique hcalled⟩

/-- Every type that was written of a finished graph declares the properties of its node. -/
theorem Drafting.declared_of_definitions {d : Document} {config : Config} {query : NodeId} {c : Context}
    {D : Draft} {defs : Definitions} (h : c.Finished d query)
    (hrun : definitions config c.roots (some query) { context := c } = .ok defs D) :
    ∀ b ∈ defs.types, b.Declared config c.graph (TypeBlock.Defines defs.types) := by
  have hD := (complete_definitions h hrun).1
  obtain ⟨-, more, htypes, hmore⟩ := adds_definitions c.roots (some query) _ _ D rfl hrun
  rw [types_of_definitions hrun]
  intro b hb
  have hb' : b ∈ more := by rwa [htypes] at hb
  exact (hmore b hb').imp fun t name hgiven => hD.defines_of_given h hgiven

end ApiGraph
