import ApiGraph.Proofs.Drafting.Steps

/-!
# Fields of a draft

Fields give names to the types that they lead to, and speak of other types by their names.

* `Context.Named` — a type that has a name once some fields are written;
* `Field.Rendered`, `Field.FallsBack` — what the names inside a field stand for, and a field that speaks
  of the scalar;
* `Draft.Extends` — what was named and written before is kept;
* `Draft.Consistent` — what holds of a draft in which some fields were written;
* `Draft.Consistent.field`, `Draft.Consistent.mapM_field` — so it is with one more field, and with more.
-/

namespace ApiGraph

open OrderedMap Drafting

/-! ## Names -/

/-- The value of a property leads to a node through arrays, unions and choices without a name. -/
def Graph.Reaches (g : Graph) (i t : NodeId) : Prop :=
  inlineTarget g (g.size + 2) (g.node i).valueType? = .ok (some t)

/-- What is stored, in order. -/
def Context.roots (c : Context) : List NodeId := (values c.types).filterMap id

/-- A type with fields and with a name of its own is stored, unless it is the query object. -/
theorem Context.Finished.mem_roots {d : Document} {query t : NodeId} {c : Context}
    (h : c.Finished d query) (hne : t ≠ query) (hfields : c.graph.hasFields t = true)
    (hnamed : (c.graph.node t).name.isNull = false) : t ∈ c.roots :=
  List.mem_filterMap.2 ⟨some t, h.named hne (Graph.slot?_of_hasFields hfields) hnamed, rfl⟩

/-- A node is the kept shape of a stored choice, or one of some fields leads to it. -/
def Context.Reached (c : Context) (fs : List Field) (t : NodeId) : Prop :=
  (∃ r ∈ c.roots, variantOf c.graph r = .ok (some t)) ∨ ∃ f ∈ fs, c.graph.Reaches f.node t

/-- A node has a name of its own, or was given one by a choice or by one of some fields. -/
def Context.Named (c : Context) (fs : List Field) (t : NodeId) : Prop :=
  (c.graph.node t).name.isNull = false ∨ c.Reached fs t

theorem Drafting.isAnonymous_some (g : Graph) (t : NodeId) :
    isAnonymous g (some t) = ((g.node t).name.isNull && g.hasFields t) := rfl

/-- A type with fields has a name just if it is not anonymous or was given one. -/
theorem Context.named_iff {c : Context} {fs : List Field} {t : NodeId}
    (h : c.graph.hasFields t = true) : c.Named fs t ↔
      (c.graph.node t).name.isNull = false ∨ isAnonymous c.graph (some t) = true ∧ c.Reached fs t := by
  rw [isAnonymous_some, h, Bool.and_true, Context.Named]
  cases (c.graph.node t).name.isNull <;> simp

namespace Draft

variable {D D' D'' : Draft} {t : NodeId} {value : Option NodeId} {name : Json}

/-- What was named and written before is kept. -/
structure Extends (D D' : Draft) : Prop where
  graph : D'.context.graph = D.context.graph
  names : ∀ t name, get? t D.inlineNames = some name → get? t D'.inlineNames = some name
  types : D.types <+: D'.types
  json : D.usesJson = true → D'.usesJson = true

theorem Still.extends (h : D.Still D') : D.Extends D' :=
  ⟨h.graph, by rw [h.names]; exact fun _ _ => id, h.types.symm ▸ List.prefix_refl _, h.json⟩

theorem Extends.trans (h : D.Extends D') (h' : D'.Extends D'') : D.Extends D'' where
  graph := h'.graph.trans h.graph
  names t name ht := h'.names t name (h.names t name ht)
  types := h.types.trans h'.types
  json := h'.json ∘ h.json

theorem Calls.extends (h : D.Calls t name) (he : D.Extends D') : D'.Calls t name := by
  cases h with
  | own hnamed hsimple => exact .own (by rwa [he.graph]) (by rwa [he.graph])
  | given hnameless hgiven => exact .given (by rwa [he.graph]) (he.names _ _ hgiven)

/-- A type was written under what it is called. -/
def Written (D : Draft) (t : NodeId) : Prop := ∃ b ∈ D.types, b.node = t ∧ D.Calls t b.name

theorem Written.extends (h : D.Written t) (he : D.Extends D') : D'.Written t := by
  obtain ⟨b, hb, ht, hcalls⟩ := h
  exact ⟨b, he.types.subset hb, ht, hcalls.extends he⟩

/-- What happens to a draft when the type that a value leads to is given a name, if it needs one. -/
structure Gives (D D' : Draft) (value : Option NodeId) : Prop where
  keeps : D.Extends D'
  names : ∀ t, contains t D'.inlineNames = true ↔ contains t D.inlineNames = true ∨
    isAnonymous D.context.graph (some t) = true ∧
      inlineTarget D.context.graph (D.context.graph.size + 2) value = .ok (some t)
  given : ∀ t name, get? t D'.inlineNames = some name →
    get? t D.inlineNames = some name ∨ (∃ s, name = some s) ∧ t ∈ D'.pending
  line : D.pending ⊆ D'.pending
  pending : ∀ t ∈ D'.pending, t ∈ D.pending ∨ contains t D'.inlineNames = true
  types : D'.types = D.types
  variants : D'.writtenVariants = D.writtenVariants

theorem Gives.still (h : D.Gives D' value) (hs : D'.Still D'') : D.Gives D'' value := by
  refine ⟨h.keeps.trans hs.extends, ?_, ?_, ?_, ?_, hs.types.trans h.types,
    hs.variants.trans h.variants⟩
  · rw [hs.names]
    exact h.names
  · rw [hs.names, hs.pending]
    exact h.given
  · rw [hs.pending]
    exact h.line
  · rw [hs.names, hs.pending]
    exact h.pending

end Draft

/-- A type is given a name and put in the line if the value leads to one that needs it. Otherwise nothing
happens. -/
theorem Drafting.nameInline_cases {D D' : Draft} {value : Option NodeId} {name : String}
    (h : nameInline value name D = .ok () D') :
    (D' = D ∧ ∀ t, inlineTarget D.context.graph (D.context.graph.size + 2) value = .ok (some t) →
      isAnonymous D.context.graph (some t) = true → contains t D.inlineNames = true) ∨
    ∃ i, inlineTarget D.context.graph (D.context.graph.size + 2) value = .ok (some i) ∧
      isAnonymous D.context.graph (some i) = true ∧ contains i D.inlineNames = false ∧
      D' = { D with
        takenNames := freshName D.takenNames name :: D.takenNames
        inlineNames := OrderedMap.insert i (some (freshName D.takenNames name)) D.inlineNames
        pending := D.pending ++ [i] } := by
  obtain ⟨g, D₁, hg, h⟩ := bind_eq_ok_iff.1 h
  cases hg
  obtain ⟨target, D₂, hlift, h⟩ := bind_eq_ok_iff.1 h
  obtain ⟨htarget, rfl⟩ := eq_ok_of_lift hlift
  cases target with
  | none =>
    cases h
    exact .inl ⟨rfl, fun t ht => by cases htarget.symm.trans ht⟩
  | some i =>
    obtain ⟨D₃, D₄, hget, h⟩ := bind_eq_ok_iff.1 h
    cases hget
    split at h
    · next hneeds =>
      obtain ⟨hanonymous, hfree⟩ : isAnonymous D.context.graph (some i) = true ∧
          contains i D.inlineNames = false := by simpa using hneeds
      cases h
      exact .inr ⟨i, htarget, hanonymous, hfree, rfl⟩
    · next hnot =>
      cases h
      refine .inl ⟨rfl, fun t ht hanonymous => ?_⟩
      obtain rfl := Option.some.inj (Except.ok.inj (htarget.symm.trans ht))
      simpa [hanonymous] using hnot

theorem Drafting.gives_nameInline {D D' : Draft} {value : Option NodeId} {name : String}
    (h : nameInline value name D = .ok () D') : D.Gives D' value := by
  rcases nameInline_cases h with ⟨rfl, hknown⟩ | ⟨i, htarget, hanonymous, hfree, rfl⟩
  · refine ⟨(Draft.Still.refl D').extends, fun t => ⟨.inl, ?_⟩, fun _ _ => .inl,
      List.Subset.refl _, fun _ => .inl, rfl, rfl⟩
    rintro (ht | ⟨hanonymous, ht⟩)
    · exact ht
    · exact hknown t ht hanonymous
  · have hnone : get? i D.inlineNames = none := by simpa [contains] using hfree
    have hother : ∀ {t}, t ≠ i → ∀ s, get? t (OrderedMap.insert i (some s) D.inlineNames) =
        get? t D.inlineNames := fun ht s => get?_insert_of_ne ht _ _
    refine ⟨⟨rfl, fun t s hs => ?_, List.prefix_refl _, id⟩, fun t => ?_, fun t s hs => ?_,
      List.subset_append_left _ _, fun t ht => ?_, rfl, rfl⟩
    · by_cases ht : t = i
      · rw [ht, hnone] at hs
        cases hs
      · exact (hother ht _).trans hs
    · by_cases ht : t = i
      · subst ht
        simp [contains, hanonymous, htarget]
      · have hne : ¬Except.ok (some i) = (Except.ok (some t) : Attempt (Option NodeId)) := by
          rintro ⟨⟩
          exact ht rfl
        simp [contains, hother ht, htarget, hne]
    · by_cases ht : t = i
      · subst ht
        rw [get?_insert_self] at hs
        cases hs
        exact .inr ⟨⟨_, rfl⟩, by simp⟩
      · exact .inl ((hother ht _).symm.trans hs)
    · rcases List.mem_append.1 ht with ht | ht
      · exact .inl ht
      · obtain rfl := List.mem_singleton.1 ht
        exact .inr (by simp [contains])

/-- A step that gives a name does not use the scalar. -/
theorem Drafting.usesJson_of_nameInline {D D' : Draft} {value : Option NodeId} {name : String}
    (h : nameInline value name D = .ok () D') : D'.usesJson = D.usesJson := by
  rcases nameInline_cases h with ⟨rfl, -⟩ | ⟨i, -, -, -, rfl⟩ <;> rfl

/-! ## What fields speak of -/

/-- The type of a field, and of each of its arguments, as they were written. -/
structure Field.Rendered (config : Config) (g : Graph) (N : NodeId → Prop)
    (called : NodeId → Json → Prop) (f : Field) : Prop where
  listed : f.arguments.map (fun a => some a.node) = (g.node f.node).arguments
  type : Stands config g N called (g.node f.node).valueType? f.type.innermost
  arguments : ∀ a ∈ f.arguments, a.Rendered config g N called

/-- The type of a field, or of one of its arguments, is about a node. -/
def Field.Mentions (g : Graph) (f : Field) (t : NodeId) : Prop :=
  g.Expresses (g.node f.node).valueType? t ∨
    ∃ a ∈ f.arguments, g.Expresses (g.node a.node).type?.join t

/-- The type of a field, or of one of its arguments, fell back to the scalar. -/
def Field.FallsBack (g : Graph) (N : NodeId → Prop) (f : Field) : Prop :=
  g.Formless N (g.node f.node).valueType? ∨ ∃ a ∈ f.arguments, a.FallsBack g N

section

variable {config : Config} {g : Graph} {N N' : NodeId → Prop} {called called' : NodeId → Json → Prop}
  {f : Field}

theorem Field.Rendered.imp (hr : f.Rendered config g N called)
    (h : ∀ t, g.hasFields t = true → (N t ↔ N' t))
    (hcalled : ∀ t name, f.Mentions g t → g.hasFields t = true → N t → called t name →
      called' t name) : f.Rendered config g N' called' where
  listed := hr.listed
  type := hr.type.imp h fun t name ht => hcalled t name (.inl ht)
  arguments a ha := (hr.arguments a ha).imp h fun t name ht => hcalled t name (.inr ⟨a, ha, ht⟩)

theorem Field.fallsBack_congr (h : ∀ t, g.hasFields t = true → (N t ↔ N' t)) :
    f.FallsBack g N ↔ f.FallsBack g N' :=
  or_congr (Graph.formless_congr h)
    (exists_congr fun _ => and_congr_right fun _ => Graph.freeform_congr h)

end

/-- What is done for a field: the type that its value leads to is given a name, and then the arguments and
the type are written. -/
theorem Drafting.field_cases {config : Config} {owner : Json} {i : NodeId} {f : Field} {D D' : Draft}
    (h : field config owner i D = .ok f D') :
    ∃ slot arguments link ownerName words s D₁ written D₂ e,
      (D.context.graph.node i).body = .property slot arguments link ∧ owner = .str ownerName ∧
      nameInline (D.context.graph.node i).valueType? (ownerName ++ words) D = .ok () D₁ ∧
      (D.context.graph.node i).name = .str s ∧
      (arguments.mapM fun a => do argument config (← lift (expect a)) : Drafting (List Argument)) D₁ =
        .ok written D₂ ∧
      typeExpr config (D.context.graph.node i).valueType? D₂ = .ok e D' ∧
      f = ⟨i, fieldName s, written, e, slot.isRequired, slot.default⟩ := by
  obtain ⟨n, D₀, hn, h⟩ := bind_eq_ok_iff.1 h
  cases hn
  cases hbody : (D.context.graph.node i).body <;> simp only [hbody] at h
  case property slot arguments link =>
    obtain ⟨ownerName, D₁, hlift, h⟩ := bind_eq_ok_iff.1 h
    obtain ⟨howner, rfl⟩ := eq_ok_of_lift hlift
    obtain ⟨words, D₂, hlift, h⟩ := bind_eq_ok_iff.1 h
    obtain ⟨-, rfl⟩ := eq_ok_of_lift hlift
    obtain ⟨u, D₁, hinline, h⟩ := bind_eq_ok_iff.1 h
    obtain ⟨s, D₂, hlift, h⟩ := bind_eq_ok_iff.1 h
    obtain ⟨hname, rfl⟩ := eq_ok_of_lift hlift
    obtain ⟨written, D₂, harguments, h⟩ := bind_eq_ok_iff.1 h
    obtain ⟨e, D₃, htype, h⟩ := bind_eq_ok_iff.1 h
    split at h
    · cases h
    · cases h
      exact ⟨slot, arguments, link, ownerName, words, s, D₁, written, D₂, e, rfl,
        eq_str_of_textOf howner, hinline, eq_str_of_textOf hname, harguments, htype, rfl⟩
  all_goals cases h

theorem Drafting.quiet_arguments (config : Config) (arguments : List (Option NodeId)) :
    Quiet (arguments.mapM fun a => do argument config (← lift (expect a))) :=
  quiet_mapM (fun _ => (quiet_lift _).bind fun _ => quiet_argument config _) _

/-- A field gives a name to the type that its value leads to, and then speaks of its arguments and of its
type. -/
theorem Drafting.rendered_field {config : Config} {owner : Json} {i : NodeId} {f : Field}
    {D D' : Draft} (hspelt : D.Spelt) (h : field config owner i D = .ok f D') :
    f.node = i ∧ D.Gives D' (D.context.graph.node i).valueType? ∧
      f.Rendered config D'.context.graph D'.Knows D'.Calls ∧
      (D'.usesJson = true ↔ D.usesJson = true ∨ f.FallsBack D'.context.graph D'.Knows) := by
  obtain ⟨slot, arguments, link, ownerName, words, s, D₁, written, D₂, e, hbody, -, hname, -, harguments,
    htype, rfl⟩ := field_cases h
  have hgives := gives_nameInline hname
  have hspelt₁ : D₁.Spelt := fun t given ht =>
    (hgives.given t given ht).elim (hspelt t given) fun hnew => hnew.1
  have hstill := (quiet_arguments config arguments).of_ok harguments
  have hlast := (quiet_typeExpr config _).of_ok htype
  obtain ⟨hlisted, hpassed, hjson⟩ := stands_arguments hspelt₁ harguments
  obtain ⟨hstands, hjson'⟩ := stands_typeExpr (hspelt₁.still hstill) htype
  have hknows : D₂.Knows = D₁.Knows := funext fun _ => propext (Draft.Knows.still hstill)
  have hknows' : D'.Knows = D₁.Knows :=
    funext fun _ => propext (Draft.Knows.still (hstill.trans hlast))
  have hgraph := (hstill.trans hlast).graph
  have hnames := (hstill.trans hlast).names
  rw [hstill.graph, hknows] at hstands hjson'
  refine ⟨rfl, hgives.still (hstill.trans hlast), ⟨?_, ?_, fun a ha => ?_⟩, ?_⟩
  · rw [hgraph, hgives.keeps.graph, Node.arguments, hbody]
    exact hlisted
  · rw [hgraph, hknows', hgives.keeps.graph]
    rw [hgives.keeps.graph] at hstands
    exact hstands.imp (fun _ _ => Iff.rfl) fun t name _ _ _ hcalls =>
      hcalls.congr hlast.graph hlast.names
  · rw [hgraph, hknows']
    exact (hpassed a ha).imp (fun _ _ => Iff.rfl) fun t name _ _ _ hcalls =>
      hcalls.congr hgraph hnames
  · rw [hjson', hjson, usesJson_of_nameInline hname, hgraph, hknows', Field.FallsBack, or_assoc,
      hgives.keeps.graph]
    exact or_congr Iff.rfl or_comm

/-- One of some fields, written in order, fell back to the scalar. -/
def Context.FallsBack (c : Context) (fs : List Field) : Prop :=
  ∃ before f after, fs = before ++ f :: after ∧ f.FallsBack c.graph (c.Named (before ++ [f]))

theorem Context.fallsBack_append {c : Context} {fs : List Field} {f : Field} :
    c.FallsBack (fs ++ [f]) ↔ c.FallsBack fs ∨ f.FallsBack c.graph (c.Named (fs ++ [f])) := by
  constructor
  · rintro ⟨before, f', after, hsplit, hfalls⟩
    rcases List.eq_nil_or_concat after with rfl | ⟨after, last, rfl⟩
    · obtain ⟨rfl, hlast⟩ := List.append_inj' hsplit rfl
      cases hlast
      exact .inr hfalls
    · rw [List.concat_eq_append, ← List.cons_append, ← List.append_assoc] at hsplit
      obtain ⟨hsplit, -⟩ := List.append_inj' hsplit rfl
      exact .inl ⟨before, f', after, hsplit, hfalls⟩
  · rintro (⟨before, f', after, rfl, hfalls⟩ | hfalls)
    · exact ⟨before, f', after ++ [f], by simp, hfalls⟩
    · exact ⟨fs, f, [], rfl, hfalls⟩

/-! ## Consistent drafts -/

namespace Draft

variable {config : Config} {d : Document} {query : NodeId} {c : Context}
  {X : NodeId → String → Prop} {fs : List Field} {D D' : Draft} {i t : NodeId} {owner : Json}

/-- What holds of a draft in which some fields were written, while the types of a set `X` are to be
written under given names. Each field speaks of the types that had a name when it was written, by what
they are called. -/
structure Consistent (config : Config) (c : Context) (X : NodeId → String → Prop)
    (fs : List Field) (D : Draft) : Prop where
  graph : D.context.graph = c.graph
  visited : ∀ f ∈ fs, c.Visited f.node
  names : ∀ t, contains t D.inlineNames = true ↔
    isAnonymous c.graph (some t) = true ∧ c.Reached fs t
  rendered : ∀ before f after, fs = before ++ f :: after →
    f.Rendered config c.graph (c.Named (before ++ [f])) D.Calls
  json : D.usesJson = true ↔ c.FallsBack fs
  given : ∀ t name, get? t D.inlineNames = some name →
    ∃ s, name = some s ∧ (D.Written t ∨ t ∈ D.pending ∨ X t s)
  pending : ∀ t ∈ D.pending, contains t D.inlineNames = true
  blocks : ∀ b ∈ D.types, c.graph.hasFields b.node = true

theorem Consistent.spelt (h : D.Consistent config c X fs) : D.Spelt := fun t name ht => by
  obtain ⟨s, hs, -⟩ := h.given t name ht
  exact ⟨s, hs⟩

/-- A node with fields has a name in a draft just if it has one of its own, or was given one by a choice
or by one of the fields. -/
theorem Consistent.knows_iff (h : D.Consistent config c X fs) (ht : c.graph.hasFields t = true) :
    D.Knows t ↔ c.Named fs t := by
  rw [Context.named_iff ht, Knows, h.graph, h.names]

/-- A draft that differs in nothing that was named or written. -/
theorem Consistent.congr (h : D.Consistent config c X fs) (he : D.Extends D')
    (hnames : D'.inlineNames = D.inlineNames) (hpending : D'.pending = D.pending)
    (htypes : D'.types = D.types) (hjson : D'.usesJson = D.usesJson) :
    D'.Consistent config c X fs := by
  refine ⟨he.graph.trans h.graph, h.visited, ?_, fun before f after hf =>
    (h.rendered before f after hf).imp (fun _ _ => Iff.rfl) fun _ _ _ _ _ hcalls => hcalls.extends he,
    hjson ▸ h.json, ?_, ?_, ?_⟩
  · rw [hnames]
    exact h.names
  · rw [hnames, hpending]
    intro t name ht
    obtain ⟨s, hname, hwhere⟩ := h.given t name ht
    exact ⟨s, hname, hwhere.imp (Written.extends · he) id⟩
  · rw [hnames, hpending]
    exact h.pending
  · rw [htypes]
    exact h.blocks

theorem Consistent.same (h : D.Consistent config c X fs) (hs : D.Same D') :
    D'.Consistent config c X fs :=
  h.congr hs.still.extends hs.still.names hs.still.pending hs.still.types hs.json

/-- One more field was written. -/
theorem Consistent.field (hD : D.Consistent config c X fs) (hi : c.Visited i) {f : Field}
    (hrun : Drafting.field config owner i D = .ok f D') :
    D'.Consistent config c X (fs ++ [f]) ∧ D.Extends D' ∧ D'.types = D.types ∧
      D'.writtenVariants = D.writtenVariants := by
  obtain ⟨rfl, hgives, hrendered, hjson⟩ := rendered_field hD.spelt hrun
  obtain ⟨keeps, names, given, line, pending, types, variants⟩ := hgives
  have hgraph := keeps.graph.trans hD.graph
  rw [hD.graph] at names
  rw [hgraph] at hrendered hjson
  have hreached : ∀ t, c.Reached (fs ++ [f]) t ↔ c.Reached fs t ∨ c.graph.Reaches f.node t := by
    intro t
    simp only [Context.Reached, List.mem_append, List.mem_singleton, or_and_right, exists_or,
      exists_eq_left, or_assoc]
  have hnames : ∀ t, contains t D'.inlineNames = true ↔
      isAnonymous c.graph (some t) = true ∧ c.Reached (fs ++ [f]) t := by
    intro t
    rw [names, hD.names, hreached, and_or_left, Graph.Reaches]
  have hknows : ∀ t, c.graph.hasFields t = true → (D'.Knows t ↔ c.Named (fs ++ [f]) t) := by
    intro t ht
    rw [Context.named_iff ht, Knows, hgraph, hnames]
  refine ⟨⟨hgraph, ?_, hnames, ?_, ?_, fun t name ht => ?_, fun t ht => ?_, ?_⟩, keeps, types,
    variants⟩
  · rintro f' hf'
    rcases List.mem_append.1 hf' with hf' | hf'
    · exact hD.visited f' hf'
    · rw [List.mem_singleton.1 hf']
      exact hi
  · intro before f' after hsplit
    rcases List.eq_nil_or_concat after with rfl | ⟨after, last, rfl⟩
    · obtain ⟨rfl, hlast⟩ := List.append_inj' hsplit rfl
      cases hlast
      exact hrendered.imp hknows fun _ _ _ _ _ => id
    · rw [List.concat_eq_append, ← List.cons_append, ← List.append_assoc] at hsplit
      obtain ⟨hsplit, -⟩ := List.append_inj' hsplit rfl
      exact (hD.rendered before f' after hsplit).imp (fun _ _ => Iff.rfl) fun _ _ _ _ _ hcalls =>
        hcalls.extends keeps
  · rw [hjson, hD.json, Field.fallsBack_congr hknows, Context.fallsBack_append]
  · rcases given t name ht with ht | ⟨⟨s, rfl⟩, hline⟩
    · obtain ⟨s, hname, hwhere⟩ := hD.given t name ht
      exact ⟨s, hname, hwhere.imp (Written.extends · keeps) (Or.imp (fun ht => line ht) id)⟩
    · exact ⟨s, rfl, .inr (.inl hline)⟩
  · rcases pending t ht with ht | ht
    · exact (names t).2 (.inl (hD.pending t ht))
    · exact ht
  · rw [types]
    exact hD.blocks

/-- More fields were written. -/
theorem Consistent.mapM_field (hD : D.Consistent config c X fs) {props : List NodeId}
    (hprops : ∀ i ∈ props, c.Visited i) {more : List Field}
    (hrun : props.mapM (Drafting.field config owner) D = .ok more D') :
    D'.Consistent config c X (fs ++ more) ∧ D.Extends D' ∧ D'.types = D.types ∧
      D'.writtenVariants = D.writtenVariants := by
  induction props generalizing D fs more with
  | nil =>
    rw [List.mapM_nil] at hrun
    cases hrun
    rw [List.append_nil]
    exact ⟨hD, (Still.refl _).extends, rfl, rfl⟩
  | cons i rest ih =>
    rw [List.mapM_cons] at hrun
    obtain ⟨f, D₁, hone, hrun⟩ := bind_eq_ok_iff.1 hrun
    obtain ⟨others, D₂, hrest, hrun⟩ := bind_eq_ok_iff.1 hrun
    cases hrun
    obtain ⟨hi, hothers⟩ := List.forall_mem_cons.1 hprops
    obtain ⟨hD₁, hkeeps, htypes, hvariants⟩ := hD.field hi hone
    obtain ⟨hD₂, hkeeps', htypes', hvariants'⟩ := ih hD₁ hothers hrest
    rw [List.append_assoc] at hD₂
    exact ⟨hD₂, hkeeps.trans hkeeps', htypes'.trans htypes, hvariants'.trans hvariants⟩

end Draft

end ApiGraph
