import ApiGraph.Proofs.Drafting.Fields

/-!
# Types of a draft

Every type that was given a name is written under this name, at once or when the line is emptied.

* `Drafting.writeObject_cases`, `Drafting.nameVariant_cases`, `Drafting.writeVariant_cases`,
  `Drafting.generate_cases`, `Drafting.definitions_cases` — what each of the steps can do;
* `Drafting.flush_induction` — what is kept by every type that is taken out of the line;
* `Draft.Drafted` — what holds of a draft between the types that are written;
* `Draft.Drafted.writeObject`, `Draft.Drafted.writeVariant` — a type with its fields, and the shape of a
  choice;
* `Draft.Drafted.generate` — the definition of a node.
-/

namespace ApiGraph

open OrderedMap Context Drafting

/-! ## What is done for a node -/

namespace Drafting

variable {config : Config} {g : Graph} {D D' : Draft} {i v : NodeId}

theorem exists_of_within {α : Type} {step : Drafting α} {a : α} (h : within i step D = .ok a D') :
    ∃ D₁ D₂, D.Same D₁ ∧ step D₁ = .ok a D₂ ∧ D₂.Same D' := by
  rw [within] at h
  cases hstep : step { D with context := D.context.enter i } with
  | ok b D₂ =>
    rw [hstep] at h
    cases h
    exact ⟨{ D with context := D.context.enter i }, D₂, Draft.same_context rfl, hstep,
      Draft.same_context (still_leave _).graph⟩
  | error fault D₂ =>
    rw [hstep] at h
    cases h

theorem exists_of_traced {step : Drafting Unit} (h : traced i step D = .ok () D') :
    ∃ D₁ D₂, D.Same D₁ ∧ step D₁ = .ok () D₂ ∧ D₂.Same D' := by
  obtain ⟨D₁, D₅, hin, h, hout⟩ := exists_of_within h
  obtain ⟨n, D₂, hn, h⟩ := bind_eq_ok_iff.1 h
  cases hn
  obtain ⟨u, D₃, hbefore, h⟩ := bind_eq_ok_iff.1 h
  obtain ⟨u', D₄, hstep, hafter⟩ := bind_eq_ok_iff.1 h
  exact ⟨D₃, D₄, hin.trans (same_of_run (Run.idle_trace _ _) hbefore), hstep,
    (same_of_run (Run.idle_trace _ _) hafter).trans hout⟩

/-- An object or composition is passed over if it has no fields. Otherwise a type is written, under what
the node is called. -/
theorem writeObject_cases (hgraph : D.context.graph = g)
    (hbody : (g.node i).body = .object ∨ ∃ parts, (g.node i).body = .composed .allOf parts)
    (h : writeObject config i D = .ok () D') :
    g.hasFields i = false ∧ D = D' ∨
      g.hasFields i = true ∧ ∃ name D₁, typeName config i D = .ok name D₁ ∧
        writeType config i name (values (g.node i).props) D₁ = .ok () D' := by
  have hfields : g.hasFields i = !(g.node i).props.isEmpty := by
    rcases hbody with hbody | ⟨parts, hbody⟩ <;> simp [Graph.hasFields, hbody]
  obtain ⟨n, D₁, hn, h⟩ := bind_eq_ok_iff.1 h
  cases hn
  rw [hgraph] at h
  split at h
  · next hnone =>
    cases h
    exact .inl ⟨by rw [hfields, hnone]; rfl, rfl⟩
  · next hsome =>
    obtain ⟨name, D₂, hname, h⟩ := bind_eq_ok_iff.1 h
    exact .inr ⟨by simpa [hfields] using hsome, name, D₂, hname, h⟩

/-- A choice that has no name gives none, nor does one whose shape needs none. Another one gives its name
to its shape if this has none yet, and tells whether the name of the shape is its own. -/
theorem nameVariant_cases {named : Bool} (hgraph : D.context.graph = g)
    (h : nameVariant i D = .ok named D') :
    ∃ variant, variantOf g i = .ok variant ∧
      ((named = false ∧ D = D' ∧ ∀ v, variant = some v →
          (g.node i).name.isNull = true ∨ isAnonymous g (some v) = false) ∨
        ∃ v name, variant = some v ∧ isAnonymous g (some v) = true ∧
          (g.node i).simpleName = .ok name ∧
          ((∃ given, get? v D.inlineNames = some given ∧ named = (given == name) ∧ D = D') ∨
            get? v D.inlineNames = none ∧ named = true ∧
              D' = { D with inlineNames := OrderedMap.insert v name D.inlineNames })) := by
  obtain ⟨g', D₁, hg, h⟩ := bind_eq_ok_iff.1 h
  cases hg
  rw [hgraph] at h
  obtain ⟨variant, D₂, hlift, h⟩ := bind_eq_ok_iff.1 h
  obtain ⟨hvariant, rfl⟩ := eq_ok_of_lift hlift
  refine ⟨variant, hvariant, ?_⟩
  cases variant with
  | none =>
    cases h
    exact .inl ⟨rfl, rfl, nofun⟩
  | some v =>
    dsimp only at h
    split at h
    · next hnone =>
      cases h
      refine .inl ⟨rfl, rfl, ?_⟩
      rintro _ ⟨⟩
      simpa using hnone
    · next hsome =>
      have hanonymous : isAnonymous g (some v) = true := by
        simp only [Bool.or_eq_true, Bool.not_eq_true', not_or, Bool.not_eq_false] at hsome
        exact hsome.2
      obtain ⟨name, D₃, hlift, h⟩ := bind_eq_ok_iff.1 h
      obtain ⟨hname, rfl⟩ := eq_ok_of_lift hlift
      obtain ⟨D₄, D₅, hget, h⟩ := bind_eq_ok_iff.1 h
      cases hget
      refine .inr ⟨v, name, rfl, hanonymous, hname, ?_⟩
      cases hgiven : get? v D.inlineNames with
      | some given =>
        rw [hgiven] at h
        cases h
        exact .inl ⟨given, rfl, rfl, rfl⟩
      | none =>
        rw [hgiven] at h
        cases h
        exact .inr ⟨rfl, rfl, rfl⟩

theorem isNull_of_simpleName {n : Node} {s : String} (h : n.simpleName = .ok (some s)) :
    n.name.isNull = false := by
  rw [Node.simpleName] at h
  split at h
  · next hname =>
    rw [hname]
    rfl
  · split at h <;> cases h

/-- A choice whose shape was given a name before writes nothing, as the shape was written before or goes by
another name, or the type of its shape. -/
theorem writeVariant_cases {variant : Option NodeId} (hgraph : D.context.graph = g)
    (hvariant : variantOf g i = .ok variant)
    (hknown : ∀ t, variant = some t → isAnonymous g (some t) = true → contains t D.inlineNames = true)
    (h : writeVariant config i variant D = .ok () D') :
    (D = D' ∧ ∀ t s, variant = some t → (g.node i).simpleName = .ok (some s) →
        get? t D.inlineNames = some (some s) → isAnonymous g (some t) = true → t ∈ D.writtenVariants) ∨
      ∃ t D₁ D₂, variant = some t ∧ isAnonymous g (some t) = true ∧ t ∉ D.writtenVariants ∧
        ({ D with writtenVariants := D.writtenVariants ++ [t] } : Draft).Same D₁ ∧
        writeObject config t D₁ = .ok () D₂ ∧ D₂.Same D' := by
  cases variant with
  | none =>
    cases h
    exact .inl ⟨rfl, nofun⟩
  | some t =>
    obtain ⟨named, D₁, hname, h⟩ := bind_eq_ok_iff.1 h
    obtain ⟨variant, hvariant', hcases⟩ := nameVariant_cases hgraph hname
    cases hvariant.symm.trans hvariant'
    rcases hcases with ⟨rfl, rfl, hnone⟩ | ⟨_, name, ⟨⟩, hanonymous, hsimple, hgiven⟩
    · cases h
      refine .inl ⟨rfl, ?_⟩
      rintro _ s ⟨⟩ hs - hanonymous
      rcases hnone t rfl with hnull | hnot
      · rw [isNull_of_simpleName hs] at hnull
        cases hnull
      · rw [hnot] at hanonymous
        cases hanonymous
    · have hcontains := hknown t rfl hanonymous
      rcases hgiven with ⟨given, hgiven, rfl, rfl⟩ | ⟨hgiven, -⟩
      swap
      · rw [contains, hgiven] at hcontains
        cases hcontains
      by_cases hown : given = name
      · rw [hown, beq_self_eq_true] at h
        obtain ⟨D₂, D₃, hget, h⟩ := bind_eq_ok_iff.1 h
        cases hget
        split at h
        · next hnew =>
          obtain ⟨u, D₃, hmodify, h⟩ := bind_eq_ok_iff.1 h
          cases hmodify
          obtain ⟨D₄, D₅, hin, hwrite, hout⟩ := exists_of_traced h
          exact .inr ⟨t, D₄, D₅, rfl, hanonymous, by simpa using hnew, hin, hwrite, hout⟩
        · next hold =>
          cases h
          refine .inl ⟨rfl, ?_⟩
          rintro _ s ⟨⟩ - - -
          simpa using hold
      · rw [beq_eq_false_iff_ne.2 hown] at h
        cases h
        refine .inl ⟨rfl, ?_⟩
        rintro _ s ⟨⟩ hs hgiven' -
        cases hsimple.symm.trans hs
        exact absurd (Option.some.inj (hgiven.symm.trans hgiven')) hown

/-- An object or composition is written as such, and any other node as the shape that it has as a choice,
if it has one. -/
theorem generate_cases (hgraph : D.context.graph = g) (h : generate config i D = .ok () D') :
    ∃ D₁ D₂, D.Same D₁ ∧ D₂.Same D' ∧
      (((g.node i).body = .object ∨ ∃ parts, (g.node i).body = .composed .allOf parts) ∧
          writeObject config i D₁ = .ok () D₂ ∨
        g.hasFields i = false ∧ ∃ variant, variantOf g i = .ok variant ∧
          writeVariant config i variant D₁ = .ok () D₂) := by
  obtain ⟨D₁, D₂, hin, hstep, hout⟩ := exists_of_traced h
  refine ⟨D₁, D₂, hin, hout, ?_⟩
  obtain ⟨g', D₃, hg, hstep⟩ := bind_eq_ok_iff.1 hstep
  cases hg
  rw [hin.still.graph, hgraph] at hstep
  cases hbody : (g.node i).body with
  | object =>
    rw [hbody] at hstep
    exact .inl ⟨.inl rfl, hstep⟩
  | composed kind parts =>
    cases kind with
    | allOf =>
      rw [hbody] at hstep
      exact .inl ⟨.inr ⟨parts, rfl⟩, hstep⟩
    | oneOf =>
      rw [hbody] at hstep
      obtain ⟨variant, D₃, hlift, hstep⟩ := bind_eq_ok_iff.1 hstep
      obtain ⟨hvariant, rfl⟩ := eq_ok_of_lift hlift
      exact .inr ⟨by simp [Graph.hasFields, hbody], variant, by rw [variantOf, hbody, ← hvariant], hstep⟩
  | union shapes =>
    rw [hbody] at hstep
    obtain ⟨variant, D₃, hlift, hstep⟩ := bind_eq_ok_iff.1 hstep
    obtain ⟨hvariant, rfl⟩ := eq_ok_of_lift hlift
    exact .inr ⟨by simp [Graph.hasFields, hbody], variant, by rw [variantOf, hbody, ← hvariant], hstep⟩
  | ref link =>
    rw [hbody] at hstep
    cases hstep
    exact .inr ⟨by simp [Graph.hasFields, hbody], none, by simp [variantOf, hbody], rfl⟩
  | array items =>
    rw [hbody] at hstep
    cases hstep
    exact .inr ⟨by simp [Graph.hasFields, hbody], none, by simp [variantOf, hbody], rfl⟩
  | scalar type =>
    rw [hbody] at hstep
    cases hstep
    exact .inr ⟨by simp [Graph.hasFields, hbody], none, by simp [variantOf, hbody], rfl⟩
  | _ =>
    rw [hbody] at hstep
    cases hstep

/-- What holds of a draft, and goes on to hold when the first type in the line is taken out and written,
holds when the line is empty. -/
theorem flush_induction {P : Draft → Prop}
    (hnext : ∀ E t rest E', P E → E.pending = t :: rest →
      generate config t { E with pending := rest } = .ok () E' → P E')
    (hstart : P D) (h : flush config D = .ok () D') : P D' ∧ D'.pending = [] := by
  have hwithin : ∀ steps E, P E → flushWithin config steps E = .ok () D' → P D' ∧ D'.pending = [] := by
    intro steps
    induction steps with
    | zero =>
      intro E _ h
      cases h
    | succ steps ih =>
      intro E hE h
      obtain ⟨E₁, E₂, hget, h⟩ := bind_eq_ok_iff.1 h
      cases hget
      cases hline : E.pending with
      | nil =>
        rw [hline] at h
        cases h
        exact ⟨hE, hline⟩
      | cons t rest =>
        rw [hline] at h
        obtain ⟨u, E₃, hmodify, h⟩ := bind_eq_ok_iff.1 h
        cases hmodify
        obtain ⟨u, E₄, hgenerate, h⟩ := bind_eq_ok_iff.1 h
        exact ih E₄ (hnext E t rest E₄ hE hline hgenerate) h
  obtain ⟨D₁, D₂, hget, h⟩ := bind_eq_ok_iff.1 h
  cases hget
  exact hwithin _ D hstart h

/-- What is done for definitions. Names are taken, choices name their shapes, and the nodes are written
one by one, each followed by the types in the line. At last the query object is written in the same way,
if it has properties. -/
theorem definitions_cases {roots : List NodeId} {q : NodeId} {defs : Definitions}
    (h : definitions config roots (some q) D = .ok defs D') :
    (defs.types = D'.types ∧ defs.comment = config.comment.truthy ∧
      defs.scalar = if D'.usesJson then some config.jsonScalar else none) ∧
    ∃ D₁ D₂ D₃ D₄, takeNames roots D = .ok () D₁ ∧ takeQueryName config D₁ = .ok () D₂ ∧
      (roots.forM fun i => do let _ ← nameVariant i : Drafting Unit) D₂ = .ok () D₃ ∧
      (roots.forM fun i => do
        generate config i
        flush config : Drafting Unit) D₃ = .ok () D₄ ∧
      ((D₄.context.graph.node q).props = [] ∧ D₄ = D' ∨
        (D₄.context.graph.node q).props ≠ [] ∧ ∃ D₅ D₆ D₇, D₄.Same D₅ ∧
          writeType config q config.queryType (values (D₄.context.graph.node q).props) D₅ = .ok () D₆ ∧
          D₆.Same D₇ ∧ flush config D₇ = .ok () D') := by
  obtain ⟨u, D₁, htake, h⟩ := bind_eq_ok_iff.1 h
  obtain ⟨u, D₂, hquery, h⟩ := bind_eq_ok_iff.1 h
  obtain ⟨u, D₃, hvariants, h⟩ := bind_eq_ok_iff.1 h
  obtain ⟨u, D₄, hroots, h⟩ := bind_eq_ok_iff.1 h
  obtain ⟨n, D₅, hn, h⟩ := bind_eq_ok_iff.1 h
  cases hn
  dsimp only at h
  split at h
  · next hnone =>
    cases h
    exact ⟨⟨rfl, rfl, rfl⟩, D₁, D₂, D₃, _, htake, hquery, hvariants, hroots,
      .inl ⟨List.isEmpty_iff.1 hnone, rfl⟩⟩
  · next hsome =>
    obtain ⟨u, D₇, hwithin, h⟩ := bind_eq_ok_iff.1 h
    obtain ⟨u, D₈, hflush, hfinish⟩ := bind_eq_ok_iff.1 h
    cases hfinish
    obtain ⟨D₅, D₆, hin, hwrite, hout⟩ := exists_of_within hwithin
    exact ⟨⟨rfl, rfl, rfl⟩, D₁, D₂, D₃, D₄, htake, hquery, hvariants, hroots,
      .inr ⟨fun hnone => hsome (List.isEmpty_iff.2 hnone), D₅, D₆, D₇, hin, hwrite, hout, hflush⟩⟩

end Drafting

namespace Draft

variable {config : Config} {d : Document} {query : NodeId} {c : Context}
  {X : NodeId → String → Prop} {fs : List Field} {D D' : Draft} {i t : NodeId} {name : Json}

/-- The fields that were written, in order. -/
def fields (D : Draft) : List Field := D.types.flatMap TypeBlock.fields

/-- What holds of a draft in between the types that are written, while those of a set `X` are to be
written under given names. -/
structure Drafted (config : Config) (c : Context) (X : NodeId → String → Prop) (D : Draft) :
    Prop where
  consistent : D.Consistent config c X D.fields
  variants : ∀ t ∈ D.writtenVariants, D.Written t

theorem Drafted.same (h : D.Drafted config c X) (hs : D.Same D') : D'.Drafted config c X := by
  obtain ⟨hconsistent, hvariants⟩ := h
  refine ⟨?_, ?_⟩
  · rw [fields, hs.still.types]
    exact hconsistent.same hs
  · rw [hs.still.variants]
    exact fun t ht => (hvariants t ht).extends hs.still.extends

/-- A type that was written is no longer to be written. -/
theorem Drafted.settle {Y : NodeId → String → Prop} (h : D.Drafted config c Y)
    (hY : ∀ t s, get? t D.inlineNames = some (some s) → Y t s → X t s ∨ D.Written t) :
    D.Drafted config c X := by
  obtain ⟨⟨graph, visited, names, rendered, json, given, pending, blocks⟩, variants⟩ := h
  refine ⟨⟨graph, visited, names, rendered, json, fun t name ht => ?_, pending, blocks⟩, variants⟩
  obtain ⟨s, rfl, hwritten | hline | howed⟩ := given t name ht
  · exact ⟨s, rfl, .inl hwritten⟩
  · exact ⟨s, rfl, .inr (.inl hline)⟩
  · rcases hY t s ht howed with hX | hwritten
    · exact ⟨s, rfl, .inr (.inr hX)⟩
    · exact ⟨s, rfl, .inl hwritten⟩

/-- What was given a name was visited, and is not the query object. -/
theorem Consistent.visited_of_contains (h : c.Finished d query) (hD : D.Consistent config c X fs)
    (ht : contains t D.inlineNames = true) : c.Visited t ∧ t ≠ query := by
  obtain ⟨-, ⟨r, hr, hvariant⟩ | ⟨f, hf, hreach⟩⟩ := (hD.names t).1 ht
  · obtain ⟨found, hfound, rfl⟩ := List.mem_filterMap.1 hr
    exact h.visited_of_variantOf (h.stored hfound).1 hvariant
  · rw [Graph.Reaches] at hreach
    cases hvalue : (c.graph.node f.node).valueType? with
    | none =>
      rw [hvalue] at hreach
      cases hreach
    | some v =>
      rw [hvalue] at hreach
      exact h.visited_of_inlineTarget (h.visited_of_valueType? (hD.visited f hf) hvalue) hreach

/-- The query object has fields if it has properties. -/
theorem hasFields_query_iff (h : c.Finished d query) :
    c.graph.hasFields query = true ↔ (c.graph.node query).props ≠ [] := by
  simp [Graph.hasFields, (h.sound.handmade query rfl).2]

/-- The properties of a visited node may be written as fields. -/
theorem visited_of_props (h : c.Finished d query) (hi : c.Visited i) :
    ∀ p ∈ values (c.graph.node i).props, c.Visited p :=
  fun p hp => (h.led hi (by simp [Node.followed, hp])).1

/-! ## Objects -/

theorem extends_write (D : Draft) (b : TypeBlock) : D.Extends { D with types := D.types ++ [b] } :=
  ⟨rfl, fun _ _ => id, List.prefix_append _ _, id⟩

/-- One more shape is marked as written. -/
theorem extends_mark (D : Draft) (v : NodeId) :
    D.Extends { D with writtenVariants := D.writtenVariants ++ [v] } :=
  ⟨rfl, fun _ _ => id, List.prefix_refl _, id⟩

/-- One more type was written, for a node with fields. -/
theorem Consistent.write (h : D.Consistent config c X fs) {b : TypeBlock}
    (hb : c.graph.hasFields b.node = true) :
    Consistent config c X fs { D with types := D.types ++ [b] } := by
  have hkeeps := extends_write D b
  refine ⟨h.graph, h.visited, h.names, fun before f after hf =>
    (h.rendered before f after hf).imp (fun _ _ => Iff.rfl) fun _ _ _ _ _ hcalls =>
      hcalls.extends hkeeps, h.json, fun t s ht => ?_, h.pending, ?_⟩
  · obtain ⟨s, rfl, hwhere⟩ := h.given t s ht
    exact ⟨s, rfl, hwhere.imp (Written.extends · hkeeps) id⟩
  · intro b' hb'
    rcases List.mem_append.1 hb' with hb' | hb'
    · exact h.blocks b' hb'
    · rw [List.mem_singleton.1 hb']
      exact hb

/-- A type was written with its fields. -/
theorem Consistent.writeType (h : c.Finished d query) (hD : D.Consistent config c X D.fields)
    (hi : c.Visited i) (hfields : c.graph.hasFields i = true)
    (hrun : Drafting.writeType config i name (values (c.graph.node i).props) D = .ok () D') :
    D'.Consistent config c X D'.fields ∧ D.Extends D' ∧
      D'.writtenVariants = D.writtenVariants ∧ ∃ b ∈ D'.types, b.node = i ∧ b.name = name := by
  obtain ⟨more, D₁, hmore, hrun⟩ := bind_eq_ok_iff.1 hrun
  cases hrun
  obtain ⟨hD₁, hkeeps, htypes, hvariants⟩ := hD.mapM_field (visited_of_props h hi) hmore
  have hall : D.fields ++ more = (D₁.types ++ [(⟨i, name, more⟩ : TypeBlock)]).flatMap TypeBlock.fields := by
    simp [fields, htypes]
  rw [hall] at hD₁
  exact ⟨hD₁.write hfields, hkeeps.trans (extends_write D₁ _), hvariants, ⟨i, name, more⟩,
    by simp, rfl, rfl⟩

theorem Drafted.writeType (h : c.Finished d query) (hD : D.Drafted config c X) (hi : c.Visited i)
    (hfields : c.graph.hasFields i = true)
    (hrun : Drafting.writeType config i name (values (c.graph.node i).props) D = .ok () D') :
    D'.Drafted config c X ∧ D.Extends D' := by
  obtain ⟨hD', hkeeps, hvariants, -⟩ := hD.consistent.writeType h hi hfields hrun
  refine ⟨⟨hD', ?_⟩, hkeeps⟩
  rw [hvariants]
  exact fun t ht => (hD.variants t ht).extends hkeeps

/-- The type of an object or composition was written if it has fields, under what it is called. -/
theorem Consistent.writeObject (h : c.Finished d query) (hD : D.Consistent config c X D.fields)
    (hi : c.Visited i) (hbody : (c.graph.node i).body = .object ∨
      ∃ parts, (c.graph.node i).body = .composed .allOf parts)
    (hknows : c.graph.hasFields i = true → D.Knows i)
    (hrun : Drafting.writeObject config i D = .ok () D') :
    D'.Consistent config c X D'.fields ∧ D.Extends D' ∧ D'.writtenVariants = D.writtenVariants ∧
      (c.graph.hasFields i = true → D'.Written i) := by
  rcases writeObject_cases hD.graph hbody hrun with ⟨hnone, rfl⟩ | ⟨hfields, name, D₂, hname, hrun⟩
  · refine ⟨hD, (Still.refl D).extends, rfl, fun hfields => ?_⟩
    rw [hnone] at hfields
    cases hfields
  · have hstill := (quiet_typeName config i).of_ok hname
    obtain ⟨-, hcalls, hjson⟩ :=
      (typeName_cases hD.spelt hname).resolve_right fun hnot => hnot.1 (hknows hfields)
    have hD₂ : D₂.Consistent config c X D₂.fields := by
      rw [fields, hstill.types]
      exact hD.same ⟨hstill, hjson⟩
    obtain ⟨hD', hkeeps, hvariants, b, hb, rfl, rfl⟩ := hD₂.writeType h hi hfields hrun
    exact ⟨hD', hstill.extends.trans hkeeps, hvariants.trans hstill.variants, fun _ =>
      ⟨b, hb, rfl, hcalls.extends (hstill.extends.trans hkeeps)⟩⟩

/-! ## Choices -/

/-- The shape of a choice is known by a name, if it needs one. -/
def Known (c : Context) (D : Draft) (i : NodeId) : Prop :=
  ∀ t, variantOf c.graph i = .ok (some t) → isAnonymous c.graph (some t) = true →
    contains t D.inlineNames = true

/-- The type of the shape of a choice was written if it goes by the name of the choice. -/
def WrittenVariant (c : Context) (D : Draft) (i : NodeId) : Prop :=
  ∀ t s, variantOf c.graph i = .ok (some t) → (c.graph.node i).simpleName = .ok (some s) →
    get? t D.inlineNames = some (some s) → D.Written t

/-- A choice was written as its shape. -/
theorem Drafted.writeVariant (h : c.Finished d query) (hD : D.Drafted config c X)
    (hi : c.Visited i) (hknown : D.Known c i) {variant : Option NodeId}
    (hvariant : variantOf c.graph i = .ok variant)
    (hrun : Drafting.writeVariant config i variant D = .ok () D') :
    D'.Drafted config c X ∧ D.Extends D' ∧ D'.WrittenVariant c i := by
  rcases writeVariant_cases hD.consistent.graph hvariant (fun t ht => hknown t (ht ▸ hvariant)) hrun with
    ⟨rfl, hold⟩ | ⟨v, D₁, D₂, rfl, hanonymous, -, hin, hwrite, hout⟩
  · refine ⟨hD, (Still.refl _).extends, fun t s ht hsimple hs => ?_⟩
    have hanonymous := ((hD.consistent.names t).1 (by simp [contains, hs])).1
    exact hD.variants t (hold t s (Except.ok.inj (hvariant.symm.trans ht)) hsimple hs hanonymous)
  · have hcontains := hknown v hvariant hanonymous
    rw [isAnonymous_some, Bool.and_eq_true] at hanonymous
    have hadd := extends_mark D v
    have hD₁ : D₁.Consistent config c X D₁.fields := by
      rw [fields, hin.still.types]
      exact (hD.consistent.congr hadd rfl rfl rfl rfl).same hin
    obtain ⟨hD₂, hkeeps, hvariants, hwritten⟩ :=
      hD₁.writeObject h (h.visited_of_variantOf hi hvariant).1 (Graph.body_of_hasFields hanonymous.2)
        (fun _ => (Knows.still hin.still).2 (.inr hcontains)) hwrite
    have hv : D₂.Written v := hwritten hanonymous.2
    have hkeeps' := hadd.trans (hin.still.extends.trans hkeeps)
    refine ⟨Drafted.same ⟨hD₂, fun t ht => ?_⟩ hout, hkeeps'.trans hout.still.extends,
      fun t s ht _ _ => ?_⟩
    · rw [hvariants, hin.still.variants] at ht
      rcases List.mem_append.1 ht with ht | ht
      · exact (hD.variants t ht).extends hkeeps'
      · rw [List.mem_singleton.1 ht]
        exact hv
    · cases hvariant.symm.trans ht
      exact hv.extends hout.still.extends

theorem WrittenVariant.still (h : D.WrittenVariant c i) (hs : D.Still D') :
    D'.WrittenVariant c i := by
  intro t s ht hsimple hgiven
  rw [hs.names] at hgiven
  exact (h t s ht hsimple hgiven).extends hs.extends

/-- The definition of a node was written, if it has one. -/
theorem Drafted.generate (h : c.Finished d query) (hD : D.Drafted config c X)
    (hi : c.Visited i) (hknown : D.Known c i) (hknows : c.graph.hasFields i = true → D.Knows i)
    (hrun : Drafting.generate config i D = .ok () D') :
    D'.Drafted config c X ∧ D.Extends D' ∧ D'.WrittenVariant c i ∧
      (c.graph.hasFields i = true → D'.Written i) := by
  obtain ⟨D₁, D₂, hin, hout, hcases⟩ := generate_cases hD.consistent.graph hrun
  have hD₁ := hD.same hin
  suffices hdone : D₂.Drafted config c X ∧ D₁.Extends D₂ ∧ D₂.WrittenVariant c i ∧
      (c.graph.hasFields i = true → D₂.Written i) by
    obtain ⟨hD₂, hkeeps, hvariant, hwritten⟩ := hdone
    exact ⟨hD₂.same hout, (hin.still.extends.trans hkeeps).trans hout.still.extends,
      hvariant.still hout.still, fun hfields => (hwritten hfields).extends hout.still.extends⟩
  rcases hcases with ⟨hbody, hwrite⟩ | ⟨hplain, variant, hvariant, hwrite⟩
  · obtain ⟨hD₂, hkeeps, hvariants, hwritten⟩ := hD₁.consistent.writeObject h hi hbody
      (fun hfields => (Knows.still hin.still).2 (hknows hfields)) hwrite
    refine ⟨⟨hD₂, ?_⟩, hkeeps, fun t s ht => ?_, hwritten⟩
    · rw [hvariants]
      exact fun t ht => (hD₁.variants t ht).extends hkeeps
    · rcases hbody with hbody | ⟨parts, hbody⟩ <;> simp [variantOf, hbody] at ht
  · have hknown₁ : D₁.Known c i := by
      rw [Known, hin.still.names]
      exact hknown
    obtain ⟨hD₂, hkeeps, hwritten⟩ := hD₁.writeVariant h hi hknown₁ hvariant hwrite
    refine ⟨hD₂, hkeeps, hwritten, fun hfields => ?_⟩
    rw [hplain] at hfields
    cases hfields

end Draft

end ApiGraph
