import ApiGraph.Conversion
import ApiGraph.Proofs.Drafting.Blocks

/-!
# Closed definitions

The definitions of a whole document. Choices name their shapes first, then each stored node is written
with the types that its fields named, and at last the query type.

* `Draft.Prenamed` — what holds while choices name their shapes;
* `Draft.Drafted.flush`, `Draft.Drafted.writeRoots` — the line of types is emptied, and all stored types
  are written;
* `Draft.Complete`, `Drafting.complete_definitions` — in the end every type that has a name was written
  under it;
* `Conversion.definitions_closed` — so definitions speak of nothing that they do not define.
-/

namespace ApiGraph

open OrderedMap Context Drafting

namespace Draft

variable {config : Config} {d : Document} {query : NodeId} {c : Context}
  {X : NodeId → String → Prop} {D D' : Draft} {i t : NodeId} {roots : List NodeId}

/-! ## Names of choices -/

/-- A shape goes by the name of one of some choices. -/
def Owes (c : Context) (choices : List NodeId) (t : NodeId) (s : String) : Prop :=
  ∃ r ∈ choices, variantOf c.graph r = .ok (some t) ∧ (c.graph.node r).simpleName = .ok (some s)

/-- What holds of a draft in which some choices have named their shapes, and nothing was written. -/
structure Prenamed (c : Context) (choices : List NodeId) (D : Draft) : Prop where
  graph : D.context.graph = c.graph
  names : ∀ t, contains t D.inlineNames = true ↔ isAnonymous c.graph (some t) = true ∧
    ∃ r ∈ choices, variantOf c.graph r = .ok (some t)
  given : ∀ t name, get? t D.inlineNames = some name → ∃ s, name = some s ∧ Owes c choices t s
  pending : D.pending = []
  variants : D.writtenVariants = []
  types : D.types = []
  json : D.usesJson = false

theorem Owes.append (h : Owes c roots t s) : Owes c (roots ++ [i]) t s := by
  obtain ⟨r, hr, hrest⟩ := h
  exact ⟨r, List.mem_append_left _ hr, hrest⟩

/-- One more choice names its shape. -/
theorem Prenamed.nameVariant (h : D.Prenamed c roots)
    (hname : ∃ s, (c.graph.node i).name = .str s ∧ s ≠ "") {named : Bool}
    (hrun : Drafting.nameVariant i D = .ok named D') : D'.Prenamed c (roots ++ [i]) := by
  obtain ⟨graph, names, given, pending, variants, types, json⟩ := h
  obtain ⟨word, hword, hne⟩ := hname
  have hsimple : (c.graph.node i).simpleName = .ok (some (typeName word)) := by
    simp [Node.simpleName, hword, hne]
  have hmem : ∀ t, (∃ r ∈ roots ++ [i], variantOf c.graph r = .ok (some t)) ↔
      (∃ r ∈ roots, variantOf c.graph r = .ok (some t)) ∨ variantOf c.graph i = .ok (some t) := by
    intro t
    simp only [List.mem_append, List.mem_singleton, or_and_right, exists_or, exists_eq_left]
  -- nothing happens when no shape needs a name
  have hidle : (∀ t, variantOf c.graph i = .ok (some t) → isAnonymous c.graph (some t) = true →
      contains t D.inlineNames = true) → D.Prenamed c (roots ++ [i]) := by
    intro hnone
    refine ⟨graph, fun t => ?_, fun t name ht => ?_, pending, variants, types, json⟩
    · rw [hmem, and_or_left, ← names t]
      exact (or_iff_left_of_imp fun ht => hnone t ht.2 ht.1).symm
    · obtain ⟨s, hs, howes⟩ := given t name ht
      exact ⟨s, hs, howes.append⟩
  obtain ⟨variant, hvariant, hcases⟩ := nameVariant_cases graph hrun
  have hv : ∀ t v, variant = some v → variantOf c.graph i = .ok (some t) → t = v := by
    rintro t v rfl ht
    exact Option.some.inj (Except.ok.inj (ht.symm.trans hvariant))
  rcases hcases with ⟨-, rfl, hnone⟩ | ⟨v, name, rfl, hanonymous, hname, hcases⟩
  · refine hidle fun t ht hanonymous => ?_
    rcases hnone t (Except.ok.inj (hvariant.symm.trans ht)) with hnull | hnot
    · rw [hword] at hnull
      cases hnull
    · rw [hnot] at hanonymous
      cases hanonymous
  · cases hsimple.symm.trans hname
    rcases hcases with ⟨given, hgiven, -, rfl⟩ | ⟨hgiven, -, rfl⟩
    · refine hidle fun t ht _ => ?_
      rw [hv t v rfl ht, contains, hgiven]
      rfl
    · refine ⟨graph, fun t => ?_, fun t name ht => ?_, pending, variants, types, json⟩
      · rw [hmem, and_or_left, ← names t]
        by_cases ht : t = v
        · subst ht
          simp [contains, hanonymous, hvariant]
        · have hother : variantOf c.graph i ≠ .ok (some t) := fun he => ht (hv t v rfl he)
          simp [contains, get?_insert_of_ne ht, hother]
      · by_cases hne : t = v
        · subst hne
          rw [get?_insert_self] at ht
          cases ht
          exact ⟨_, rfl, i, by simp, hvariant, hsimple⟩
        · rw [get?_insert_of_ne hne] at ht
          obtain ⟨s, hs, howes⟩ := given t name ht
          exact ⟨s, hs, howes.append⟩

/-- All choices name their shapes, one by one. -/
theorem Prenamed.nameVariants {rest : List NodeId} (h : D.Prenamed c roots)
    (hnames : ∀ i ∈ rest, ∃ s, (c.graph.node i).name = .str s ∧ s ≠ "")
    (hrun : (rest.forM fun i => do let _ ← Drafting.nameVariant i : Drafting Unit) D = .ok () D') :
    D'.Prenamed c (roots ++ rest) := by
  induction rest generalizing D roots with
  | nil =>
    cases hrun
    rwa [List.append_nil]
  | cons i rest ih =>
    obtain ⟨u, D₁, hone, hrest⟩ := bind_eq_ok_iff.1 hrun
    obtain ⟨named, D₂, hone, hreturn⟩ := bind_eq_ok_iff.1 hone
    cases hreturn
    obtain ⟨hi, hothers⟩ := List.forall_mem_cons.1 hnames
    have := ih (h.nameVariant hi hone) hothers hrest
    rwa [List.append_assoc] at this

/-- Before anything was written, the shapes that were named are to be written. -/
theorem Prenamed.drafted (h : D.Prenamed c c.roots) : D.Drafted config c (Owes c c.roots) := by
  obtain ⟨graph, names, given, pending, variants, types, json⟩ := h
  have hfields : D.fields = [] := by simp [fields, types]
  refine ⟨?_, ?_⟩
  · rw [hfields]
    refine ⟨graph, (by simp), fun t => ?_, fun before f after he => ?_, ?_, fun t name ht => ?_, ?_, ?_⟩
    · rw [names]
      simp [Context.Reached]
    · exact absurd he.symm (List.append_ne_nil_of_right_ne_nil _ (List.cons_ne_nil _ _))
    · rw [json]
      refine ⟨(by simp), ?_⟩
      rintro ⟨before, f, after, he, -⟩
      exact absurd he.symm (List.append_ne_nil_of_right_ne_nil _ (List.cons_ne_nil _ _))
    · obtain ⟨s, hs, howes⟩ := given t name ht
      exact ⟨s, hs, .inr (.inr howes)⟩
    · rw [pending]
      simp
    · rw [types]
      simp
  · rw [variants]
    simp

/-! ## The line of types -/

/-- The first type in the line is taken out, and is to be written. -/
theorem Drafted.pop {rest : List NodeId} (h : D.Drafted config c X) (hline : D.pending = i :: rest) :
    Drafted config c (fun t s => X t s ∨ t = i) { D with pending := rest } := by
  obtain ⟨⟨graph, visited, names, rendered, json, given, pending, blocks⟩, variants⟩ := h
  refine ⟨⟨graph, visited, names, fun before f after hf => ?_, json, fun t name ht => ?_,
    fun t ht => ?_, blocks⟩, fun t ht => ?_⟩
  · exact (rendered before f after hf).imp (fun _ _ => Iff.rfl) fun _ _ _ _ _ hcalls =>
      hcalls.congr rfl rfl
  · obtain ⟨s, hs, ⟨b, hb, hnode, hcalls⟩ | hwhere | hX⟩ := given t name ht
    · exact ⟨s, hs, .inl ⟨b, hb, hnode, hcalls.congr rfl rfl⟩⟩
    · rw [hline] at hwhere
      rcases List.mem_cons.1 hwhere with rfl | hwhere
      · exact ⟨s, hs, .inr (.inr (.inr rfl))⟩
      · exact ⟨s, hs, .inr (.inl hwhere)⟩
    · exact ⟨s, hs, .inr (.inr (.inl hX))⟩
  · exact pending t (by rw [hline]; exact List.mem_cons_of_mem _ ht)
  · obtain ⟨b, hb, hnode, hcalls⟩ := variants t ht
    exact ⟨b, hb, hnode, hcalls.congr rfl rfl⟩

theorem variantOf_of_hasFields {g : Graph} (h : g.hasFields i = true) : variantOf g i = .ok none := by
  rcases Graph.body_of_hasFields h with hbody | ⟨parts, hbody⟩ <;> rw [variantOf, hbody]

/-- The first type in the line is written. -/
theorem Drafted.next {rest : List NodeId} (h : c.Finished d query) (hD : D.Drafted config c X)
    (hline : D.pending = i :: rest)
    (hrun : Drafting.generate config i { D with pending := rest } = .ok () D') :
    D'.Drafted config c X ∧ D.Extends D' := by
  have hcontains := hD.consistent.pending i (by rw [hline]; exact List.mem_cons_self)
  have hanonymous := ((hD.consistent.names i).1 hcontains).1
  rw [isAnonymous_some, Bool.and_eq_true] at hanonymous
  obtain ⟨hD', hkeeps, -, hwritten⟩ := (hD.pop hline).generate h
    (hD.consistent.visited_of_contains h hcontains).1
    (fun t ht => by cases (variantOf_of_hasFields hanonymous.2).symm.trans ht)
    (fun _ => .inr hcontains) hrun
  refine ⟨hD'.settle fun t s _ ht => ?_, ?_⟩
  · rcases ht with ht | rfl
    · exact .inl ht
    · exact .inr (hwritten hanonymous.2)
  · have hpop : D.Extends { D with pending := rest } := ⟨rfl, fun _ _ => id, List.prefix_refl _, id⟩
    exact hpop.trans hkeeps

/-- All types in the line are written. -/
theorem Drafted.flush (h : c.Finished d query) (hD : D.Drafted config c X)
    (hrun : Drafting.flush config D = .ok () D') :
    D'.Drafted config c X ∧ D.Extends D' ∧ D'.pending = [] := by
  refine and_assoc.1 (flush_induction (P := fun E => E.Drafted config c X ∧ D.Extends E) ?_
    ⟨hD, (Still.refl D).extends⟩ hrun)
  rintro E t rest E' ⟨hE, hkeeps⟩ hline hgenerate
  obtain ⟨hE', hkeeps'⟩ := hE.next h hline hgenerate
  exact ⟨hE', hkeeps.trans hkeeps'⟩

/-! ## Stored types -/

theorem stored_of_mem_roots (h : c.Finished d query) (hi : i ∈ c.roots) :
    c.Visited i ∧ ∃ s, (c.graph.node i).name = .str s ∧ s ≠ "" := by
  obtain ⟨found, hfound, rfl⟩ := List.mem_filterMap.1 hi
  exact h.stored hfound

/-- A stored node is written, or the shape that goes by its name. -/
theorem Drafted.generateRoot {rest : List NodeId} (h : c.Finished d query)
    (hD : D.Drafted config c (Owes c (i :: rest))) (hi : i ∈ c.roots)
    (hrun : Drafting.generate config i D = .ok () D') :
    D'.Drafted config c (Owes c rest) ∧ D.Extends D' ∧
      (c.graph.hasFields i = true → D'.Written i) := by
  obtain ⟨hvisited, s, hname, -⟩ := stored_of_mem_roots h hi
  have hknows : D.Knows i := .inl (by rw [hD.consistent.graph, hname]; rfl)
  obtain ⟨hD', hkeeps, hvariant, hwritten⟩ := hD.generate h hvisited
    (fun t ht hanonymous => (hD.consistent.names t).2 ⟨hanonymous, .inl ⟨i, hi, ht⟩⟩)
    (fun _ => hknows) hrun
  refine ⟨hD'.settle fun t s ht hX => ?_, hkeeps, hwritten⟩
  obtain ⟨r, hr, hshape, hsimple⟩ := hX
  rcases List.mem_cons.1 hr with rfl | hr
  · exact .inr (hvariant t s hshape hsimple ht)
  · exact .inl ⟨r, hr, hshape, hsimple⟩

/-- All stored nodes are written, each followed by the types that its fields named. -/
theorem Drafted.writeRoots {rest : List NodeId} (h : c.Finished d query)
    (hD : D.Drafted config c (Owes c rest)) (hline : D.pending = [])
    (hroots : ∀ i ∈ rest, i ∈ c.roots)
    (hrun : (rest.forM fun i => do
      Drafting.generate config i
      Drafting.flush config : Drafting Unit) D = .ok () D') :
    D'.Drafted config c (fun _ _ => False) ∧ D.Extends D' ∧ D'.pending = [] ∧
      ∀ i ∈ rest, c.graph.hasFields i = true → D'.Written i := by
  induction rest generalizing D with
  | nil =>
    cases hrun
    refine ⟨hD.settle fun t s _ hX => ?_, (Still.refl _).extends, hline, (by simp)⟩
    obtain ⟨r, hr, -⟩ := hX
    cases hr
  | cons i rest ih =>
    obtain ⟨u, D₂, hone, hrest⟩ := bind_eq_ok_iff.1 hrun
    obtain ⟨u, D₁, hgenerate, hflush⟩ := bind_eq_ok_iff.1 hone
    obtain ⟨hi, hothers⟩ := List.forall_mem_cons.1 hroots
    obtain ⟨hD₁, hkeeps, hwritten⟩ := hD.generateRoot h hi hgenerate
    obtain ⟨hD₂, hkeeps₂, hempty⟩ := hD₁.flush h hflush
    obtain ⟨hD', hkeeps', hline', hall⟩ := ih hD₂ hempty hothers hrest
    refine ⟨hD', hkeeps.trans (hkeeps₂.trans hkeeps'), hline', List.forall_mem_cons.2
      ⟨fun hfields => (hwritten hfields).extends (hkeeps₂.trans hkeeps'), hall⟩⟩

/-! ## Whole drafts -/

/-- What holds of a draft in the end: what was written is consistent, and every type that has a name was
written under what it is called. The query type is written under its own name. -/
structure Complete (config : Config) (c : Context) (query : NodeId) (D : Draft) : Prop where
  consistent : D.Consistent config c (fun _ _ => False) D.fields
  written : ∀ t, t ≠ query → c.graph.hasFields t = true → D.Knows t → D.Written t

/-- When the line is empty and all stored types were written, all types were. -/
theorem Drafted.complete (h : c.Finished d query) (hD : D.Drafted config c fun _ _ => False)
    (hline : D.pending = []) (hroots : ∀ i ∈ c.roots, c.graph.hasFields i = true → D.Written i) :
    D.Complete config c query := by
  refine ⟨hD.consistent, fun t hne hfields hknows => ?_⟩
  rcases hknows with hnamed | hgiven
  · rw [hD.consistent.graph] at hnamed
    exact hroots t (h.mem_roots hne hfields hnamed) hfields
  · obtain ⟨name, hname⟩ := Option.isSome_iff_exists.1 hgiven
    obtain ⟨s, -, hwritten | hwhere | hX⟩ := hD.consistent.given t name hname
    · exact hwritten
    · rw [hline] at hwhere
      cases hwhere
    · exact hX.elim

end Draft

namespace Drafting

variable {config : Config} {d : Document} {query : NodeId} {c : Context} {D : Draft}
  {defs : Definitions}

theorem eq_of_filterMapM_lift {α β : Type} {f : α → Attempt (Option β)} {xs : List α} {ys : List β}
    {D D' : Draft} (h : (xs.filterMapM fun x => lift (f x) : Drafting (List β)) D = .ok ys D') :
    D = D' := by
  induction xs generalizing ys with
  | nil =>
    cases h
    rfl
  | cons x xs ih =>
    rw [List.filterMapM_cons] at h
    obtain ⟨y, E, hlift, h⟩ := bind_eq_ok_iff.1 h
    obtain ⟨-, rfl⟩ := eq_ok_of_lift hlift
    cases y with
    | none => exact ih h
    | some y =>
      obtain ⟨rest, E, hrest, h⟩ := bind_eq_ok_iff.1 h
      cases h
      exact ih hrest

/-- Names are taken before anything is written. -/
theorem prenamed_of_takeNames {roots : List NodeId} {D₁ D₂ : Draft}
    (htake : takeNames roots { context := c } = .ok () D₁)
    (hquery : takeQueryName config D₁ = .ok () D₂) : D₂.Prenamed c [] := by
  have hstart : Draft.Prenamed c [] { context := c } := by
    refine ⟨rfl, fun t => ?_, (by simp), rfl, rfl, rfl, rfl⟩
    simp [contains]
  have htaken : ∀ {E : Draft} (taken : List String), E.Prenamed c [] →
      Draft.Prenamed c [] { E with takenNames := taken } := fun _ h =>
    ⟨h.graph, h.names, h.given, h.pending, h.variants, h.types, h.json⟩
  obtain ⟨g, E, hg, htake⟩ := bind_eq_ok_iff.1 htake
  cases hg
  obtain ⟨names, E₁, hnames, htake⟩ := bind_eq_ok_iff.1 htake
  cases htake
  obtain rfl := eq_of_filterMapM_lift hnames
  obtain ⟨key, E₂, hlift, hquery⟩ := bind_eq_ok_iff.1 hquery
  obtain ⟨-, rfl⟩ := eq_ok_of_lift hlift
  cases hname : config.queryType <;> rw [hname] at hquery <;> cases hquery <;>
    exact htaken _ (htaken _ hstart)

/-- Choices have named their shapes before anything is written. -/
theorem prenamed_of_nameVariants (h : c.Finished d query) {D₁ D₂ D₃ : Draft}
    (htake : takeNames c.roots { context := c } = .ok () D₁)
    (hquery : takeQueryName config D₁ = .ok () D₂)
    (hvariants : (c.roots.forM fun i => do let _ ← nameVariant i : Drafting Unit) D₂ = .ok () D₃) :
    D₃.Prenamed c c.roots := by
  have hprenamed := (prenamed_of_takeNames htake hquery).nameVariants
    (fun i hi => (Draft.stored_of_mem_roots h hi).2) hvariants
  rwa [List.nil_append] at hprenamed

/-- The definitions of a document are written from a complete draft. -/
theorem complete_definitions (h : c.Finished d query)
    (hrun : definitions config c.roots (some query) { context := c } = .ok defs D) :
    D.Complete config c query ∧ defs.types = D.types ∧ defs.comment = config.comment.truthy ∧
      defs.scalar = if D.usesJson then some config.jsonScalar else none := by
  obtain ⟨hfinish, D₁, D₂, D₃, D₄, htake, hquery, hvariants, hroots, hlast⟩ := definitions_cases hrun
  refine ⟨?_, hfinish⟩
  have hprenamed := prenamed_of_nameVariants h htake hquery hvariants
  obtain ⟨hD₄, -, hline, hall⟩ := hprenamed.drafted.writeRoots h hprenamed.pending (fun _ => id) hroots
  rw [hD₄.consistent.graph] at hlast
  rcases hlast with ⟨-, rfl⟩ | ⟨hprops, D₅, D₆, D₇, hin, hwrite, hout, hflush⟩
  · exact hD₄.complete h hline hall
  · obtain ⟨hD₆, hkeeps⟩ := (hD₄.same hin).writeType h h.visited ((Draft.hasFields_query_iff h).2 hprops) hwrite
    obtain ⟨hD, hkeeps', hempty⟩ := (hD₆.same hout).flush h hflush
    have hkeep := hin.still.extends.trans (hkeeps.trans (hout.still.extends.trans hkeeps'))
    exact hD.complete h hempty fun i hi hi' => (hall i hi hi').extends hkeep

end Drafting

/-! ## Closed definitions -/

namespace TypeBlock

/-- The fields of some types, in the order in which they were written. -/
def allFields (types : List TypeBlock) : List Field := types.flatMap fields

theorem exists_split {types : List TypeBlock} {b : TypeBlock} {f : Field} (hb : b ∈ types)
    (hf : f ∈ b.fields) : ∃ before after, allFields types = before ++ f :: after :=
  List.append_of_mem (List.mem_flatMap.2 ⟨b, hb, hf⟩)

/-- The type of a node was written under a name. -/
def Defines (types : List TypeBlock) (t : NodeId) (name : Json) : Prop :=
  ∃ b ∈ types, b.node = t ∧ b.name = name

/-- A name that types may speak of: the scalar for a primitive type, the one for values of any form, or
one of the types. -/
def Knows (config : Config) (types : List TypeBlock) (name : Json) : Prop :=
  (∃ p, Drafting.scalarFor config p = .ok name) ∨ name = config.jsonScalar ∨
    ∃ b ∈ types, b.name = name

variable {config : Config} {g : Graph} {N : NodeId → Prop} {types : List TypeBlock}

theorem knows_of_stands {value : Option NodeId} {name : Json}
    (h : Stands config g N (Defines types) value name) : Knows config types name := by
  cases h with
  | @primitive t p _ lands type scalar => exact .inl ⟨p, scalar⟩
  | type lands fields named calls =>
    obtain ⟨b, hb, -, hname⟩ := calls
    exact .inr (.inr ⟨b, hb, hname⟩)
  | any formless => exact .inr (.inl rfl)

theorem knows_of_rendered {f : Field} (h : f.Rendered config g N (Defines types)) :
    Knows config types f.type.innermost ∧ ∀ a ∈ f.arguments, Knows config types a.type.innermost := by
  refine ⟨knows_of_stands h.type, fun a ha => ?_⟩
  rcases h.arguments a ha with ⟨-, hscalar⟩ | hstands
  · exact .inr (.inl hscalar)
  · exact knows_of_stands hstands

end TypeBlock

/-- In a complete draft, fields speak of types that were written. -/
theorem Draft.Complete.rendered {config : Config} {d : Document} {query : NodeId} {c : Context}
    {D : Draft} (h : c.Finished d query) (hD : D.Complete config c query) {before after : List Field}
    {f : Field} (hsplit : D.fields = before ++ f :: after) :
    f.Rendered config c.graph (c.Named (before ++ [f])) (TypeBlock.Defines D.types) := by
  have hrendered := hD.consistent.rendered before f after hsplit
  have hf : f ∈ D.fields := by simp [hsplit]
  have hvisited := hD.consistent.visited f hf
  refine hrendered.imp (fun _ _ => Iff.rfl) fun t name hmentions hfields hnamed hcalls => ?_
  have hne : t ≠ query := by
    rcases hmentions with ht | ⟨a, ha, ht⟩
    · cases hvalue : (c.graph.node f.node).valueType? with
      | none =>
        rw [hvalue] at ht
        obtain ⟨n, hway⟩ := ht
        cases hway
      | some v =>
        rw [hvalue] at ht
        exact h.ne_query_of_expresses (h.visited_of_valueType? hvisited hvalue) ht
    · have hmem : some a.node ∈ (c.graph.node f.node).arguments := by
        rw [← hrendered.listed]
        exact List.mem_map_of_mem ha
      cases htype : (c.graph.node a.node).type? with
      | none =>
        rw [htype] at ht
        obtain ⟨n, hway⟩ := ht
        cases hway
      | some type =>
        rw [htype] at ht
        exact h.ne_query_of_argument hvisited hmem htype ht
  have hknows : D.Knows t := by
    refine (hD.consistent.knows_iff hfields).2 (hnamed.imp id (Or.imp id ?_))
    rintro ⟨f', hf', hreach⟩
    exact ⟨f', by rw [hsplit, List.append_cons]; exact List.mem_append_left _ hf', hreach⟩
  obtain ⟨b, hb, hnode, hname⟩ := hD.written t hne hfields hknows
  exact ⟨b, hb, hnode, hname.unique hcalls⟩

namespace Conversion

variable {d : Document} {config : Config} {oracle : Oracle} {c' : Context} {text : String}

theorem filterMap_id_of_mapM_expect {α : Type} {xs : List (Option α)} {ys : List α}
    (h : xs.mapM expect = .ok ys) : xs.filterMap id = ys := by
  induction xs generalizing ys with
  | nil =>
    cases h
    rfl
  | cons x xs ih =>
    rw [List.mapM_cons] at h
    cases x with
    | none => cases h
    | some x =>
      cases hrest : xs.mapM expect with
      | error fault =>
        rw [hrest] at h
        cases h
      | ok rest =>
        rw [hrest] at h
        cases h
        rw [List.filterMap_cons_some (by rfl), ih hrest]

/-- Definitions are drafted from everything that is stored once all was visited, and end where the draft
does. -/
theorem exists_draft_of_definitions {defs : Definitions}
    (h : definitions d config (start oracle) = .ok defs c') :
    ∃ query c D, visitAll d config (start oracle) = .ok query c ∧ c.Finished d query ∧
      Drafting.definitions config c.roots (some query) { context := c } = .ok defs D ∧
      c' = D.context := by
  obtain ⟨query, c, hvisit, h⟩ := bind_eq_ok_iff.1 h
  obtain ⟨c₁, c₂, hget, h⟩ := bind_eq_ok_iff.1 h
  cases hget
  obtain ⟨roots, c₁, hroots, h⟩ := bind_eq_ok_iff.1 h
  obtain ⟨hexpect, rfl⟩ := Visit.eq_ok_of_lift hroots
  obtain rfl : c.roots = roots := filterMap_id_of_mapM_expect hexpect
  obtain ⟨D, hrun, hcontext⟩ := exists_of_drafting h
  exact ⟨query, c, D, hvisit, finished_visitAll hvisit, hrun, hcontext⟩

theorem exists_drafting_of_definitions {defs : Definitions}
    (h : definitions d config (start oracle) = .ok defs c') :
    ∃ query c D, visitAll d config (start oracle) = .ok query c ∧ c.Finished d query ∧
      Drafting.definitions config c.roots (some query) { context := c } = .ok defs D := by
  obtain ⟨query, c, D, hvisit, hfinished, hrun, -⟩ := exists_draft_of_definitions h
  exact ⟨query, c, D, hvisit, hfinished, hrun⟩

/-- Definitions are written from a complete draft of a finished graph. -/
theorem exists_complete_of_definitions {defs : Definitions}
    (h : definitions d config (start oracle) = .ok defs c') :
    ∃ query c, ∃ D : Draft, visitAll d config (start oracle) = .ok query c ∧ c.Finished d query ∧
      D.Complete config c query ∧ defs.types = D.types ∧ defs.comment = config.comment.truthy ∧
      defs.scalar = if D.usesJson then some config.jsonScalar else none := by
  obtain ⟨query, c, D, hvisit, hfinished, hrun⟩ := exists_drafting_of_definitions h
  exact ⟨query, c, D, hvisit, hfinished, Drafting.complete_definitions hfinished hrun⟩

/-- The text of definitions is what they are rendered to. -/
theorem run_definitions {defs : Definitions} (h : definitions d config (start oracle) = .ok defs c') :
    run .definitions d config (start oracle) = .ok (defs.render config) c' :=
  bind_eq_ok_iff.2 ⟨defs, c', h, rfl⟩

/-- Definitions speak of nothing that they do not define. Each name inside the type of a field or of an
argument is the scalar for a primitive type, the scalar for values of any form, or the name of a type
among them: of the one that the value leads to, if this had a name when the field was written. The scalar
for values of any form is declared, before all types, just if a field or an argument fell back to it. -/
theorem definitions_closed {defs : Definitions}
    (h : definitions d config (start oracle) = .ok defs c') :
    ∃ query c declaration, visitAll d config (start oracle) = .ok query c ∧
      run .definitions d config (start oracle) =
        .ok ((if config.comment.truthy then Definitions.commentLine else "") ++ declaration ++
          Definitions.renderTypes config defs.types) c' ∧
      (∀ b ∈ defs.types, ∀ f ∈ b.fields, TypeBlock.Knows config defs.types f.type.innermost ∧
        ∀ a ∈ f.arguments, TypeBlock.Knows config defs.types a.type.innermost) ∧
      (∀ before f after, TypeBlock.allFields defs.types = before ++ f :: after →
        f.Rendered config c.graph (c.Named (before ++ [f])) (TypeBlock.Defines defs.types)) ∧
      (c.FallsBack (TypeBlock.allFields defs.types) →
        declaration = "scalar " ++ config.jsonScalar.display ++ "\n\n") ∧
      (¬c.FallsBack (TypeBlock.allFields defs.types) → declaration = "") := by
  obtain ⟨query, c, D, hvisit, hfinished, hD, htypes, hcomment, hscalar⟩ :=
    exists_complete_of_definitions h
  have htext : defs.render config =
      (if config.comment.truthy then Definitions.commentLine else "") ++
        (if D.usesJson then "scalar " ++ config.jsonScalar.display ++ "\n\n" else "") ++
        Definitions.renderTypes config defs.types := by
    rw [Definitions.render, hcomment, hscalar]
    cases D.usesJson <;> rfl
  have hrendered : ∀ before f after, TypeBlock.allFields defs.types = before ++ f :: after →
      f.Rendered config c.graph (c.Named (before ++ [f])) (TypeBlock.Defines defs.types) := by
    rw [htypes]
    exact fun _ _ _ => hD.rendered hfinished
  have hjson : D.usesJson = true ↔ c.FallsBack (TypeBlock.allFields defs.types) := by
    rw [htypes]
    exact hD.consistent.json
  refine ⟨query, c, _, hvisit, htext ▸ run_definitions h, fun b hb f hf => ?_, hrendered,
    fun hfalls => if_pos (hjson.2 hfalls), fun hnot => if_neg fun huses => hnot (hjson.1 huses)⟩
  obtain ⟨before, after, hsplit⟩ := TypeBlock.exists_split hb hf
  exact TypeBlock.knows_of_rendered (hrendered before f after hsplit)

/-- A document with a schema that has an object of its own and a value of any form, and an operation that
takes an argument. -/
def ownerNotes : Document :=
  ⟨.obj [
    ("paths", .obj [("/owner", .obj [("get", .obj [
      ("parameters", .arr [.obj [("name", .str "id"), ("in", .str "query"),
        ("schema", .obj [("type", .str "string")])]]),
      ("responses", .obj [("200", .obj [("content", .obj [("application/json", .obj [
        ("schema", .obj [("$ref", .str "#/components/schemas/Owner")])])])])])])])]),
    ("components", .obj [("schemas", .obj [("Owner", .obj [("type", .str "object"),
      ("properties", .obj [
        ("pet", .obj [("type", .str "object"),
          ("properties", .obj [("name", .obj [("type", .str "string")])])]),
        ("notes", .obj [("type", .str "object")])])])])])]⟩

/-- The definitions of this document, with the scalar for the notes. -/
def ownerNotesText : String :=
  "# Generated by oas_to_graphql 0.1.0\n\nscalar JSON\n\n" ++
    "type Owner \x7b\n  pet: OwnerPet\n  notes: JSON\n\x7d\n\n" ++
    "type OwnerPet \x7b\n  name: String\n\x7d\n\n" ++
    "type Query \x7b\n  getOwner(id: String): Owner\n\x7d\n\n"

theorem definitions_closed_ownerNotes :
    ∃ defs c' declaration, definitions ownerNotes {} (start Oracle.always) = .ok defs c' ∧
      defs.types.map (fun b => b.name.display) = ["Owner", "OwnerPet", "Query"] ∧
      ownerNotesText = Definitions.commentLine ++ declaration ++ Definitions.renderTypes {} defs.types ∧
      ∀ b ∈ defs.types, ∀ f ∈ b.fields, TypeBlock.Knows {} defs.types f.type.innermost ∧
        ∀ a ∈ f.arguments, TypeBlock.Knows {} defs.types a.type.innermost := by
  obtain ⟨defs, hdefs, hread⟩ : ∃ defs, definitions ownerNotes {} (start Oracle.always) = .ok defs _ ∧
      (defs.types.map (fun b => b.name.display), defs.render {}) =
        (["Owner", "OwnerPet", "Query"], ownerNotesText) :=
    exists_eq_ok_of_map_outcome (by decide +kernel)
  obtain ⟨hnames, hrender⟩ := Prod.mk.inj hread
  obtain ⟨query, c, declaration, -, hrun, hknows, -⟩ := definitions_closed hdefs
  rw [run_definitions hdefs, hrender] at hrun
  exact ⟨defs, _, declaration, hdefs, hnames, (EStateM.Result.ok.inj hrun).1, hknows⟩

/-- The value of a field needs a selection of its own just if it unwraps to a type with fields. The field
then speaks of this type by the name under which it was written, if the type had a name by then, and of
the scalar for values of any form otherwise. -/
theorem compound_rendered {defs : Definitions}
    (h : definitions d config (start oracle) = .ok defs c') :
    ∃ query c, visitAll d config (start oracle) = .ok query c ∧
      run .definitions d config (start oracle) = .ok (defs.render config) c' ∧
      ∀ before f after, TypeBlock.allFields defs.types = before ++ f :: after →
        (c.graph.isCompound (c.graph.node f.node).valueType? = .ok true ↔
          ∃ t, c.graph.Unwraps (c.graph.node f.node).valueType? t ∧ c.graph.hasFields t = true ∧
            (c.Named (before ++ [f]) t → TypeBlock.Defines defs.types t f.type.innermost) ∧
            (¬c.Named (before ++ [f]) t → f.type.innermost = config.jsonScalar)) := by
  obtain ⟨query, c, D, hvisit, hfinished, hD, htypes, -, -⟩ := exists_complete_of_definitions h
  refine ⟨query, c, hvisit, run_definitions h, fun before f after hsplit => ?_⟩
  rw [htypes] at hsplit ⊢
  rw [Graph.isCompound_eq_true_iff]
  refine exists_congr fun t => and_congr_right fun hunwraps => ?_
  refine (and_iff_left_of_imp fun hfields => ?_).symm
  exact (hD.rendered hfinished hsplit).type.of_unwraps hunwraps hfields

/-- A document in which an array of arrays of objects is spread over two schemas. -/
def nestedPets : Document :=
  ⟨.obj [("components", .obj [("schemas", .obj [
    ("Owner", .obj [("type", .str "object"), ("properties", .obj [
      ("pets", .obj [("type", .str "array"),
        ("items", .obj [("$ref", .str "#/components/schemas/Pets")])])])]),
    ("Pets", .obj [("type", .str "array"), ("items", .obj [("type", .str "object"),
      ("properties", .obj [("name", .obj [("type", .str "string")])])])])])])]⟩

theorem compound_rendered_nestedPets :
    ∃ defs c' query c, definitions nestedPets {} (start Oracle.always) = .ok defs c' ∧
      defs.render {} =
        Definitions.commentLine ++ "scalar JSON\n\ntype Owner \x7b\n  pets: [[JSON]]\n\x7d\n\n" ∧
      visitAll nestedPets {} (start Oracle.always) = .ok query c ∧
      ∀ before f after, TypeBlock.allFields defs.types = before ++ f :: after →
        c.graph.isCompound (c.graph.node f.node).valueType? = .ok true →
          ∃ t, c.graph.Unwraps (c.graph.node f.node).valueType? t ∧
            (¬c.Named (before ++ [f]) t → f.type.innermost = .str "JSON") := by
  obtain ⟨defs, hdefs, htext⟩ : ∃ defs, definitions nestedPets {} (start Oracle.always) = .ok defs _ ∧
      defs.render {} =
        Definitions.commentLine ++ "scalar JSON\n\ntype Owner \x7b\n  pets: [[JSON]]\n\x7d\n\n" :=
    exists_eq_ok_of_map_outcome (by decide +kernel)
  obtain ⟨query, c, hvisit, -, hall⟩ := compound_rendered hdefs
  refine ⟨defs, _, query, c, hdefs, htext, hvisit, fun before f after hsplit hcompound => ?_⟩
  obtain ⟨t, hunwraps, -, -, hnot⟩ := (hall before f after hsplit).1 hcompound
  exact ⟨t, hunwraps, hnot⟩

end Conversion

end ApiGraph
