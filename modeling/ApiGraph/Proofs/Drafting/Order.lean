import ApiGraph.Proofs.Drafting.Names

/-!
# Types in order

Every type is written once and in its place: stored types in the order of the store, the query type after
all of them, and a type that is called after a field right behind the type with the field, or behind
others of its kind.

* `Context.Inline`, `Context.Follows` — types that are called after a field, and where they belong;
* `Drafting.line_field`, `Drafting.line_mapM` — what comes into the line with fields;
* `Draft.Ordered` — what holds of a draft in which all such types are in their places;
* `Draft.Ordered.writeType`, `Draft.Ordered.generate`, … — so it is after each step;
* `Draft.Progress` — what holds while the stored nodes are written, and in the end;
* `Conversion.placed_definitions` — so the definitions of a document are.
-/

namespace ApiGraph

open OrderedMap Context Drafting

/-! ## Places -/

namespace Context

variable {c : Context} {query t : NodeId} {before : List TypeBlock} {b : TypeBlock}

/-- A type that is called after a field: one without a name of its own that is not the shape of a stored
choice. -/
def Inline (c : Context) (query t : NodeId) : Prop := c.Nameless query t ∧ ¬c.IsShape t

/-- A type belongs behind the first type with a field that leads to it, and nothing but types that are
called after fields may come in between. -/
def Follows (c : Context) (query : NodeId) (before : List TypeBlock) (t : NodeId) : Prop :=
  ∃ first owner between, before = first ++ owner :: between ∧
    (∃ f ∈ owner.fields, c.graph.Reaches f.node t) ∧
    (∀ b ∈ first, ∀ f ∈ b.fields, ¬c.graph.Reaches f.node t) ∧
    ∀ b ∈ between, c.Inline query b.node

theorem Follows.append (h : c.Follows query before t) (hb : c.Inline query b.node) :
    c.Follows query (before ++ [b]) t := by
  obtain ⟨first, owner, between, rfl, hleads, hfirst, hbetween⟩ := h
  refine ⟨first, owner, between ++ [b], by simp, hleads, hfirst, fun b' hb' => ?_⟩
  rcases List.mem_append.1 hb' with hb' | hb'
  · exact hbetween b' hb'
  · rwa [List.mem_singleton.1 hb']

theorem follows_last (hleads : ∃ f ∈ b.fields, c.graph.Reaches f.node t)
    (hnew : ∀ b' ∈ before, ∀ f ∈ b'.fields, ¬c.graph.Reaches f.node t) :
    c.Follows query (before ++ [b]) t :=
  ⟨before, b, [], rfl, hleads, hnew, by simp⟩

end Context

/-! ## What comes into the line -/

namespace Drafting

variable {config : Config} {D D' : Draft} {i t : NodeId} {name : Json}

/-- A field brings into the line only what it leads to, and what has no name yet. -/
theorem line_field {f : Field} (h : field config name i D = .ok f D') (ht : t ∈ D'.pending) :
    t ∈ D.pending ∨ contains t D.inlineNames = false ∧
      isAnonymous D.context.graph (some t) = true ∧ D.context.graph.Reaches f.node t := by
  obtain ⟨slot, arguments, link, ownerName, words, s, D₁, written, D₂, e, -, -, hinline, -, harguments,
    htype, rfl⟩ := field_cases h
  have hstill := ((quiet_arguments config arguments).of_ok harguments).trans
    ((quiet_typeExpr config _).of_ok htype)
  rw [hstill.pending] at ht
  rcases nameInline_cases hinline with ⟨rfl, -⟩ | ⟨target, htarget, hanonymous, hfree, rfl⟩
  · exact .inl ht
  · rcases List.mem_append.1 ht with ht | ht
    · exact .inl ht
    · obtain rfl := List.mem_singleton.1 ht
      exact .inr ⟨hfree, hanonymous, htarget⟩

theorem extends_field {f : Field} (h : field config name i D = .ok f D') : D.Extends D' := by
  obtain ⟨slot, arguments, link, ownerName, words, s, D₁, written, D₂, e, -, -, hinline, -, harguments,
    htype, -⟩ := field_cases h
  exact (gives_nameInline hinline).keeps.trans
    (((quiet_arguments config arguments).of_ok harguments).trans
      ((quiet_typeExpr config _).of_ok htype)).extends

/-- Fields bring into the line only what one of them leads to, and what had no name before. -/
theorem line_mapM {props : List NodeId} {fields : List Field}
    (h : props.mapM (field config name) D = .ok fields D') (ht : t ∈ D'.pending) :
    t ∈ D.pending ∨ contains t D.inlineNames = false ∧
      isAnonymous D.context.graph (some t) = true ∧ ∃ f ∈ fields, D.context.graph.Reaches f.node t := by
  induction props generalizing D fields with
  | nil =>
    rw [List.mapM_nil] at h
    cases h
    exact .inl ht
  | cons i rest ih =>
    rw [List.mapM_cons] at h
    obtain ⟨f, D₁, hone, h⟩ := bind_eq_ok_iff.1 h
    obtain ⟨others, D₂, hothers, h⟩ := bind_eq_ok_iff.1 h
    cases h
    have hkeeps := extends_field hone
    rcases ih hothers with ht | ⟨hfree, hanonymous, f', hf', hreach⟩
    · rcases line_field hone ht with ht | ⟨hfree, hanonymous, hreach⟩
      · exact .inl ht
      · exact .inr ⟨hfree, hanonymous, f, List.mem_cons_self, hreach⟩
    · rw [hkeeps.graph] at hanonymous hreach
      refine .inr ⟨?_, hanonymous, f', List.mem_cons_of_mem _ hf', hreach⟩
      by_contra hcontains
      rw [hkeeps.contains (by simpa using hcontains)] at hfree
      cases hfree

end Drafting

/-! ## Drafts in order -/

namespace Draft

variable {config : Config} {d : Document} {query : NodeId} {c : Context}
  {X : NodeId → String → Prop} {D D' : Draft} {i t : NodeId} {name : Json}

/-- The types that are called after fields are in their places, and those in the line may be written
next. -/
structure Ordered (c : Context) (query : NodeId) (D : Draft) : Prop where
  blocks : ∀ before b after, D.types = before ++ b :: after → c.Inline query b.node →
    c.Follows query before b.node
  line : ∀ t ∈ D.pending, c.Follows query D.types t

theorem Ordered.congr (h : D.Ordered c query) (htypes : D'.types = D.types)
    (hline : D'.pending ⊆ D.pending) : D'.Ordered c query := by
  refine ⟨?_, ?_⟩
  · rw [htypes]
    exact h.blocks
  · rw [htypes]
    exact fun t ht => h.line t (hline ht)

theorem Ordered.still (h : D.Ordered c query) (hs : D.Still D') : D'.Ordered c query :=
  h.congr hs.types (by rw [hs.pending]; exact List.Subset.refl _)

/-- A type without a name is one that no field leads to. -/
theorem Consistent.not_reaches (h : D.Consistent config c X D.fields)
    (hanonymous : isAnonymous c.graph (some t) = true) (hfree : contains t D.inlineNames = false)
    {b : TypeBlock} (hb : b ∈ D.types) {f : Field} (hf : f ∈ b.fields) :
    ¬c.graph.Reaches f.node t := by
  intro hreach
  rw [(h.names t).2 ⟨hanonymous, .inr ⟨f, List.mem_flatMap.2 ⟨b, hb, hf⟩, hreach⟩⟩] at hfree
  cases hfree

/-- A type is written in its place. With others in the line, this is one that is called after a field. -/
theorem Ordered.writeType (h : D.Ordered c query) (hD : D.Consistent config c X D.fields)
    (hplace : D.pending = [] ∨ c.Inline query i) (hbelongs : c.Inline query i → c.Follows query D.types i)
    {props : List NodeId} (hrun : Drafting.writeType config i name props D = .ok () D') :
    D'.Ordered c query := by
  obtain ⟨fields, D₁, hmap, hrun⟩ := bind_eq_ok_iff.1 hrun
  obtain ⟨-, -, -, htypes⟩ := declared_mapM hmap
  cases hrun
  refine ⟨fun before b after hsplit hinline => ?_, fun t ht => ?_⟩
  · dsimp only at hsplit
    rw [htypes] at hsplit
    rcases List.eq_nil_or_concat after with rfl | ⟨after, last, rfl⟩
    · obtain ⟨rfl, hlast⟩ := List.append_inj' hsplit rfl
      cases hlast
      exact hbelongs hinline
    · rw [List.concat_eq_append, ← List.cons_append, ← List.append_assoc] at hsplit
      obtain ⟨hsplit, -⟩ := List.append_inj' hsplit rfl
      exact h.blocks before b after hsplit hinline
  · dsimp only
    rw [htypes]
    rcases line_mapM hmap ht with ht | ⟨hfree, hanonymous, hleads⟩
    · rcases hplace with hnone | hinline
      · rw [hnone] at ht
        cases ht
      · exact (h.line t ht).append hinline
    · rw [hD.graph] at hanonymous hleads
      exact follows_last hleads fun b hb f hf => hD.not_reaches hanonymous hfree hb hf

/-- The type of an object or composition is written in its place, if it has fields. -/
theorem Ordered.writeObject (h : D.Ordered c query) (hD : D.Consistent config c X D.fields)
    (hknows : c.graph.hasFields i = true → D.Knows i)
    (hbody : (c.graph.node i).body = .object ∨ ∃ parts, (c.graph.node i).body = .composed .allOf parts)
    (hplace : D.pending = [] ∨ c.Inline query i) (hbelongs : c.Inline query i → c.Follows query D.types i)
    (hrun : Drafting.writeObject config i D = .ok () D') : D'.Ordered c query := by
  rcases writeObject_cases hD.graph hbody hrun with ⟨-, rfl⟩ | ⟨hfields, name, D₂, hname, hrun⟩
  · exact h
  · have hstill := (quiet_typeName config i).of_ok hname
    obtain ⟨-, -, hjson⟩ :=
      (typeName_cases hD.spelt hname).resolve_right fun hnot => hnot.1 (hknows hfields)
    have hD₂ : D₂.Consistent config c X D₂.fields := by
      rw [fields, hstill.types]
      exact hD.same ⟨hstill, hjson⟩
    exact (h.still hstill).writeType hD₂ (by rwa [hstill.pending]) (by rwa [hstill.types]) hrun

/-- A choice is written as its shape, which is not called after a field. -/
theorem Ordered.writeVariant (h : D.Ordered c query) (hD : D.Consistent config c X D.fields)
    (hi : i ∈ c.roots) (hline : D.pending = []) {variant : Option NodeId}
    (hvariant : variantOf c.graph i = .ok variant)
    (hrun : Drafting.writeVariant config i variant D = .ok () D') : D'.Ordered c query := by
  have hknown : D.Known c i := fun t ht hanonymous => (hD.names t).2 ⟨hanonymous, .inl ⟨i, hi, ht⟩⟩
  rcases writeVariant_cases hD.graph hvariant (fun t ht => hknown t (ht ▸ hvariant)) hrun with
    ⟨rfl, -⟩ | ⟨v, D₁, D₂, rfl, hanonymous, -, hin, hwrite, hout⟩
  · exact h
  · have hcontains := hknown v hvariant hanonymous
    rw [isAnonymous_some, Bool.and_eq_true] at hanonymous
    have hD₁ : D₁.Consistent config c X D₁.fields := by
      rw [fields, hin.still.types]
      exact (hD.congr (extends_mark D v) rfl rfl rfl rfl).same hin
    have h₁ : D₁.Ordered c query := h.congr hin.still.types (by
      rw [hin.still.pending]
      exact List.Subset.refl _)
    have h₂ := h₁.writeObject hD₁ (fun _ => (Knows.still hin.still).2 (.inr hcontains))
      (Graph.body_of_hasFields hanonymous.2) (.inl (by rw [hin.still.pending]; exact hline))
      (fun hinline => absurd ⟨i, hi, hvariant⟩ hinline.2) hwrite
    exact h₂.still hout.still

/-- The definition of a node is written in its place: of a stored node when the line is empty, or of one
that was taken from the line. -/
theorem Ordered.generate (h : D.Ordered c query) (hD : D.Consistent config c X D.fields)
    (hknows : c.graph.hasFields i = true → D.Knows i)
    (hplace : i ∈ c.roots ∧ D.pending = [] ∨ c.Inline query i)
    (hbelongs : c.Inline query i → c.Follows query D.types i)
    (hrun : Drafting.generate config i D = .ok () D') : D'.Ordered c query := by
  obtain ⟨D₁, D₂, hin, hout, hcases⟩ := generate_cases hD.graph hrun
  refine Ordered.still ?_ hout.still
  have h₁ := h.still hin.still
  have hD₁ : D₁.Consistent config c X D₁.fields := by
    rw [fields, hin.still.types]
    exact hD.same hin
  rcases hcases with ⟨hbody, hwrite⟩ | ⟨hplain, variant, hvariant, hwrite⟩
  · refine h₁.writeObject hD₁ (fun hfields => (Knows.still hin.still).2 (hknows hfields)) hbody ?_
      (by rwa [hin.still.types]) hwrite
    rw [hin.still.pending]
    exact hplace.imp_left And.right
  · rcases hplace with ⟨hroot, hline⟩ | hinline
    · exact h₁.writeVariant hD₁ hroot (by rw [hin.still.pending]; exact hline) hvariant hwrite
    · have hanonymous := hinline.1.anonymous
      rw [isAnonymous_some, hplain, Bool.and_false] at hanonymous
      cases hanonymous

/-! ## Whole runs -/

/-- What holds of a draft in between the types that are written: it is consistent, nothing was written
twice, and everything is in its place. -/
structure Progress (config : Config) (c : Context) (query : NodeId) (X : NodeId → String → Prop)
    (D : Draft) : Prop where
  drafted : D.Drafted config c X
  apart : D.Apart config c query
  ordered : D.Ordered c query

namespace Progress

/-- What waits in the line is called after a field. -/
theorem inline_of_mem_pending (h : D.Progress config c query X) (ht : t ∈ D.pending) : c.Inline query t :=
  ⟨(h.apart.waiting t ht).1, (h.apart.waiting t ht).2.2.1⟩

/-- The first type in the line is written in its place. -/
theorem next {rest : List NodeId} (h : D.Progress config c query X) (hc : c.Finished d query)
    (hline : D.pending = i :: rest)
    (hrun : Drafting.generate config i { D with pending := rest } = .ok () D') :
    D'.Progress config c query X := by
  have hi : i ∈ D.pending := by
    rw [hline]
    exact List.mem_cons_self
  have hrest : rest ⊆ D.pending := by
    rw [hline]
    exact List.subset_cons_self _ _
  have hordered : Ordered c query { D with pending := rest } := h.ordered.congr rfl hrest
  exact ⟨(h.drafted.next hc hline hrun).1, (h.apart.next hc hline hrun).1,
    hordered.generate (h.drafted.pop hline).consistent
      (fun _ => .inr (h.drafted.consistent.pending i hi)) (.inr (h.inline_of_mem_pending hi))
      (fun _ => h.ordered.line i hi) hrun⟩

/-- All types in the line are written in their places. -/
theorem flush (h : D.Progress config c query X) (hc : c.Finished d query)
    (hrun : Drafting.flush config D = .ok () D') : D'.Progress config c query X :=
  (flush_induction (fun _ _ _ _ hE => hE.next hc) h hrun).1

/-- A written type with fields: its node is stored, or is the query object, or was given a name. -/
theorem mem_nodes (h : D.Progress config c query X) (hc : c.Finished d query) (ht : t ∈ D.nodes) :
    c.graph.hasFields t = true ∧ (t ∈ c.roots ∨ t = query ∨ contains t D.inlineNames = true) := by
  obtain ⟨b, hb, rfl⟩ := List.mem_map.1 ht
  obtain ⟨hfields, -, ⟨hne, hcalls⟩ | ⟨rfl, -⟩⟩ := h.apart.titled b hb
  · refine ⟨hfields, ?_⟩
    cases hnull : (c.graph.node b.node).name.isNull with
    | false => exact .inl (hc.mem_roots hne hfields hnull)
    | true =>
      obtain ⟨s, -, hgiven⟩ := hcalls.exists_given (by rw [h.apart.graph]; exact hnull)
      exact .inr (.inr (by simp [contains, hgiven]))
  · exact ⟨hfields, .inr (.inl rfl)⟩

/-- A stored node comes in its turn: of all that is written with it, nothing else is stored. -/
theorem writeRoot {rest : List NodeId} {D₁ : Draft}
    (h : D.Progress config c query (Owes c (i :: rest))) (hc : c.Finished d query)
    (hline : D.pending = []) (hi : i ∈ c.roots) (hnew : i ∉ D.nodes)
    (hgenerate : Drafting.generate config i D = .ok () D₁)
    (hflush : Drafting.flush config D₁ = .ok () D') :
    D'.Progress config c query (Owes c rest) ∧ D'.pending = [] ∧ ∃ more, D'.nodes = D.nodes ++ more ∧
      more.filter (· ∈ c.roots) = [i].filter c.graph.hasFields := by
  obtain ⟨hdrafted, hkeeps, hwritten⟩ := h.drafted.generateRoot hc hi hgenerate
  obtain ⟨hapart, -⟩ := h.apart.generate hc (hc.root hi).1 (.inl hi) (by simp [hline]) hnew hgenerate
  have hnamed : D.Knows i := .inl (by rw [h.apart.graph]; exact (hc.root hi).2.1)
  have hordered := h.ordered.generate h.drafted.consistent (fun _ => hnamed) (.inl ⟨hi, hline⟩)
    (fun hinline => absurd hinline.1.anonymous (hc.not_anonymous hi)) hgenerate
  have h' : D'.Progress config c query (Owes c rest) := flush ⟨hdrafted, hapart, hordered⟩ hc hflush
  obtain ⟨-, hkeeps', hempty⟩ := hdrafted.flush hc hflush
  obtain ⟨-, hproceeds⟩ := h.apart.writeRoot hc hi hnew hgenerate hflush
  obtain ⟨more, hmore⟩ := (hkeeps.trans hkeeps').types
  have hnodes : D'.nodes = D.nodes ++ more.map TypeBlock.node := by
    rw [nodes, ← hmore, List.map_append, nodes]
  refine ⟨h', hempty, _, hnodes, ?_⟩
  have honce := h'.apart.once
  rw [hnodes] at honce
  obtain ⟨-, hnodup, hdisjoint⟩ := List.nodup_append.1 honce
  have hmem : ∀ t, t ∈ (more.map TypeBlock.node).filter (· ∈ c.roots) ↔
      t ∈ [i].filter c.graph.hasFields := by
    intro t
    rw [List.mem_filter, List.mem_filter, List.mem_singleton, decide_eq_true_eq]
    constructor
    · rintro ⟨ht, hroot⟩
      have hin : t ∈ D'.nodes := by
        rw [hnodes]
        exact List.mem_append_right _ ht
      by_cases hti : t = i
      · exact ⟨hti, (h'.mem_nodes hc hin).1⟩
      · exact absurd hin (hproceeds.notMem_nodes hc hroot hti fun hold => hdisjoint t hold t ht rfl)
    · rintro ⟨rfl, hfields⟩
      obtain ⟨b, hb, hnode, -⟩ := (hwritten hfields).extends hkeeps'
      have hin : t ∈ D'.nodes := List.mem_map.2 ⟨b, hb, hnode⟩
      rw [hnodes] at hin
      exact ⟨(List.mem_append.1 hin).resolve_left hnew, hi⟩
  have hperm := (List.perm_ext_iff_of_nodup (hnodup.filter _) ((List.nodup_singleton i).filter _)).2 hmem
  cases hfields : c.graph.hasFields i with
  | true =>
    rw [List.filter_cons_of_pos hfields, List.filter_nil] at hperm ⊢
    exact List.perm_singleton.1 hperm
  | false =>
    rw [List.filter_cons_of_neg (by simp [hfields]), List.filter_nil] at hperm ⊢
    exact List.perm_nil.1 hperm

/-- Stored nodes are written in order, each followed by the types that its fields named. -/
theorem writeRoots {rest : List NodeId} (h : D.Progress config c query (Owes c rest))
    (hc : c.Finished d query) (hline : D.pending = []) (hroots : ∀ i ∈ rest, i ∈ c.roots)
    (hnodup : rest.Nodup) (hnew : ∀ i ∈ rest, i ∉ D.nodes)
    (hrun : (rest.forM fun i => do
      Drafting.generate config i
      Drafting.flush config : Drafting Unit) D = .ok () D') :
    D'.Progress config c query (fun _ _ => False) ∧ D'.pending = [] ∧
      ∃ more, D'.nodes = D.nodes ++ more ∧
        more.filter (· ∈ c.roots) = rest.filter c.graph.hasFields := by
  induction rest generalizing D with
  | nil =>
    cases hrun
    refine ⟨⟨h.drafted.settle fun t s _ hX => ?_, h.apart, h.ordered⟩, hline, [], by simp, rfl⟩
    obtain ⟨r, hr, -⟩ := hX
    cases hr
  | cons i rest ih =>
    obtain ⟨u, D₂, hone, hrest⟩ := bind_eq_ok_iff.1 hrun
    obtain ⟨u, D₁, hgenerate, hflush⟩ := bind_eq_ok_iff.1 hone
    obtain ⟨hi, hothers⟩ := List.forall_mem_cons.1 hroots
    obtain ⟨hi', hothers'⟩ := List.forall_mem_cons.1 hnew
    obtain ⟨hfirst, hnodup⟩ := List.nodup_cons.1 hnodup
    obtain ⟨h₂, hempty, more, hnodes, hstored⟩ := h.writeRoot hc hline hi hi' hgenerate hflush
    obtain ⟨-, hproceeds⟩ := h.apart.writeRoot hc hi hi' hgenerate hflush
    obtain ⟨h', hempty', others, hnodes', hstored'⟩ := ih h₂ hempty hothers hnodup (fun j hj =>
      hproceeds.notMem_nodes hc (hothers j hj) (fun he => hfirst (he ▸ hj)) (hothers' j hj)) hrest
    refine ⟨h', hempty', more ++ others, by rw [hnodes', hnodes, List.append_assoc], ?_⟩
    rw [List.filter_append, hstored, hstored', ← List.filter_append, List.singleton_append]

/-- When all stored nodes were written, so were the shapes of stored choices. -/
theorem mem_nodes_of_isShape (h : D.Progress config c query fun _ _ => False) (hline : D.pending = [])
    (hshape : c.IsShape t) (hanonymous : isAnonymous c.graph (some t) = true) : t ∈ D.nodes := by
  obtain ⟨s, hs, -⟩ := h.apart.shapes t hshape hanonymous
  obtain ⟨s', -, ⟨b, hb, hnode, -⟩ | hwhere | hX⟩ := h.drafted.consistent.given t _ hs
  · exact List.mem_map.2 ⟨b, hb, hnode⟩
  · rw [hline] at hwhere
    cases hwhere
  · exact hX.elim

/-- The query type is written at last, followed by the types that its fields named. -/
theorem writeQuery {E E' D₁ : Draft} (h : D.Progress config c query fun _ _ => False)
    (hc : c.Finished d query) (hline : D.pending = []) (hfields : c.graph.hasFields query = true)
    (hnew : query ∉ D.nodes) (hin : D.Same E)
    (hwrite : Drafting.writeType config query config.queryType (values (c.graph.node query).props) E =
      .ok () E')
    (hout : E'.Same D₁) (hflush : Drafting.flush config D₁ = .ok () D') :
    D'.Progress config c query (fun _ _ => False) ∧
      ∃ rest, D'.nodes = D.nodes ++ query :: rest ∧ ∀ t ∈ rest, c.Inline query t := by
  have hE := h.drafted.same hin
  have hempty : E.pending = [] := by rw [hin.still.pending, hline]
  obtain ⟨hdrafted, -⟩ := hE.writeType hc hc.visited hfields hwrite
  have hapart := (h.apart.still hin.still).writeQuery hc hfields (by rwa [nodes, hin.still.types]) hwrite
  have hordered := (h.ordered.still hin.still).writeType hE.consistent (.inl hempty)
    (fun hinline => absurd rfl hinline.1.ne_query) hwrite
  have h₁ : D₁.Progress config c query fun _ _ => False :=
    ⟨hdrafted.same hout, hapart.still hout.still, hordered.still hout.still⟩
  have h' := h₁.flush hc hflush
  have hnodes₁ : D₁.nodes = D.nodes ++ [query] := by
    obtain ⟨fields, E₁, hmap, hwrite⟩ := bind_eq_ok_iff.1 hwrite
    obtain ⟨-, -, -, htypes⟩ := declared_mapM hmap
    cases hwrite
    rw [nodes, hout.still.types, List.map_append, htypes, hin.still.types]
    rfl
  obtain ⟨-, hproceeds⟩ := h₁.apart.flush hc hflush
  obtain ⟨more, hmore⟩ := hproceeds.keeps.types
  have hnodes : D'.nodes = D₁.nodes ++ more.map TypeBlock.node := by
    rw [nodes, ← hmore, List.map_append, nodes]
  refine ⟨h', more.map TypeBlock.node, by rw [hnodes, hnodes₁, List.append_assoc]; rfl, fun t ht => ?_⟩
  have honce := h'.apart.once
  rw [hnodes] at honce
  obtain ⟨-, -, hdisjoint⟩ := List.nodup_append.1 honce
  have hlate : t ∉ D₁.nodes := fun hold => hdisjoint t hold t ht rfl
  have hnameless : c.Nameless query t := by
    rcases hproceeds.written t (by rw [hnodes]; exact List.mem_append_right _ ht) with hold | hnever | hnew
    · exact absurd hold hlate
    · exact hnever.elim
    · exact hnew
  refine ⟨hnameless, fun hshape => hlate ?_⟩
  rw [hnodes₁]
  exact List.mem_append_left _ (h.mem_nodes_of_isShape hline hshape hnameless.anonymous)

end Progress

end Draft

/-! ## Definitions of a document -/

/-- Types are written once and in their places, once the names in a draft were given. -/
structure Definitions.Placed (config : Config) (c : Context) (query : NodeId) (D : Draft)
    (defs : Definitions) : Prop where
  /-- No node is written twice. -/
  once : (defs.types.map TypeBlock.node).Nodup
  /-- What is written: types with fields that are stored, the query object, and what was given a name. -/
  written : ∀ t, t ∈ defs.types.map TypeBlock.node ↔ c.graph.hasFields t = true ∧
    (t ∈ c.roots ∨ t = query ∨ contains t D.inlineNames = true)
  /-- What is given a name: what has none, and is the shape of a stored choice or led to by a field. -/
  named : ∀ t, contains t D.inlineNames = true ↔
    isAnonymous c.graph (some t) = true ∧ c.Reached (TypeBlock.allFields defs.types) t
  /-- Each type lists the properties of its node in order. -/
  declared : ∀ b ∈ defs.types, b.Declared config c.graph (TypeBlock.Defines defs.types)
  /-- Stored types come in the order of the store. -/
  stored : (defs.types.map TypeBlock.node).filter (· ∈ c.roots) = c.roots.filter c.graph.hasFields
  /-- Nothing comes after the query type but types that are called after fields. -/
  last : ∀ before b after, defs.types = before ++ b :: after → b.node = query →
    ∀ b' ∈ after, c.Inline query b'.node
  /-- A type that is called after a field comes after the type with this field, and before the next one
  that is not called so. -/
  inline : ∀ before b after, defs.types = before ++ b :: after → c.Inline query b.node →
    c.Follows query before b.node

namespace Drafting

variable {config : Config} {d : Document} {query : NodeId} {c : Context} {D : Draft} {defs : Definitions}

/-- Once choices have named their shapes, nothing was written that could be out of place. -/
theorem progress_of_prenamed (hD : D.Prenamed c c.roots)
    (htaken : c.refNames ++ config.queryNames ⊆ D.takenNames) :
    D.Progress config c query (Draft.Owes c c.roots) := by
  refine ⟨hD.drafted, apart_of_prenamed hD htaken, fun before b after hsplit => ?_, ?_⟩
  · rw [hD.types] at hsplit
    exact absurd hsplit.symm (List.append_ne_nil_of_right_ne_nil _ (List.cons_ne_nil _ _))
  · rw [hD.pending]
    simp

/-- What was written, in order: the stored types with fields, among others that are called after fields
or after choices, and then the query type with the types that its fields named. -/
theorem exists_progress_of_definitions (h : c.Finished d query)
    (hrun : definitions config c.roots (some query) { context := c } = .ok defs D) :
    D.Progress config c query (fun _ _ => False) ∧ ∃ first last, D.nodes = first ++ last ∧
      first.filter (· ∈ c.roots) = c.roots.filter c.graph.hasFields ∧ query ∉ first ∧
      (c.graph.hasFields query = false ∧ last = [] ∨ c.graph.hasFields query = true ∧
        ∃ rest, last = query :: rest ∧ ∀ t ∈ rest, c.Inline query t) := by
  obtain ⟨-, D₁, D₂, D₃, D₄, htake, hquery, hvariants, hroots, hlast⟩ := definitions_cases hrun
  have hprenamed := prenamed_of_nameVariants h htake hquery hvariants
  have hnone : D₃.nodes = [] := by rw [Draft.nodes, hprenamed.types, List.map_nil]
  have hD₃ : D₃.Progress config c query (Draft.Owes c c.roots) := by
    refine progress_of_prenamed hprenamed ?_
    rw [taken_of_nameVariants hvariants]
    exact taken_of_takeNames h htake hquery
  obtain ⟨hD₄, hline, first, hnodes, hstored⟩ :=
    hD₃.writeRoots h hprenamed.pending (fun _ => id) h.nodup_roots (by simp [hnone]) hroots
  obtain ⟨-, hproceeds⟩ := hD₃.apart.writeRoots h (fun _ => id) h.nodup_roots (by simp [hnone]) hroots
  have hnew : query ∉ D₄.nodes := hproceeds.query_notMem_nodes h (by simp [hnone])
  rw [hnone, List.nil_append] at hnodes
  rw [hD₄.apart.graph] at hlast
  rcases hlast with ⟨hempty, rfl⟩ | ⟨hprops, D₅, D₆, D₇, hin, hwrite, hout, hflush⟩
  · have hfields : c.graph.hasFields query = false :=
      Bool.eq_false_iff.2 fun hfields => (Draft.hasFields_query_iff h).1 hfields hempty
    exact ⟨hD₄, first, [], by rw [hnodes, List.append_nil], hstored, by rwa [← hnodes],
      .inl ⟨hfields, rfl⟩⟩
  · have hfields := (Draft.hasFields_query_iff h).2 hprops
    obtain ⟨hD, rest, hnodes', hinline⟩ := hD₄.writeQuery h hline hfields hnew hin hwrite hout hflush
    rw [hnodes] at hnew
    exact ⟨hD, first, query :: rest, by rw [hnodes', hnodes], hstored, hnew,
      .inr ⟨hfields, rest, rfl, hinline⟩⟩

/-- The definitions of a document are written once and in their places. -/
theorem placed_of_definitions (h : c.Finished d query)
    (hrun : definitions config c.roots (some query) { context := c } = .ok defs D) :
    defs.Placed config c query D := by
  obtain ⟨hD, first, last, hnodes, hstored, hnew, hlast⟩ := exists_progress_of_definitions h hrun
  obtain ⟨hcomplete, htypes, -, -⟩ := complete_definitions h hrun
  have hdeclared := declared_of_definitions h hrun
  have honce := hD.apart.once
  have hwritten : ∀ t, D.Written t → t ∈ D.nodes := fun t ⟨b, hb, ht, _⟩ => List.mem_map.2 ⟨b, hb, ht⟩
  refine ⟨?_, fun t => ⟨fun ht => ?_, ?_⟩, ?_, ?_, ?_, fun before b after hsplit hb => ?_, ?_⟩ <;>
    rw [htypes] at *
  · exact honce
  · exact hD.mem_nodes h ht
  · rintro ⟨hfields, hroot | rfl | hgiven⟩
    · exact hwritten t (hcomplete.written t (h.root hroot).2.2.1 hfields
        (.inl (by rw [hD.apart.graph]; exact (h.root hroot).2.1)))
    · rcases hlast with ⟨hnone, -⟩ | ⟨-, rest, rfl, -⟩
      · rw [hnone] at hfields
        cases hfields
      · change t ∈ D.nodes
        rw [hnodes]
        simp
    · exact hwritten t (hcomplete.written t (hD.drafted.consistent.visited_of_contains h hgiven).2 hfields
        (.inr hgiven))
  · exact hD.drafted.consistent.names
  · exact hdeclared
  · change D.nodes.filter _ = _
    rw [hnodes, List.filter_append, hstored, List.append_right_eq_self, List.filter_eq_nil_iff]
    intro t ht hroot
    rw [decide_eq_true_eq] at hroot
    rcases hlast with ⟨-, rfl⟩ | ⟨-, rest, rfl, hinline⟩
    · cases ht
    · rcases List.mem_cons.1 ht with rfl | ht
      · exact (h.root hroot).2.2.1 rfl
      · exact h.not_anonymous hroot (hinline t ht).1.anonymous
  · have hsplit' : D.nodes = before.map TypeBlock.node ++ query :: after.map TypeBlock.node := by
      rw [Draft.nodes, hsplit, List.map_append, List.map_cons, hb]
    rw [hnodes] at hsplit'
    rcases hlast with ⟨-, rfl⟩ | ⟨-, rest, rfl, hinline⟩
    · rw [List.append_nil] at hsplit'
      exact absurd (by rw [hsplit']; simp) hnew
    · obtain ⟨-, -, rfl⟩ := (List.append_cons_inj_of_notMem hnew fun hmem =>
        (hinline query hmem).1.ne_query rfl).1 hsplit'
      exact fun b' hb' => hinline b'.node (List.mem_map_of_mem hb')
  · exact hD.ordered.blocks

end Drafting

namespace Conversion

variable {d : Document} {config : Config} {oracle : Oracle} {defs : Definitions} {c' : Context}

/-- Every type is written once and in its place. There is one type for each stored node that has fields,
in the order of the store, one for each type that was given a name, and then one for the query object if
it has fields. A type that is called after a field comes after the type with this field, and before the
next stored type or the query type. -/
theorem placed_definitions (h : definitions d config (start oracle) = .ok defs c') :
    ∃ query c D, visitAll d config (start oracle) = .ok query c ∧
      Drafting.definitions config c.roots (some query) { context := c } = .ok defs D ∧
      defs.Placed config c query D := by
  obtain ⟨query, c, D, hvisit, hfinished, hrun⟩ := exists_drafting_of_definitions h
  exact ⟨query, c, D, hvisit, hrun, placed_of_definitions hfinished hrun⟩

theorem placed_definitions_crowdedNames :
    ∃ defs c' query c D, definitions crowdedNames {} (start Oracle.always) = .ok defs c' ∧
      defs.types.map (fun b => b.name.display) =
        ["Owner", "OwnerPet2", "OwnerPet3", "OwnerPet", "Query"] ∧
      visitAll crowdedNames {} (start Oracle.always) = .ok query c ∧ defs.Placed {} c query D := by
  obtain ⟨defs, hdefs, hnames⟩ : ∃ defs, definitions crowdedNames {} (start Oracle.always) = .ok defs _ ∧
      defs.types.map (fun b => b.name.display) = ["Owner", "OwnerPet2", "OwnerPet3", "OwnerPet", "Query"] :=
    exists_eq_ok_of_map_outcome (by decide +kernel)
  obtain ⟨query, c, D, hvisit, -, hplaced⟩ := placed_definitions hdefs
  exact ⟨defs, _, query, c, D, hdefs, hnames, hvisit, hplaced⟩

end Conversion

end ApiGraph
