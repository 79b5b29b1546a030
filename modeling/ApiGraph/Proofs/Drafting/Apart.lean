import Mathlib.Data.List.Nodup
import Mathlib.Data.List.Perm.Subperm
import ApiGraph.Proofs.Declaring.Fields
import ApiGraph.Proofs.Drafting.Documents

/-!
# Drafts without clashes

Every name is given once, and every type is written once.

* `Drafting.freshName_notMem` — a new name is none of the taken ones;
* `Context.refNames`, `Context.IsShape` — the type names of the stored references, and the kept shapes of
  stored choices;
* `Draft.Apart` — what holds of a draft in which nothing was named or written twice;
* `Draft.Proceeds` — what may come into the line and be written meanwhile;
* `Draft.Apart.field`, `Draft.Apart.writeType`, `Draft.Apart.generate`, … — so it is after each step;
* `Draft.Apart.writeRoots` — and after all stored nodes were written.
-/

namespace ApiGraph

open OrderedMap Context Drafting

/-! ## New names -/

namespace Drafting

theorem candidateName_injective (name : String) : Function.Injective (candidateName name) := by
  have hlength : ∀ m : Nat, name ≠ name ++ toString (m + 2) := by
    intro m he
    have hlength := congrArg String.length he
    rw [String.length_append] at hlength
    have hpos : 0 < (toString (m + 2)).length := Nat.length_repr_pos
    omega
  intro j k h
  cases j with
  | zero =>
    cases k with
    | zero => rfl
    | succ k => exact absurd h (hlength k)
  | succ j =>
    cases k with
    | zero => exact absurd h.symm (hlength j)
    | succ k =>
      have hdigits := congrArg String.toList ((String.append_right_inj name).1 h)
      rw [Nat.toString_eq_ofList_toDigits, Nat.toString_eq_ofList_toDigits, String.toList_ofList,
        String.toList_ofList] at hdigits
      have hvalue := congrArg (Nat.ofDigitChars 10 · 0) hdigits
      simp only [Nat.ofDigitChars_ten_toDigits] at hvalue
      omega

/-- There is one more candidate than there are taken names, so that not all of them are taken. -/
theorem freshName_notMem (taken : List String) (name : String) : freshName taken name ∉ taken := by
  rw [freshName]
  cases hfound : ((List.range (taken.length + 1)).map (candidateName name)).find? (· ∉ taken) with
  | some free => simpa using List.find?_some hfound
  | none =>
    exfalso
    rw [List.find?_eq_none] at hfound
    have hsub : (List.range (taken.length + 1)).map (candidateName name) ⊆ taken := by
      intro s hs
      simpa using hfound s hs
    have hnodup : ((List.range (taken.length + 1)).map (candidateName name)).Nodup :=
      List.nodup_range.map (candidateName_injective name)
    have hle := (List.subperm_of_subset hnodup hsub).length_le
    rw [List.length_map, List.length_range] at hle
    omega

end Drafting

/-! ## Stored names -/

namespace Context

/-- The type names for the references in the store. -/
def refNames (c : Context) : List String := (keys c.types).map fun key => typeName key.toJson.display

/-- The type name for the reference that a node is stored under, which is the name of the node. -/
def rootName (c : Context) (i : NodeId) : String := typeName (c.graph.node i).name.display

/-- The kept shape of a stored choice. -/
def IsShape (c : Context) (t : NodeId) : Prop := ∃ r ∈ c.roots, variantOf c.graph r = .ok (some t)

variable {d : Document} {query : NodeId} {c : Context} {i r t : NodeId}

/-- An entry of the store: a node under the reference that is its name. -/
theorem Finished.filed (h : c.Finished d query) {e : Key × Option NodeId} (he : e ∈ c.types) :
    ∃ i s, e = (.text s, some i) ∧ (c.graph.node i).name = .str s := by
  obtain ⟨ref, i, hbuilt, hkey, hi⟩ := h.sound.exists_some he
  obtain ⟨⟨s, rfl, -⟩, -, -, hname, -⟩ := h.sound.built ref i hbuilt
  refine ⟨i, s, Prod.ext ?_ hi, hname⟩
  obtain ⟨key, found⟩ := e
  cases key <;> cases hkey
  rfl

theorem Finished.refNames_eq (h : c.Finished d query) : c.refNames = c.roots.map c.rootName := by
  have hall : ∀ entries : List (Key × Option NodeId), entries ⊆ c.types →
      ((keys entries).map fun key => typeName key.toJson.display) =
        ((values entries).filterMap id).map c.rootName := by
    intro entries hsub
    induction entries with
    | nil => rfl
    | cons e rest ih =>
      obtain ⟨he, hrest⟩ := List.cons_subset.1 hsub
      obtain ⟨i, s, rfl, hname⟩ := h.filed he
      have htail := ih hrest
      simp only [keys, values, List.map_cons, List.filterMap_cons, id_eq] at htail ⊢
      rw [htail, rootName, hname]
      rfl
  exact hall c.types (List.Subset.refl _)

/-- No node is stored twice. -/
theorem Finished.nodup_roots (h : c.Finished d query) : c.roots.Nodup := by
  have hall : ∀ entries : List (Key × Option NodeId), entries ⊆ c.types → Distinct (keys entries) →
      ((values entries).filterMap id).Nodup := by
    intro entries hsub hdistinct
    induction entries with
    | nil => exact List.nodup_nil
    | cons e rest ih =>
      obtain ⟨he, hrest⟩ := List.cons_subset.1 hsub
      obtain ⟨hfirst, hothers⟩ := List.pairwise_cons.1 hdistinct
      obtain ⟨i, s, rfl, hname⟩ := h.filed he
      have hnew : i ∉ (values rest).filterMap id := by
        intro hmem
        obtain ⟨found, hfound, hi⟩ := List.mem_filterMap.1 hmem
        obtain ⟨e', he', rfl⟩ := List.mem_map.1 hfound
        obtain ⟨j, s', rfl, hname'⟩ := h.filed (hrest he')
        obtain rfl : j = i := Option.some.inj hi
        obtain rfl : s = s' := Json.str.inj (hname.symm.trans hname')
        have hbeq := hfirst (.text s) (List.mem_map_of_mem he')
        simp at hbeq
      exact List.nodup_cons.2 ⟨hnew, ih hrest hothers⟩
  exact hall c.types (List.Subset.refl _) h.sound.distinct

/-- What is stored was visited and has a name, and is not the query object. -/
theorem Finished.root (h : c.Finished d query) (hr : r ∈ c.roots) :
    c.Visited r ∧ (c.graph.node r).name.isNull = false ∧ r ≠ query ∧
      (c.graph.node r).simpleName = .ok (some (c.rootName r)) := by
  obtain ⟨hvisited, s, hname, hne⟩ := Draft.stored_of_mem_roots h hr
  obtain ⟨found, hfound, hr⟩ := List.mem_filterMap.1 hr
  obtain ⟨e, he, rfl⟩ := List.mem_map.1 hfound
  obtain ⟨ref, i, hbuilt, -, hi⟩ := h.sound.exists_some he
  obtain ⟨-, -, hquery, -⟩ := h.sound.built ref i hbuilt
  obtain rfl : i = r := Option.some.inj (hi.symm.trans hr)
  refine ⟨hvisited, by rw [hname]; rfl, fun he => hquery (by rw [he]), ?_⟩
  simp [Node.simpleName, rootName, hname, hne, Json.display]

/-- A type that is given its name: a visited node with fields and without a name of its own, apart from
the query object. -/
structure Nameless (c : Context) (query t : NodeId) : Prop where
  anonymous : isAnonymous c.graph (some t) = true
  visited : c.Visited t
  ne_query : t ≠ query

theorem Finished.not_anonymous (h : c.Finished d query) (hr : r ∈ c.roots) :
    ¬isAnonymous c.graph (some r) = true := by
  intro hanonymous
  rw [isAnonymous_some, (h.root hr).2.1] at hanonymous
  cases hanonymous

end Context

theorem Drafting.exists_str_of_mapM {config : Config} {name : Json} {props : List NodeId}
    {fields : List Field} {D D' : Draft} (h : props.mapM (field config name) D = .ok fields D')
    (hprops : props ≠ []) : ∃ s, name = .str s := by
  cases props with
  | nil => exact absurd rfl hprops
  | cons i rest =>
    rw [List.mapM_cons] at h
    obtain ⟨f, D₁, hfield, -⟩ := bind_eq_ok_iff.1 h
    obtain ⟨-, -, -, ownerName, -, -, -, -, -, -, -, howner, -⟩ := field_cases hfield
    exact ⟨ownerName, howner⟩

theorem Graph.values_ne_nil {g : Graph} {i : NodeId} (h : g.hasFields i = true) :
    values (g.node i).props ≠ [] := by
  rcases body_of_hasFields h with hbody | ⟨parts, hbody⟩ <;>
    simpa [hasFields, hbody, values] using h

/-! ## Drafts without clashes -/

/-- The name of the query type, if it is a text. -/
def Config.queryNames (config : Config) : List String :=
  match config.queryType with
  | .str s => [s]
  | _ => []

namespace Draft

variable {config : Config} {d : Document} {query : NodeId} {c : Context} {D D' D'' : Draft}
  {i t : NodeId} {name : Json}

/-- The nodes whose types were written. -/
def nodes (D : Draft) : List NodeId := D.types.map TypeBlock.node

/-- What a type is written under: what its node is called, or the name of the query type. -/
def Titled (config : Config) (query : NodeId) (D : Draft) (i : NodeId) (name : Json) : Prop :=
  i ≠ query ∧ D.Calls i name ∨ i = query ∧ name = config.queryType

theorem Calls.exists_given (h : D.Calls i name) (hnull : (D.context.graph.node i).name.isNull = true) :
    ∃ s, name = .str s ∧ get? i D.inlineNames = some (some s) := by
  cases h with
  | own named =>
    rw [hnull] at named
    cases named
  | given _ hgiven => exact ⟨_, rfl, hgiven⟩

/-- Every name was given once, and every type was written once. The shapes of stored choices go by the
names of these; all other names that were given are none of those of the stored references and of the
query type. -/
structure Apart (config : Config) (c : Context) (query : NodeId) (D : Draft) : Prop where
  graph : D.context.graph = c.graph
  taken : c.refNames ++ config.queryNames ⊆ D.takenNames
  shapes : ∀ t, c.IsShape t → isAnonymous c.graph (some t) = true →
    ∃ s, get? t D.inlineNames = some (some s) ∧ Owes c c.roots t s
  given : ∀ t given, get? t D.inlineNames = some given → isAnonymous c.graph (some t) = true ∧
    (¬c.IsShape t → ∃ s, given = some s ∧ s ∈ D.takenNames ∧ s ∉ c.refNames ++ config.queryNames)
  unique : ∀ t t' s, ¬c.IsShape t → ¬c.IsShape t' → get? t D.inlineNames = some (some s) →
    get? t' D.inlineNames = some (some s) → t = t'
  line : D.pending.Nodup
  waiting : ∀ t ∈ D.pending, c.Nameless query t ∧ contains t D.inlineNames = true ∧ ¬c.IsShape t ∧
    t ∉ D.nodes
  once : D.nodes.Nodup
  titled : ∀ b ∈ D.types, c.graph.hasFields b.node = true ∧ (∃ s, b.name = .str s) ∧
    D.Titled config query b.node b.name
  variants : ∀ t ∈ D.nodes, c.IsShape t → isAnonymous c.graph (some t) = true → t ∈ D.writtenVariants

/-- A draft goes on: types may come into the line that had no name before, and types are written for the
nodes of a set and for nodes that were given their names. -/
structure Proceeds (c : Context) (query : NodeId) (W : NodeId → Prop) (D D' : Draft) : Prop where
  keeps : D.Extends D'
  line : ∀ t ∈ D'.pending, t ∈ D.pending ∨ contains t D.inlineNames = false ∧ c.Nameless query t
  written : ∀ t ∈ D'.nodes, t ∈ D.nodes ∨ W t ∨ c.Nameless query t
  variants : D.writtenVariants ⊆ D'.writtenVariants

theorem Titled.extends (h : D.Titled config query i name) (he : D.Extends D') :
    D'.Titled config query i name := h.imp_left fun ht => ⟨ht.1, ht.2.extends he⟩

theorem Extends.contains (h : D.Extends D') (ht : contains t D.inlineNames = true) :
    contains t D'.inlineNames = true := by
  obtain ⟨given, hgiven⟩ := Option.isSome_iff_exists.1 ht
  rw [OrderedMap.contains, h.names t given hgiven]
  rfl

section

variable {W W' : NodeId → Prop}

theorem Still.proceeds (h : D.Still D') : D.Proceeds c query W D' := by
  refine ⟨h.extends, fun t ht => ?_, fun t ht => ?_, h.variants ▸ List.Subset.refl _⟩
  · rw [h.pending] at ht
    exact .inl ht
  · rw [nodes, h.types] at ht
    exact .inl ht

theorem Proceeds.imp (h : D.Proceeds c query W D') (hW : ∀ t, W t → W' t) :
    D.Proceeds c query W' D' :=
  ⟨h.keeps, h.line, fun t ht => (h.written t ht).imp_right (Or.imp_left (hW t)), h.variants⟩

theorem Proceeds.trans (h : D.Proceeds c query W D') (h' : D'.Proceeds c query W D'') :
    D.Proceeds c query W D'' := by
  refine ⟨h.keeps.trans h'.keeps, fun t ht => ?_, fun t ht => ?_,
    List.Subset.trans h.variants h'.variants⟩
  · rcases h'.line t ht with ht | ⟨hfree, hnameless⟩
    · exact h.line t ht
    · refine .inr ⟨?_, hnameless⟩
      by_contra hcontains
      rw [h.keeps.contains (by simpa using hcontains)] at hfree
      cases hfree
  · rcases h'.written t ht with ht | ht
    · exact h.written t ht
    · exact .inr ht

/-- Nodes that were given their names need not be named. -/
theorem Proceeds.given (h : D.Proceeds c query W D') (hW : ∀ t, W t → c.Nameless query t) :
    D.Proceeds c query W' D' :=
  ⟨h.keeps, h.line, fun t ht => (h.written t ht).imp_right fun ht => .inr (ht.elim (hW t) id),
    h.variants⟩

/-- A node that is not in line does not come into it when it has a name. -/
theorem Proceeds.notMem_pending (h : D.Proceeds c query W D') (hout : t ∉ D.pending)
    (hheld : c.Nameless query t → OrderedMap.contains t D.inlineNames = true) : t ∉ D'.pending := by
  intro ht
  rcases h.line t ht with ht | ⟨hfree, hnameless⟩
  · exact hout ht
  · rw [hheld hnameless] at hfree
    cases hfree

/-- A stored node that was not written is written by nothing but its own turn. -/
theorem Proceeds.notMem_nodes {j : NodeId} (h : D.Proceeds c query (· = i) D') (hc : c.Finished d query)
    (hj : j ∈ c.roots) (hne : j ≠ i) (hnew : j ∉ D.nodes) : j ∉ D'.nodes := by
  intro hmem
  rcases h.written j hmem with hmem | he | hnameless
  · exact hnew hmem
  · exact hne he
  · exact hc.not_anonymous hj hnameless.anonymous

/-- The query object is written in no turn of a stored node. -/
theorem Proceeds.query_notMem_nodes (h : D.Proceeds c query (· ∈ c.roots) D') (hc : c.Finished d query)
    (hnew : query ∉ D.nodes) : query ∉ D'.nodes := by
  intro hmem
  rcases h.written query hmem with hmem | hroot | hnameless
  · exact hnew hmem
  · exact (hc.root hroot).2.2.1 rfl
  · exact hnameless.ne_query rfl

end

namespace Apart

theorem spelt (h : D.Apart config c query) : D.Spelt := by
  intro t given ht
  obtain ⟨hanonymous, hfree⟩ := h.given t given ht
  by_cases hshape : c.IsShape t
  · obtain ⟨s, hs, -⟩ := h.shapes t hshape hanonymous
    exact ⟨s, Option.some.inj (ht.symm.trans hs)⟩
  · obtain ⟨s, hs, -⟩ := hfree hshape
    exact ⟨s, hs⟩

theorem still (h : D.Apart config c query) (hs : D.Still D') : D'.Apart config c query := by
  have hnodes : D'.nodes = D.nodes := by rw [nodes, hs.types, nodes]
  refine ⟨hs.graph.trans h.graph, ?_, ?_, ?_, ?_, ?_, ?_, ?_, fun b hb => ?_, ?_⟩
  · rw [hs.taken]
    exact h.taken
  · rw [hs.names]
    exact h.shapes
  · rw [hs.names, hs.taken]
    exact h.given
  · rw [hs.names]
    exact h.unique
  · rw [hs.pending]
    exact h.line
  · rw [hs.pending, hs.names, hnodes]
    exact h.waiting
  · rw [hnodes]
    exact h.once
  · rw [hs.types] at hb
    obtain ⟨hfields, htext, htitled⟩ := h.titled b hb
    exact ⟨hfields, htext, htitled.extends hs.extends⟩
  · rw [hnodes, hs.variants]
    exact h.variants

/-- A type that was written and has no name of its own was given one. -/
theorem contains_of_mem_nodes (h : D.Apart config c query) (ht : t ∈ D.nodes)
    (hnameless : c.Nameless query t) : contains t D.inlineNames = true := by
  obtain ⟨b, hb, rfl⟩ := List.mem_map.1 ht
  rcases (h.titled b hb).2.2 with ⟨-, hcalls⟩ | ⟨hquery, -⟩
  · have hnull := hnameless.anonymous
    rw [isAnonymous_some, Bool.and_eq_true] at hnull
    obtain ⟨s, -, hgiven⟩ := hcalls.exists_given (by rw [h.graph]; exact hnull.1)
    simp [contains, hgiven]
  · exact absurd hquery hnameless.ne_query

/-! ### Fields -/

/-- A new name is none of those that were given before, and comes with a type that has none. -/
theorem nameInline (h : D.Apart config c query) {value : Option NodeId} {wanted : String}
    (hvalue : ∀ t, inlineTarget c.graph (c.graph.size + 2) value = .ok (some t) →
      c.Visited t ∧ t ≠ query)
    (hrun : Drafting.nameInline value wanted D = .ok () D') :
    D'.Apart config c query ∧ D.Proceeds c query (fun _ => False) D' := by
  have hkeeps := (gives_nameInline hrun).keeps
  rcases nameInline_cases hrun with ⟨rfl, -⟩ | ⟨i, htarget, hanonymous, hfree, rfl⟩
  · exact ⟨h, (Still.refl _).proceeds⟩
  rw [h.graph] at htarget hanonymous
  obtain ⟨hvisited, hne⟩ := hvalue i htarget
  have hnameless : c.Nameless query i := ⟨hanonymous, hvisited, hne⟩
  have hnone : get? i D.inlineNames = none := by simpa [contains] using hfree
  have hshape : ¬c.IsShape i := by
    intro hshape
    obtain ⟨s, hs, -⟩ := h.shapes i hshape hanonymous
    rw [hnone] at hs
    cases hs
  have hnew := freshName_notMem D.takenNames wanted
  have hother : ∀ {t}, t ≠ i → ∀ s, get? t (OrderedMap.insert i (some s) D.inlineNames) =
      get? t D.inlineNames := fun ht s => get?_insert_of_ne ht _ _
  -- a name that was given before is taken, and the new one is not
  have hold : ∀ t s, ¬c.IsShape t → get? t D.inlineNames = some (some s) → s ∈ D.takenNames := by
    intro t s ht hs
    obtain ⟨s', hs', htaken, -⟩ := (h.given t _ hs).2 ht
    rwa [Option.some.inj hs']
  refine ⟨⟨h.graph, fun s hs => List.mem_cons_of_mem _ (h.taken hs), fun t ht hanonymous => ?_,
    fun t given hgiven => ?_, fun t t' s ht ht' hs hs' => ?_, ?_, fun t ht => ?_, h.once,
    fun b hb => ?_, h.variants⟩, hkeeps, fun t ht => ?_, fun t ht => .inl ht,
    List.Subset.refl _⟩
  · obtain ⟨s, hs, howes⟩ := h.shapes t ht hanonymous
    exact ⟨s, hkeeps.names t _ hs, howes⟩
  · by_cases hti : t = i
    · subst hti
      dsimp only at hgiven
      rw [get?_insert_self] at hgiven
      cases hgiven
      exact ⟨hanonymous, fun _ => ⟨_, rfl, List.mem_cons_self, fun hmem => hnew (h.taken hmem)⟩⟩
    · rw [hother hti] at hgiven
      obtain ⟨hanonymous', hs⟩ := h.given t given hgiven
      refine ⟨hanonymous', fun ht => ?_⟩
      obtain ⟨s, hs, htaken, hfree⟩ := hs ht
      exact ⟨s, hs, List.mem_cons_of_mem _ htaken, hfree⟩
  · by_cases hti : t = i <;> by_cases hti' : t' = i
    · rw [hti, hti']
    · subst hti
      dsimp only at hs hs'
      rw [get?_insert_self] at hs
      cases hs
      rw [hother hti'] at hs'
      exact absurd (hold t' _ ht' hs') hnew
    · subst hti'
      dsimp only at hs hs'
      rw [get?_insert_self] at hs'
      cases hs'
      rw [hother hti] at hs
      exact absurd (hold t _ ht hs) hnew
    · rw [hother hti] at hs
      rw [hother hti'] at hs'
      exact h.unique t t' s ht ht' hs hs'
  · refine List.nodup_append.2 ⟨h.line, List.nodup_singleton i, ?_⟩
    intro t ht t' ht' he
    rw [he, List.mem_singleton.1 ht'] at ht
    rw [(h.waiting i ht).2.1] at hfree
    cases hfree
  · rcases List.mem_append.1 ht with ht | ht
    · obtain ⟨hwaiting, hcontains, hrest⟩ := h.waiting t ht
      exact ⟨hwaiting, hkeeps.contains hcontains, hrest⟩
    · obtain rfl := List.mem_singleton.1 ht
      refine ⟨hnameless, by simp [contains], hshape, fun hmem => ?_⟩
      rw [h.contains_of_mem_nodes hmem hnameless] at hfree
      cases hfree
  · obtain ⟨hfields, htext, htitled⟩ := h.titled b hb
    exact ⟨hfields, htext, htitled.extends hkeeps⟩
  · rcases List.mem_append.1 ht with ht | ht
    · exact .inl ht
    · rw [List.mem_singleton.1 ht]
      exact .inr ⟨hfree, hnameless⟩

/-- One more field was written. -/
theorem field (h : D.Apart config c query) (hc : c.Finished d query) (hi : c.Visited i) {f : Field}
    (hrun : Drafting.field config name i D = .ok f D') :
    D'.Apart config c query ∧ D.Proceeds c query (fun _ => False) D' := by
  obtain ⟨slot, arguments, link, ownerName, words, s, D₁, written, D₂, e, -, -, hinline, -, harguments,
    htype, -⟩ := field_cases hrun
  have hstill := ((quiet_arguments config arguments).of_ok harguments).trans
    ((quiet_typeExpr config _).of_ok htype)
  have hvalue : ∀ t, inlineTarget c.graph (c.graph.size + 2) (c.graph.node i).valueType? =
      .ok (some t) → c.Visited t ∧ t ≠ query := by
    intro t ht
    cases hvalue : (c.graph.node i).valueType? with
    | none =>
      rw [hvalue] at ht
      cases ht
    | some v =>
      rw [hvalue] at ht
      exact hc.visited_of_inlineTarget (hc.visited_of_valueType? hi hvalue) ht
  rw [h.graph] at hinline
  obtain ⟨h₁, hproceeds⟩ := h.nameInline hvalue hinline
  exact ⟨h₁.still hstill, hproceeds.trans hstill.proceeds⟩

/-- More fields were written. -/
theorem mapM_field (h : D.Apart config c query) (hc : c.Finished d query) {props : List NodeId}
    (hprops : ∀ i ∈ props, c.Visited i) {fields : List Field}
    (hrun : props.mapM (Drafting.field config name) D = .ok fields D') :
    D'.Apart config c query ∧ D.Proceeds c query (fun _ => False) D' := by
  induction props generalizing D fields with
  | nil =>
    rw [List.mapM_nil] at hrun
    cases hrun
    exact ⟨h, (Still.refl _).proceeds⟩
  | cons i rest ih =>
    rw [List.mapM_cons] at hrun
    obtain ⟨f, D₁, hone, hrun⟩ := bind_eq_ok_iff.1 hrun
    obtain ⟨others, D₂, hothers, hrun⟩ := bind_eq_ok_iff.1 hrun
    cases hrun
    obtain ⟨hi, hrest⟩ := List.forall_mem_cons.1 hprops
    obtain ⟨h₁, hproceeds⟩ := h.field hc hi hone
    obtain ⟨h₂, hproceeds'⟩ := ih h₁ hrest hothers
    exact ⟨h₂, hproceeds.trans hproceeds'⟩

/-! ### Types -/

/-- A type that was neither written nor in line is written, under what its node is called. -/
theorem writeType (h : D.Apart config c query) (hc : c.Finished d query) (hi : c.Visited i)
    (hfields : c.graph.hasFields i = true) (hout : i ∉ D.pending) (hnew : i ∉ D.nodes)
    (hheld : c.Nameless query i → contains i D.inlineNames = true)
    (htitled : D.Titled config query i name)
    (hshape : c.IsShape i → isAnonymous c.graph (some i) = true → i ∈ D.writtenVariants)
    (hrun : Drafting.writeType config i name (values (c.graph.node i).props) D = .ok () D') :
    D'.Apart config c query ∧ D.Proceeds c query (· = i) D' := by
  obtain ⟨fields, D₁, hmap, hrun⟩ := bind_eq_ok_iff.1 hrun
  obtain ⟨h₁, hproceeds⟩ := h.mapM_field hc (visited_of_props hc hi) hmap
  obtain ⟨-, -, -, htypes⟩ := declared_mapM hmap
  have hout₁ := hproceeds.notMem_pending hout hheld
  have htext := exists_str_of_mapM hmap (Graph.values_ne_nil hfields)
  cases hrun
  have hadd := extends_write D₁ ⟨i, name, fields⟩
  have hnodes₁ : D₁.nodes = D.nodes := by rw [nodes, htypes, nodes]
  have hnodes : nodes { D₁ with types := D₁.types ++ [⟨i, name, fields⟩] } = D.nodes ++ [i] := by
    simp [nodes, htypes]
  refine ⟨⟨h₁.graph, h₁.taken, h₁.shapes, h₁.given, h₁.unique, h₁.line, fun t ht => ?_, ?_, fun b hb => ?_,
    fun t ht hisShape hanonymous => ?_⟩, hproceeds.keeps.trans hadd, hproceeds.line, fun t ht => ?_,
    hproceeds.variants⟩
  · obtain ⟨hnameless, hcontains, hnot, hfree⟩ := h₁.waiting t ht
    refine ⟨hnameless, hcontains, hnot, fun hmem => ?_⟩
    rw [hnodes, List.mem_append, List.mem_singleton, ← hnodes₁] at hmem
    rcases hmem with hmem | rfl
    · exact hfree hmem
    · exact hout₁ ht
  · rw [hnodes]
    refine List.nodup_append.2 ⟨h.once, List.nodup_singleton i, fun t ht t' ht' he => ?_⟩
    rw [he, List.mem_singleton.1 ht'] at ht
    exact hnew ht
  · rcases List.mem_append.1 hb with hb | hb
    · obtain ⟨hfields', htext', htitled'⟩ := h₁.titled b hb
      exact ⟨hfields', htext', htitled'.extends hadd⟩
    · rw [List.mem_singleton.1 hb]
      exact ⟨hfields, htext, htitled.extends (hproceeds.keeps.trans hadd)⟩
  · rw [hnodes, List.mem_append, List.mem_singleton, ← hnodes₁] at ht
    rcases ht with ht | rfl
    · exact h₁.variants t ht hisShape hanonymous
    · exact hproceeds.variants (hshape hisShape hanonymous)
  · rw [hnodes, List.mem_append, List.mem_singleton] at ht
    exact ht.imp_right .inl

/-- The type of an object or composition is written, if it has fields. -/
theorem writeObject (h : D.Apart config c query) (hc : c.Finished d query) (hi : c.Visited i)
    (hbody : (c.graph.node i).body = .object ∨ ∃ parts, (c.graph.node i).body = .composed .allOf parts)
    (hout : i ∉ D.pending) (hnew : i ∉ D.nodes) (hne : i ≠ query)
    (hheld : isAnonymous c.graph (some i) = true → contains i D.inlineNames = true)
    (hshape : c.IsShape i → isAnonymous c.graph (some i) = true → i ∈ D.writtenVariants)
    (hrun : Drafting.writeObject config i D = .ok () D') :
    D'.Apart config c query ∧ D.Proceeds c query (· = i) D' := by
  rcases writeObject_cases h.graph hbody hrun with ⟨-, rfl⟩ | ⟨hfields, name, D₂, hname, hrun⟩
  · exact ⟨h, (Still.refl _).proceeds⟩
  · have hstill := (quiet_typeName config i).of_ok hname
    have hknows : D.Knows i := by
      rw [Knows, h.graph]
      cases hnull : (c.graph.node i).name.isNull with
      | false => exact .inl rfl
      | true => exact .inr (hheld (by rw [isAnonymous_some, hnull, hfields]; rfl))
    obtain ⟨-, hcalls, -⟩ := (typeName_cases h.spelt hname).resolve_right fun hnot => hnot.1 hknows
    have hnodes : D₂.nodes = D.nodes := by rw [nodes, hstill.types, nodes]
    obtain ⟨h', hproceeds⟩ := (h.still hstill).writeType hc hi hfields
      (by rwa [hstill.pending]) (by rwa [hnodes])
      (fun hnameless => by rw [hstill.names]; exact hheld hnameless.anonymous)
      (.inl ⟨hne, hcalls.extends hstill.extends⟩) (by rwa [hstill.variants]) hrun
    exact ⟨h', hstill.proceeds.trans hproceeds⟩

/-- One more shape is marked as written. -/
theorem mark (h : D.Apart config c query) (v : NodeId) :
    Apart config c query { D with writtenVariants := D.writtenVariants ++ [v] } :=
  ⟨h.graph, h.taken, h.shapes, h.given, h.unique, h.line, h.waiting, h.once,
    fun b hb => ⟨(h.titled b hb).1, (h.titled b hb).2.1, (h.titled b hb).2.2.extends (extends_mark D v)⟩,
    fun t ht hshape hanonymous => List.mem_append_left _ (h.variants t ht hshape hanonymous)⟩

/-- A choice is written as its shape, which was given a name before. -/
theorem writeVariant (h : D.Apart config c query) (hc : c.Finished d query) (hi : i ∈ c.roots)
    {variant : Option NodeId} (hvariant : variantOf c.graph i = .ok variant)
    (hrun : Drafting.writeVariant config i variant D = .ok () D') :
    D'.Apart config c query ∧ D.Proceeds c query (fun _ => False) D' := by
  have hknown : D.Known c i := by
    intro t ht hanonymous
    obtain ⟨s, hs, -⟩ := h.shapes t ⟨i, hi, ht⟩ hanonymous
    simp [contains, hs]
  rcases writeVariant_cases h.graph hvariant (fun t ht => hknown t (ht ▸ hvariant)) hrun with
    ⟨rfl, -⟩ | ⟨v, D₁, D₂, rfl, hanonymous, hnew, hin, hwrite, hout⟩
  · exact ⟨h, (Still.refl _).proceeds⟩
  · have hshape : c.IsShape v := ⟨i, hi, hvariant⟩
    obtain ⟨hvisited, hne⟩ := hc.visited_of_variantOf (hc.root hi).1 hvariant
    have hfields : c.graph.hasFields v = true := by
      rw [isAnonymous_some, Bool.and_eq_true] at hanonymous
      exact hanonymous.2
    have hmark : D.Proceeds c query (fun _ => False)
        { D with writtenVariants := D.writtenVariants ++ [v] } :=
      ⟨extends_mark D v, fun t ht => .inl ht, fun t ht => .inl ht, List.subset_append_left _ _⟩
    obtain ⟨h', hproceeds⟩ := ((h.mark v).still hin.still).writeObject hc hvisited
      (Graph.body_of_hasFields hfields)
      (by rw [hin.still.pending]; exact fun hv => (h.waiting v hv).2.2.1 hshape)
      (by rw [nodes, hin.still.types]; exact fun hv => hnew (h.variants v hv hshape hanonymous))
      hne
      (fun _ => by rw [hin.still.names]; exact hknown v hvariant hanonymous)
      (fun _ _ => by rw [hin.still.variants]; simp) hwrite
    have hwritten : ∀ t, t = v → c.Nameless query t := by
      rintro t rfl
      exact ⟨hanonymous, hvisited, hne⟩
    exact ⟨h'.still hout.still, hmark.trans (hin.still.proceeds.trans
      ((hproceeds.given hwritten).trans hout.still.proceeds))⟩

/-- The definition of a node is written, if it has one: a stored node, or one that was given its name. -/
theorem generate (h : D.Apart config c query) (hc : c.Finished d query) (hi : c.Visited i)
    (hplace : i ∈ c.roots ∨ c.Nameless query i ∧ contains i D.inlineNames = true ∧ ¬c.IsShape i)
    (hout : i ∉ D.pending) (hnew : i ∉ D.nodes) (hrun : Drafting.generate config i D = .ok () D') :
    D'.Apart config c query ∧ D.Proceeds c query (· = i) D' := by
  obtain ⟨D₁, D₂, hin, hout', hcases⟩ := generate_cases h.graph hrun
  have h₁ := h.still hin.still
  suffices hdone : D₂.Apart config c query ∧ D₁.Proceeds c query (· = i) D₂ from
    ⟨hdone.1.still hout'.still, hin.still.proceeds.trans (hdone.2.trans hout'.still.proceeds)⟩
  have hne : i ≠ query := hplace.elim (fun hroot => (hc.root hroot).2.2.1) fun hinline => hinline.1.ne_query
  rcases hcases with ⟨hbody, hwrite⟩ | ⟨hplain, variant, hvariant, hwrite⟩
  · refine h₁.writeObject hc hi hbody (by rwa [hin.still.pending])
      (by rwa [nodes, hin.still.types]) hne (fun hanonymous => ?_) (fun hshape hanonymous => ?_) hwrite
    · rcases hplace with hroot | ⟨-, hcontains, -⟩
      · exact absurd hanonymous (hc.not_anonymous hroot)
      · rwa [hin.still.names]
    · rcases hplace with hroot | ⟨-, -, hnot⟩
      · exact absurd hanonymous (hc.not_anonymous hroot)
      · exact absurd hshape hnot
  · rcases hplace with hroot | ⟨⟨hanonymous, -, -⟩, -⟩
    · obtain ⟨h', hproceeds⟩ := h₁.writeVariant hc hroot hvariant hwrite
      exact ⟨h', hproceeds.imp fun _ => False.elim⟩
    · rw [isAnonymous_some, hplain, Bool.and_false] at hanonymous
      cases hanonymous

/-! ### The line -/

/-- The first type in the line is written, which was given its name. -/
theorem next {rest : List NodeId} (h : D.Apart config c query) (hc : c.Finished d query)
    (hpending : D.pending = i :: rest)
    (hrun : Drafting.generate config i { D with pending := rest } = .ok () D') :
    D'.Apart config c query ∧ D.Proceeds c query (fun _ => False) D' := by
  obtain ⟨hnameless, hcontains, hnot, hnew⟩ := h.waiting i (by rw [hpending]; exact List.mem_cons_self)
  have hline := h.line
  rw [hpending, List.nodup_cons] at hline
  have hrest : rest ⊆ D.pending := by
    rw [hpending]
    exact List.subset_cons_self _ _
  have hpop : Apart config c query { D with pending := rest } :=
    ⟨h.graph, h.taken, h.shapes, h.given, h.unique, hline.2, fun t ht => h.waiting t (hrest ht), h.once,
      fun b hb => ⟨(h.titled b hb).1, (h.titled b hb).2.1,
        (h.titled b hb).2.2.extends ⟨rfl, fun _ _ => id, List.prefix_refl _, id⟩⟩, h.variants⟩
  have hproceeds : D.Proceeds c query (fun _ => False) { D with pending := rest } :=
    ⟨⟨rfl, fun _ _ => id, List.prefix_refl _, id⟩, fun t ht => .inl (hrest ht), fun t ht => .inl ht,
      List.Subset.refl _⟩
  obtain ⟨h', hproceeds'⟩ := hpop.generate hc hnameless.visited (.inr ⟨hnameless, hcontains, hnot⟩)
    hline.1 hnew hrun
  refine ⟨h', hproceeds.trans (hproceeds'.given ?_)⟩
  rintro t rfl
  exact hnameless

/-- The types in the line are written, all of which were given their names. -/
theorem flush (h : D.Apart config c query) (hc : c.Finished d query)
    (hrun : Drafting.flush config D = .ok () D') :
    D'.Apart config c query ∧ D.Proceeds c query (fun _ => False) D' := by
  refine (flush_induction (P := fun E => E.Apart config c query ∧ D.Proceeds c query (fun _ => False) E) ?_
    ⟨h, (Still.refl D).proceeds⟩ hrun).1
  rintro E t rest E' ⟨hE, hproceeds⟩ hline hgenerate
  obtain ⟨hE', hproceeds'⟩ := hE.next hc hline hgenerate
  exact ⟨hE', hproceeds.trans hproceeds'⟩

/-- A stored node is written, followed by the types that its fields named. -/
theorem writeRoot {D₁ : Draft} (h : D.Apart config c query) (hc : c.Finished d query) (hi : i ∈ c.roots)
    (hnew : i ∉ D.nodes) (hgenerate : Drafting.generate config i D = .ok () D₁)
    (hflush : Drafting.flush config D₁ = .ok () D') :
    D'.Apart config c query ∧ D.Proceeds c query (· = i) D' := by
  obtain ⟨h₁, hproceeds⟩ := h.generate hc (hc.root hi).1 (.inl hi)
    (fun hmem => hc.not_anonymous hi (h.waiting i hmem).1.anonymous) hnew hgenerate
  obtain ⟨h', hproceeds'⟩ := h₁.flush hc hflush
  exact ⟨h', hproceeds.trans (hproceeds'.imp fun _ => False.elim)⟩

/-- Stored nodes are written one by one, each followed by the types that its fields named. -/
theorem writeRoots {rest : List NodeId} (h : D.Apart config c query) (hc : c.Finished d query)
    (hroots : ∀ i ∈ rest, i ∈ c.roots) (hnodup : rest.Nodup) (hnew : ∀ i ∈ rest, i ∉ D.nodes)
    (hrun : (rest.forM fun i => do
      Drafting.generate config i
      Drafting.flush config : Drafting Unit) D = .ok () D') :
    D'.Apart config c query ∧ D.Proceeds c query (· ∈ c.roots) D' := by
  induction rest generalizing D with
  | nil =>
    cases hrun
    exact ⟨h, (Still.refl _).proceeds⟩
  | cons i rest ih =>
    obtain ⟨u, D₂, hone, hrest⟩ := bind_eq_ok_iff.1 hrun
    obtain ⟨u, D₁, hgenerate, hflush⟩ := bind_eq_ok_iff.1 hone
    obtain ⟨hi, hothers⟩ := List.forall_mem_cons.1 hroots
    obtain ⟨hi', hothers'⟩ := List.forall_mem_cons.1 hnew
    obtain ⟨hfirst, hnodup⟩ := List.nodup_cons.1 hnodup
    obtain ⟨h₂, hboth⟩ := h.writeRoot hc hi hi' hgenerate hflush
    obtain ⟨h', hlast⟩ := ih h₂ hothers hnodup (fun j hj =>
      hboth.notMem_nodes hc (hothers j hj) (fun he => hfirst (he ▸ hj)) (hothers' j hj)) hrest
    exact ⟨h', (hboth.imp fun t ht => ht ▸ hi).trans hlast⟩

/-- The query type is written under its own name. -/
theorem writeQuery (h : D.Apart config c query) (hc : c.Finished d query)
    (hfields : c.graph.hasFields query = true) (hnew : query ∉ D.nodes)
    (hrun : Drafting.writeType config query config.queryType (values (c.graph.node query).props) D =
      .ok () D') : D'.Apart config c query := by
  have hshapeless : ¬c.IsShape query := by
    rintro ⟨r, hr, hvariant⟩
    exact (hc.visited_of_variantOf (hc.root hr).1 hvariant).2 rfl
  exact (h.writeType hc hc.visited hfields (fun hmem => (h.waiting query hmem).1.ne_query rfl) hnew
    (fun hnameless => absurd rfl hnameless.ne_query) (.inr ⟨rfl, rfl⟩)
    (fun hshape _ => absurd hshape hshapeless) hrun).1

end Apart

end Draft

end ApiGraph
