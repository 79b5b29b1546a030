import ApiGraph.Proofs.Choosing.Runs
import ApiGraph.Proofs.Declaring.Queries
import ApiGraph.Proofs.Declaring.Spellings
import ApiGraph.Proofs.Depicting.Merging
import ApiGraph.Proofs.Drafting.Documents
import ApiGraph.Proofs.Selecting.Braces
import Mathlib.Data.List.Chain

/-!
# Fields that are selected and declared

A selection and the definitions of a document are made in two runs, and spell the name of a property each
in its own way.

* `Graph.Selects.named`, `Graph.Selects.chain` — a line of a selection spells the name of the property
  that it is for, which belongs to the type in whose braces it stands;
* `Selecting.Answered` — between two operations that were wanted, the lines so far are those of their
  fields;
* `Field.Meets` — a field of the definitions declares the property of a line;
* `Context.Defined` — the graph of the definitions and the types that were written for it;
* `Context.Exact.exists_same`, `Context.Defined.exists_sameField` — a type that was written has a field for
  each property of a type that depicts the same;
* `Conversion.fieldName_of_selected` — the lines and fields of two runs over a document.
-/

namespace ApiGraph

open OrderedMap Context SelectionLine

/-! ## Lines -/

/-- The property that a line is for, and how it is spelt. The end of a selection is for none. -/
def SelectionLine.field? : SelectionLine → Option (NodeId × String)
  | .leaf p _ name => some (p, name)
  | .opening p _ name => some (p, name)
  | .closing _ _ => none

/-- A line spells the name of the property that it is for. -/
theorem Graph.Selects.named {g : Graph} {stack : List (Option NodeId)} {task : SelectionTask}
    {ls : List SelectionLine} (h : g.Selects stack task ls) :
    ∀ line ∈ ls, ∀ p written, line.field? = some (p, written) →
      ∃ s, (g.node p).name = .str s ∧ written = selectedName s := by
  have hnamed : ∀ {p written}, Selecting.nameOf (g.node p) = .ok written →
      ∃ s, (g.node p).name = .str s ∧ written = selectedName s := Selecting.eq_of_nameOf
  induction h with
  | leaf plain name_eq =>
    intro line hline p written hfield
    rw [List.mem_singleton.1 hline] at hfield
    cases hfield
    exact hnamed name_eq
  | braces compound target outside name_eq value ih =>
    intro line hline p written hfield
    rcases List.mem_cons.1 hline with rfl | hline
    · cases hfield
      exact hnamed name_eq
    · rcases List.mem_append.1 hline with hline | hline
      · exact ih line hline p written hfield
      · rw [List.mem_singleton.1 hline] at hfield
        cases hfield
  | cons field fields ih ih' =>
    intro line hline
    rcases List.mem_append.1 hline with hline | hline
    · exact ih line hline
    · exact ih' line hline
  | property target property field ih => exact ih
  | choice target body outside union variant ih => exact ih
  | members target body outside fields ih => exact ih
  | skipped | inside | nothing | nil => simp

/-- What is selected outside of braces: a property, some properties, or those of the type that a value
leads to. -/
def SelectionTask.Offers (g : Graph) : SelectionTask → NodeId → Prop
  | .field p, j => j = p
  | .fields ps, j => j ∈ ps
  | .value v, j => ∀ t, g.Unwraps v t → g.hasFields t = true → j ∈ values (g.node t).props

/-- A property belongs to the type that the value of another one leads to. -/
def Graph.Nests (g : Graph) (q p : NodeId) : Prop :=
  ∃ t, g.Unwraps (g.node q).valueType? t ∧ g.hasFields t = true ∧ p ∈ values (g.node t).props

/-- The property of a line belongs to the type in whose braces the line stands, so does the one of these
braces, and the outermost of them is selected outside of braces. -/
theorem Graph.Selects.chain {g : Graph} {stack : List (Option NodeId)} {task : SelectionTask}
    {ls before after : List SelectionLine} {line : SelectionLine} {p : NodeId} {written : String}
    (h : g.Selects stack task ls) (hls : ls = before ++ line :: after)
    (hline : line.field? = some (p, written)) (outer : List NodeId) :
    ∃ inner, around outer before = inner ++ outer ∧ (p :: inner).IsChain (fun p q => g.Nests q p) ∧
      task.Offers g ((p :: inner).getLast (List.cons_ne_nil _ _)) := by
  induction h generalizing before after outer with
  | skipped | inside | nothing | nil => simp at hls
  | leaf =>
    rcases List.cons_eq_append_iff.1 hls with ⟨rfl, hfirst⟩ | ⟨before', -, hrest⟩
    · cases hfirst
      cases hline
      exact ⟨[], rfl, .singleton p, rfl⟩
    · simp at hrest
  | @braces stack i t name inner compound target outside _ value ih =>
    rcases List.cons_eq_append_iff.1 hls with ⟨rfl, hfirst⟩ | ⟨before, rfl, hinside⟩
    · cases hfirst
      cases hline
      exact ⟨[], rfl, .singleton p, rfl⟩
    · rcases exists_of_append_eq hinside with ⟨after', hinner, -⟩ | ⟨before', -, hclosing⟩
      · obtain ⟨nested, haround, hchain, hoffers⟩ := ih hinner (i :: outer)
        obtain ⟨t', ht', hfields⟩ := compound
        refine ⟨nested ++ [i], haround.trans (by simp), ?_, by simp [SelectionTask.Offers]⟩
        refine hchain.append (.singleton i) fun q hq r hr => ?_
        rw [List.getLast?_eq_some_getLast (List.cons_ne_nil _ _)] at hq
        cases hq
        cases hr
        exact ⟨t', ht', hfields, hoffers t' ht' hfields⟩
      · -- the closing line is for no property
        rcases List.cons_eq_append_iff.1 hclosing with ⟨-, hlast⟩ | ⟨before'', -, hrest⟩
        · cases hlast
          cases hline
        · simp at hrest
  | property target property _ ih =>
    obtain ⟨inner, haround, hchain, hoffers⟩ := ih hls outer
    refine ⟨inner, haround, hchain, fun t ht hfields => ?_⟩
    exact absurd property (ht.not_isField hfields (isChoice_of_hasFields hfields) target)
  | choice target body _ union _ ih =>
    obtain ⟨inner, haround, hchain, hoffers⟩ := ih hls outer
    refine ⟨inner, haround, hchain, fun t ht hfields => ?_⟩
    exact hoffers t (ht.of_choice (isChoice_of_hasFields hfields) target body union) hfields
  | members target body _ _ ih =>
    obtain ⟨inner, haround, hchain, hoffers⟩ := ih hls outer
    refine ⟨inner, haround, hchain, fun t ht hfields => ?_⟩
    rwa [← ht.eq_of_members (isChoice_of_hasFields hfields) target body]
  | @cons stack i ps ls more field _ ih ih' =>
    rcases exists_of_append_eq hls with ⟨after', hfirst, -⟩ | ⟨before, rfl, hmore⟩
    · obtain ⟨inner, haround, hchain, hoffers⟩ := ih hfirst outer
      exact ⟨inner, haround, hchain, List.mem_cons.2 (.inl hoffers)⟩
    · rw [around_append, field.nested.around_eq]
      obtain ⟨inner, haround, hchain, hoffers⟩ := ih' hmore outer
      exact ⟨inner, haround, hchain, List.mem_cons_of_mem _ hoffers⟩

/-! ## Selections -/

namespace Selecting

variable {d : Document} {query : NodeId} {s s' : SelectionDraft} {op : Operation}
  {ops operations : List Operation} {fields : List NodeId}

/-- Between two operations that were all wanted, the lines so far are those of their fields. -/
structure Answered (d : Document) (query : NodeId) (s : SelectionDraft) (ops : List Operation)
    (fields : List NodeId) : Prop where
  resting : Resting d query (fun _ => .yes) s
  served : List.Forall₂ (fun op p => s.context.Served query op p) ops fields
  lines : s.context.graph.Selects [] (.fields fields) s.lines

namespace Answered

/-- One more operation adds its field. -/
theorem selectOperation (h : Answered d query s ops fields) (hd : d.Layered)
    (hselect : Conversion.selectOperation d query op s = .ok () s') :
    ∃ p, Answered d query s' (ops ++ [op]) (fields ++ [p]) := by
  obtain ⟨hresting, p, ls, hselected⟩ := h.resting.selected hd rfl hselect
  obtain ⟨A, hrest⟩ := h.resting.between.rest
  have hvisited : ∀ q ∈ fields, s.context.Visited q := by
    intro q hq
    obtain ⟨op, -, hserved⟩ := exists_of_forall₂_left h.served.flip hq
    exact hserved.visited
  have hone := Graph.Selects.cons hselected.selects Graph.Selects.nil
  rw [List.append_nil] at hone
  refine ⟨p, hresting, List.rel_append ?_ (.cons hselected.served .nil), ?_⟩
  · exact h.served.imp fun op q hq => hq.outlived h.resting.between hselected.outlives
  · rw [hselected.lines]
    exact (h.lines.spares hrest.whole hselected.outlives.spares hvisited).append hone

theorem selectEach (h : Answered d query s ops fields) (hd : d.Layered)
    (hselect : (operations.forM (Conversion.selectOperation d query) : Selecting Unit) s = .ok () s') :
    ∃ fields', Answered d query s' (ops ++ operations) fields' := by
  induction operations generalizing s ops fields with
  | nil =>
    cases hselect
    exact ⟨fields, by rwa [List.append_nil]⟩
  | cons op rest ih =>
    obtain ⟨u, s₁, hop, hrest⟩ := bind_eq_ok_iff.1 hselect
    obtain ⟨p, h₁⟩ := h.selectOperation hd hop
    obtain ⟨fields', h'⟩ := ih h₁ hrest
    exact ⟨fields', by rwa [List.append_assoc] at h'⟩

end Answered

end Selecting

/-- Under an oracle that agrees to everything, the lines of a layered document are those of the fields of all
its operations. -/
theorem Conversion.answered_selection {d : Document} {config : Config} {lines : List SelectionLine}
    {c : Context} (hd : d.Layered) (h : selection d config (start Oracle.always) = .ok lines c) :
    ∃ query ops fields A, wantedOperations d config = .ok ops ∧ c.Exact A d ∧
      List.Forall₂ (fun op p => c.Served query op p) ops fields ∧
      c.graph.Selects [] (.fields fields) lines := by
  obtain ⟨query, c₀, ops, s, hnew, hwanted, heach, rfl, rfl⟩ := exists_selectEach h
  have hstart : Selecting.Answered d query { context := c₀ } [] [] :=
    ⟨resting_newQuery (fun _ => rfl) hnew, .nil, .nil⟩
  obtain ⟨fields, hend⟩ := hstart.selectEach hd heach
  obtain ⟨A, hrest⟩ := hend.resting.between.rest
  exact ⟨query, ops, fields, A, hwanted, ⟨hrest.whole, hend.resting.between.faithful⟩, hend.served,
    hend.lines⟩

/-! ## Definitions -/

/-- A field is spelt as a line spells it, with an underscore in front if the name of the property is
marked. -/
def Field.SpeltAs (f : Field) (s written : String) : Prop :=
  (¬IsMarked s → f.name = written) ∧ (IsMarked s → f.name = "_" ++ written)

/-- A field of the definitions declares the property of a line, under the name that the line has for it. -/
structure Field.Meets (c c' : Context) (p : NodeId) (written : String) (f : Field) : Prop where
  same : c.SameProperty c' p f.node
  spelt : ∃ s, (c.graph.node p).name = .str s ∧ f.SpeltAs s written

/-- The type that the value of a field leads to has no name, and the field speaks of the scalar for values of
any form in its stead. -/
def Field.Nameless (config : Config) (c : Context) (types : List TypeBlock) (f : Field) : Prop :=
  f.type.innermost = config.jsonScalar ∧
    ∃ t, c.graph.Unwraps (c.graph.node f.node).valueType? t ∧ c.graph.hasFields t = true ∧
      ¬c.Named (TypeBlock.allFields types) t

/-- A name that is spelt as it is has no at sign in front. -/
theorem not_isMarked_of_fieldName_eq {s : String} (h : fieldName s = s) : ¬IsMarked s := by
  rintro ⟨c, rest, hs, -⟩
  have hlegal := isNameChar_of_isLegalName (Sdl.mem_name_iff.1 (fieldName_mem_name s))
  rw [h] at hlegal
  rw [characters_of_isNameChar hlegal] at hs
  exact absurd (hlegal '@' (by simp [hs])) (by decide)

theorem Context.SameProperty.isProperty {c c' : Context} {p p' : NodeId} {s : String}
    (h : c.SameProperty c' p p') (hname : (c.graph.node p).name = .str s) :
    (c'.graph.node p').IsProperty s :=
  ⟨h.name.symm.trans hname, h.alike.isField_iff.1 h.field⟩

theorem Field.Declared.speltAs {config : Config} {g : Graph} {called : NodeId → Json → Prop} {f : Field}
    {s : String} (h : f.Declared config g called) (hproperty : (g.node f.node).IsProperty s) :
    f.SpeltAs s (selectedName s) := by
  obtain ⟨t, ht, hwritten⟩ := h.name
  obtain rfl : s = t := Json.str.inj (hproperty.1.symm.trans ht.1)
  rw [Field.SpeltAs, hwritten]
  exact ⟨fieldName_eq_selectedName, fieldName_eq_append⟩

theorem Context.Named.mono {c : Context} {fs fs' : List Field} {t : NodeId} (h : c.Named fs t)
    (hsub : fs ⊆ fs') : c.Named fs' t :=
  h.imp_right (Or.imp_right fun ⟨f, hf, hreaches⟩ => ⟨f, hsub hf, hreaches⟩)

namespace Context.Exact

variable {A A' : NodeId → Prop} {d : Document} {c c' : Context} {p q t : NodeId} {b : TypeBlock}
  {config : Config} {called : NodeId → Json → Prop} (h : c.Exact A d) (h' : c'.Exact A' d)

include h h'

/-- A type that declares the properties of its node has a field for each property of a type that depicts
the same. -/
theorem exists_same (hb : b.Declared config c'.graph called) (ht : c.Twinned c' t b.node)
    (hp : p ∈ values (c.graph.node t).props) : ∃ f ∈ b.fields, c.SameProperty c' p f.node := by
  have haligned := (h.aligned_properties h' ht.1).forall₂_values
  rw [← hb.listed, List.forall₂_map_right_iff] at haligned
  exact exists_of_forall₂_left haligned hp

/-- A property that belongs to the type that one value leads to is to be found where the value of the same
property leads to. -/
theorem exists_twin {q' : NodeId} (hq : c.SameProperty c' q q') (hp : c.graph.Nests q p) :
    ∃ t t', c'.graph.Unwraps (c'.graph.node q').valueType? t' ∧ c'.graph.hasFields t' = true ∧
      c.Twinned c' t t' ∧ p ∈ values (c.graph.node t).props := by
  obtain ⟨t, ht, hfields, hp⟩ := hp
  have hreflects := h.reflects h'
  obtain ⟨t', ht', htwinned⟩ := hreflects.exists_unwraps (h.sameField h' hq).value ht
  exact ⟨t, t', ht', hreflects.hasFields htwinned ▸ hfields, htwinned, hp⟩

end Context.Exact

/-! ## Definitions of a finished graph -/

/-- The types that were written of a finished graph: the query type and every type that has a name, each with
the properties of its node. -/
structure Context.Defined (d : Document) (config : Config) (query : NodeId) (c : Context)
    (types : List TypeBlock) : Prop where
  finished : c.Finished d query
  declared : ∀ b ∈ types, b.Declared config c.graph (TypeBlock.Defines types)
  rendered : ∀ before f after, TypeBlock.allFields types = before ++ f :: after →
    f.Rendered config c.graph (c.Named (before ++ [f])) (TypeBlock.Defines types)
  query : (c.graph.node query).props ≠ [] → ∃ b ∈ types, b.node = query ∧ b.name = config.queryType
  written : ∀ t, c.graph.hasFields t = true → c.Named (TypeBlock.allFields types) t →
    ∃ b ∈ types, b.node = t

/-- The definitions of a document are written of the graph after all visits. -/
theorem Conversion.defined_definitions {d : Document} {config : Config} {oracle : Oracle}
    {defs : Definitions} {c' : Context} (h : definitions d config (start oracle) = .ok defs c') :
    ∃ query c, visitAll d config (start oracle) = .ok query c ∧ c'.graph = c.graph ∧
      c.Defined d config query defs.types := by
  obtain ⟨query, c, D, hvisit, hfinished, hrun, rfl⟩ := exists_draft_of_definitions h
  have hD := (Drafting.complete_definitions hfinished hrun).1
  have htypes := Drafting.types_of_definitions hrun
  have hquery : (c.graph.node query).props ≠ [] →
      ∃ b ∈ defs.types, b.node = query ∧ b.name = config.queryType := by
    rw [htypes]
    exact Drafting.exists_queryBlock hrun rfl
  refine ⟨query, c, hvisit, hD.consistent.graph, hfinished,
    Drafting.declared_of_definitions hfinished hrun, ?_, hquery, ?_⟩
  · rw [htypes]
    exact fun _ _ _ => hD.rendered hfinished
  · intro t hfields hnamed
    by_cases ht : t = query
    · obtain ⟨b, hb, hnode, -⟩ := hquery ((Draft.hasFields_query_iff hfinished).1 (ht ▸ hfields))
      exact ⟨b, hb, hnode.trans ht.symm⟩
    · rw [htypes] at hnamed ⊢
      obtain ⟨b, hb, hnode, -⟩ := hD.written t ht hfields ((hD.consistent.knows_iff hfields).2 hnamed)
      exact ⟨b, hb, hnode⟩

namespace Context.Defined

variable {A A' : NodeId → Prop} {d : Document} {config : Config} {query p t : NodeId} {c c' : Context}
  {types : List TypeBlock} {inner : List NodeId}

/-- A property is declared, if those that it is nested in are, or one of these speaks of the scalar for
values of any form where its type has no name. -/
theorem declared_or_nameless (hdefined : c'.Defined d config query types) (h : c.Exact A d)
    (h' : c'.Exact A' d) (hchain : (p :: inner).IsChain fun p q => c.graph.Nests q p)
    (hlast : ∃ b ∈ types, ∃ f ∈ b.fields,
      c.SameProperty c' ((p :: inner).getLast (List.cons_ne_nil _ _)) f.node) :
    (∃ b ∈ types, ∃ f ∈ b.fields, c.SameProperty c' p f.node) ∨
      ∃ q ∈ inner, ∃ b ∈ types, ∃ f ∈ b.fields, c.SameProperty c' q f.node ∧
        f.Nameless config c' types := by
  induction inner generalizing p with
  | nil => exact .inl hlast
  | cons q rest ih =>
    obtain ⟨hnests, hrest⟩ := List.isChain_cons_cons.1 hchain
    rcases ih hrest (by simpa using hlast) with ⟨b, hb, f, hf, hq⟩ | ⟨r, hr, hnameless⟩
    · obtain ⟨t, t', ht', hfields, htwinned, hp⟩ := h.exists_twin h' hq hnests
      by_cases hnamed : c'.Named (TypeBlock.allFields types) t'
      · obtain ⟨b', hb', rfl⟩ := hdefined.written t' hfields hnamed
        exact .inl ⟨b', hb', h.exists_same h' (hdefined.declared b' hb') htwinned hp⟩
      · obtain ⟨before, after, hsplit⟩ := TypeBlock.exists_split hb hf
        have hstands := (hdefined.rendered before f after hsplit).type.of_unwraps ht' hfields
        have hsub : before ++ [f] ⊆ TypeBlock.allFields types := by
          rw [hsplit, List.append_cons before f after]
          exact List.subset_append_left _ _
        have hnot : ¬c'.Named (before ++ [f]) t' := fun hbefore => hnamed (hbefore.mono hsub)
        exact .inr ⟨q, List.mem_cons_self, b, hb, f, hf, hq, hstands.2 hnot, t', ht', hfields, hnamed⟩
    · exact .inr ⟨r, List.mem_cons_of_mem q hr, hnameless⟩

/-- A field that declares the property of a line has the name that the line has for it. -/
theorem meets (hdefined : c'.Defined d config query types) {s : String} {b : TypeBlock} {f : Field}
    (hname : (c.graph.node p).name = .str s) (hb : b ∈ types) (hf : f ∈ b.fields)
    (hsame : c.SameProperty c' p f.node) : f.Meets c c' p (selectedName s) :=
  ⟨hsame, s, hname, ((hdefined.declared b hb).fields f hf).speltAs (hsame.isProperty hname)⟩

variable {ops : List Operation} {names : List String} {op : Operation} {selecting : NodeId}

/-- The query type has a field of the name of each operation. -/
theorem exists_queryField (hdefined : c'.Defined d config query types)
    (hnames : List.Forall₂ (fun op s => Conversion.fieldNameOf op = .ok s) ops names)
    (haligned : Aligned (fun i op => c'.graph.Serves op i) (c'.graph.node query).props
      (Operation.byName names ops)) (hop : op ∈ ops) (hp : c.Served selecting op p) :
    ∃ s, (c.graph.node p).name = .str s ∧
      ∃ b ∈ types, b.name = config.queryType ∧ ∃ f ∈ b.fields, f.name = selectedName s := by
  obtain ⟨s, hs, hname⟩ := hp.serves.name
  obtain ⟨s', hmem, hs'⟩ := exists_of_forall₂_left hnames hop
  rw [hs] at hs'
  cases hs'
  obtain ⟨k, hk, hkey⟩ := Operation.exists_key_byName hnames.length_eq.symm hmem
  rw [← haligned.keys_eq] at hk
  obtain ⟨e, he, rfl⟩ := List.mem_map.1 hk
  obtain ⟨A, hwhole, -⟩ := hdefined.finished.whole
  obtain ⟨t, ht, hproperty⟩ := hwhole.entries query (.inl hdefined.finished.visited) e he
  rw [ht, Key.text_beq_text, beq_iff_eq] at hkey
  obtain rfl := hkey
  obtain ⟨b, hb, hnode, hquery⟩ := hdefined.query (List.ne_nil_of_mem he)
  have hlisted := (hdefined.declared b hb).listed
  rw [hnode] at hlisted
  have hfield : e.2 ∈ b.fields.map Field.node := hlisted ▸ List.mem_map_of_mem he
  obtain ⟨f, hf, hnode⟩ := List.mem_map.1 hfield
  rw [← hnode] at hproperty
  have hspelt := ((hdefined.declared b hb).fields f hf).speltAs hproperty
  refine ⟨t, hname, b, hb, hquery, f, hf, hspelt.1 ?_⟩
  exact not_isMarked_of_fieldName_eq (fieldName_of_fieldNameOf hs)

/-- If the operations have different names, each has a field of the query type. -/
theorem exists_sameField (hdefined : c'.Defined d config query types)
    (hnames : List.Forall₂ (fun op s => Conversion.fieldNameOf op = .ok s) ops names)
    (hnodup : names.Nodup)
    (haligned : Aligned (fun i op => c'.graph.Serves op i) (c'.graph.node query).props
      (Operation.byName names ops)) (hop : op ∈ ops) (hp : c.Served selecting op p) :
    ∃ b ∈ types, ∃ f ∈ b.fields, c.SameProperty c' p f.node := by
  have hvalues := haligned.forall₂_values
  rw [Operation.values_byName hnodup hnames.length_eq.symm] at hvalues
  obtain ⟨i, hi, hserves⟩ := exists_of_forall₂_left hvalues.flip hop
  obtain ⟨hvisited, -⟩ := hdefined.finished.property hdefined.finished.visited hi
  obtain ⟨e, he, -⟩ := List.mem_map.1 hi
  obtain ⟨b, hb, hnode, -⟩ := hdefined.query (List.ne_nil_of_mem he)
  have hlisted := (hdefined.declared b hb).listed
  rw [hnode] at hlisted
  rw [← hlisted] at hi
  obtain ⟨f, hf, rfl⟩ := List.mem_map.1 hi
  exact ⟨b, hb, f, hf, hp.visited, hvisited, hp.serves.isField, hp.serves.name_eq hserves,
    hp.serves.alike hserves⟩

end Context.Defined

namespace Conversion

variable {d : Document} {config : Config} {defs : Definitions} {lines : List SelectionLine}
  {c c₀ : Context}

/-- What a selection writes for a property is what the definitions declare for it, if its name is not
marked; if it is, they declare the same with one more underscore in front. In a layered document the
property is declared in each type that was written for what it belongs to, and a type that has a name was
written; for an operation there is a field of the query type. If the operations have different names, a
property is declared unless one of the fields around it speaks of the scalar for values of any form, where
its type has no name. -/
theorem fieldName_of_selected (hdefs : definitions d config (start Oracle.always) = .ok defs c₀)
    (hlines : selection d config (start Oracle.always) = .ok lines c) :
    ∃ query c' ops names, visitAll d config (start Oracle.always) = .ok query c' ∧
      wantedOperations d config = .ok ops ∧
      List.Forall₂ (fun op s => fieldNameOf op = .ok s) ops names ∧
      ∀ before line after p written, lines = before ++ line :: after →
        line.field? = some (p, written) →
          (∃ s, (c.graph.node p).name = .str s ∧ ∀ b ∈ defs.types, ∀ f ∈ b.fields,
            (c'.graph.node f.node).IsProperty s → f.SpeltAs s written) ∧
          (d.Layered →
            (around [] before = [] → ∃ b ∈ defs.types, b.name = config.queryType ∧
              ∃ f ∈ b.fields, f.name = written) ∧
            (∀ q rest, around [] before = q :: rest →
              ∃ t, c.graph.Unwraps (c.graph.node q).valueType? t ∧
                p ∈ values (c.graph.node t).props ∧ ∀ t', c.Twinned c' t t' →
                  (c'.Named (TypeBlock.allFields defs.types) t' → ∃ b ∈ defs.types, b.node = t') ∧
                  ∀ b ∈ defs.types, b.node = t' → ∃ f ∈ b.fields, f.Meets c c' p written) ∧
            (names.Nodup → (∃ b ∈ defs.types, ∃ f ∈ b.fields, f.Meets c c' p written) ∨
              ∃ q ∈ around [] before, ∃ b ∈ defs.types, ∃ f ∈ b.fields,
                c.SameProperty c' q f.node ∧ f.Nameless config c' defs.types)) := by
  obtain ⟨query, c', hvisit, -, hdefined⟩ := defined_definitions hdefs
  obtain ⟨fields, hselects⟩ := selects_selection hlines
  obtain ⟨-, -, ops, -, -, hwanted, -⟩ := exists_selectEach hlines
  obtain ⟨names, hnames, haligned⟩ := aligned_visitAll hwanted hvisit
  refine ⟨query, c', ops, names, hvisit, hwanted, hnames, ?_⟩
  intro before line after p written hsplit hline
  obtain ⟨s, hname, rfl⟩ := hselects.named line (by simp [hsplit]) p written hline
  refine ⟨⟨s, hname, fun b hb f hf => ((hdefined.declared b hb).fields f hf).speltAs⟩, fun hd => ?_⟩
  obtain ⟨A', h'⟩ := exact_visitAll hd hvisit
  obtain ⟨selecting, ops', fields, A, hwanted', h, hserved, hselects⟩ := answered_selection hd hlines
  rw [hwanted] at hwanted'
  cases hwanted'
  obtain ⟨inner, haround, hchain, hlast⟩ := hselects.chain hsplit hline []
  rw [List.append_nil] at haround
  rw [haround]
  have hroot : ∀ i ∈ fields, ∃ op ∈ ops, c.Served selecting op i := fun i hi =>
    exists_of_forall₂_left hserved.flip hi
  refine ⟨?_, ?_, fun hnodup => ?_⟩
  · rintro rfl
    obtain ⟨op, hop, hp⟩ := hroot p hlast
    obtain ⟨s', hname', hfield⟩ := hdefined.exists_queryField hnames haligned hop hp
    obtain rfl : s' = s := Json.str.inj (hname'.symm.trans hname)
    exact hfield
  · rintro q rest rfl
    obtain ⟨t, ht, hfields, hp⟩ := (List.isChain_cons_cons.1 hchain).1
    refine ⟨t, ht, hp, fun t' htwinned => ⟨hdefined.written t' ?_, ?_⟩⟩
    · rw [← (h.reflects h').hasFields htwinned, hfields]
    · rintro b hb rfl
      obtain ⟨f, hf, hsame⟩ := h.exists_same h' (hdefined.declared b hb) htwinned hp
      exact ⟨f, hf, hdefined.meets hname hb hf hsame⟩
  · obtain ⟨op, hop, hp⟩ := hroot _ hlast
    have hfirst := hdefined.exists_sameField hnames hnodup haligned hop hp
    refine (hdefined.declared_or_nameless h h' hchain hfirst).imp_left ?_
    rintro ⟨b, hb, f, hf, hsame⟩
    exact ⟨b, hb, f, hf, hdefined.meets hname hb hf hsame⟩

/-- A declaration that this document leads to. -/
inductive TypedPart : Schema → Prop
  | ref : TypedPart (.ref (.str "#/components/schemas/Pet"))
  | object {properties : List (PropertyOf Schema)}
      (plain : ∀ p ∈ properties, p.type = .scalar (some .string)) : TypedPart (.object properties)
  | text : TypedPart (.scalar (some .string))

theorem layered_typedPets : typedPets.Layered := by
  have hrefs : typedPets.raw.references = [.str "#/components/schemas/Pet"] := rfl
  have hpet : typedPets.Declares (.str "#/components/schemas/Pet") (.object
      [⟨"@type", false, .obj [("type", .str "string")], .scalar (some .string)⟩,
        ⟨"pet name", false, .obj [("type", .str "string")], .scalar (some .string)⟩]) := ⟨_, rfl, "", rfl⟩
  refine Document.layered_of_references fun ref href parts elements v _ _ _ hreaches => ?_
  rw [hrefs, List.mem_singleton] at href
  subst href
  -- nothing that the reference leads to is a composition
  have hpart := hreaches.of_closed TypedPart.ref fun s s' hs hlead => by
    cases hs with
    | ref =>
      cases hlead with
      | target hdeclares =>
        cases hdeclares.unique hpet
        exact .object (by simp)
    | object plain =>
      cases hlead with
      | property hmem =>
        rw [plain _ hmem]
        exact .text
    | text => cases hlead
  cases hpart

/-- Each of the lines of this document is declared. -/
theorem fieldName_of_selected_typedPets : ∃ defs lines c c₀ c' query,
    definitions typedPets {} (start Oracle.always) = .ok defs c₀ ∧
      selection typedPets {} (start Oracle.always) = .ok lines c ∧ lines.length = 4 ∧
      visitAll typedPets {} (start Oracle.always) = .ok query c' ∧
      ∀ before line after p written, lines = before ++ line :: after →
        line.field? = some (p, written) →
          ∃ b ∈ defs.types, ∃ f ∈ b.fields, f.Meets c c' p written := by
  obtain ⟨defs, hdefs, hplain⟩ : ∃ defs, definitions typedPets {} (start Oracle.always) = .ok defs _ ∧
      (defs.types.any fun b => b.fields.any fun f => f.type.innermost.isText "JSON") = false :=
    exists_eq_ok_of_map_outcome (by decide +kernel)
  obtain ⟨lines, hlines, hlength⟩ : ∃ lines, selection typedPets {} (start Oracle.always) = .ok lines _ ∧
      lines.length = 4 := exists_eq_ok_of_map_outcome (by decide +kernel)
  obtain ⟨query, c', ops, names, hvisit, hops, hnames, hall⟩ := fieldName_of_selected hdefs hlines
  have hone : ∃ ops, wantedOperations typedPets {} = .ok ops ∧ ops.length = 1 := ⟨_, rfl, by decide +kernel⟩
  obtain ⟨ops', hops', hsize⟩ := hone
  rw [hops] at hops'
  cases hops'
  obtain ⟨name, rfl⟩ := List.length_eq_one_iff.1 (hnames.length_eq.symm.trans hsize)
  refine ⟨defs, lines, _, _, c', query, hdefs, hlines, hlength, hvisit, ?_⟩
  intro before line after p written hsplit hline
  obtain ⟨-, hlayered⟩ := hall before line after p written hsplit hline
  obtain ⟨-, -, hdeclared⟩ := hlayered layered_typedPets
  refine (hdeclared (List.nodup_singleton name)).resolve_right ?_
  -- no field speaks of the scalar for values of any form
  rintro ⟨q, -, b, hb, f, hf, -, hscalar, -⟩
  have hfound : (defs.types.any fun b => b.fields.any fun f => f.type.innermost.isText "JSON") = true :=
    List.any_eq_true.2 ⟨b, hb, List.any_eq_true.2 ⟨f, hf, by rw [hscalar]; rfl⟩⟩
  rw [hplain] at hfound
  cases hfound

/-- The property of this schema is selected as `type` and declared as `_type`. -/
theorem fieldName_ne_selected_typedPets : ∃ defs lines c c',
    definitions typedPets {} (start Oracle.always) = .ok defs c ∧
      selection typedPets {} (start Oracle.always) = .ok lines c' ∧
      ∃ line ∈ lines, ∃ p written, line.field? = some (p, written) ∧
        (c'.graph.node p).name = .str "@type" ∧
        ∃ b ∈ defs.types, ∃ f ∈ b.fields, (c.graph.node f.node).name = .str "@type" ∧
          f.name ≠ written := by
  have heq : ∀ {v : Json}, v.isText "@type" = true → v = .str "@type" := by
    intro v hv
    cases v <;> simp_all [Json.isText]
  obtain ⟨defs, hdefs, hfield⟩ : ∃ defs, definitions typedPets {} (start Oracle.always) = .ok defs _ ∧
      (defs.types.any fun b => b.fields.any fun f =>
        (((after (definitions typedPets {}) (start Oracle.always)).graph.node f.node).name.isText
          "@type" && f.name == "_type")) = true := exists_eq_ok_of_map_outcome (by decide +kernel)
  obtain ⟨lines, hlines, hline⟩ : ∃ lines, selection typedPets {} (start Oracle.always) = .ok lines _ ∧
      (lines.any fun line => line.field?.any fun (p, written) =>
        (((after (selection typedPets {}) (start Oracle.always)).graph.node p).name.isText "@type" &&
          written == "type")) = true := exists_eq_ok_of_map_outcome (by decide +kernel)
  simp only [List.any_eq_true, Option.any_eq_true, Bool.and_eq_true, beq_iff_eq] at hfield hline
  obtain ⟨b, hb, f, hf, hname, hdeclared⟩ := hfield
  obtain ⟨line, hmem, ⟨p, written⟩, hline, hname', hwritten⟩ := hline
  refine ⟨defs, lines, _, _, hdefs, hlines, line, hmem, p, written, hline, heq hname', b, hb, f, hf,
    heq hname, ?_⟩
  rw [hdeclared, show written = "type" from hwritten]
  decide

end Conversion

end ApiGraph
