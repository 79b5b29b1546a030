import ApiGraph.Proofs.Declaring.Fields
import ApiGraph.Proofs.Depicting.Operations
import ApiGraph.Proofs.Writing.Names

/-!
# Fields of the query type

The query type has a field for each name that an operation has. Of several operations with one name it
declares the last one, in the place of the first one.

* `Operation.byName` — the operations that are declared;
* `Field.Serves` — a field declares an operation;
* `Conversion.aligned_visitAll` — the properties of the query object stand for these operations;
* `Conversion.serves_definitions` — the fields of the query type declare them.
-/

namespace ApiGraph

open OrderedMap Context

/-! ## Operations by name -/

theorem fieldName_of_fieldNameOf {op : Operation} {s : String}
    (h : Conversion.fieldNameOf op = .ok s) : fieldName s = s := by
  obtain ⟨identifier, rfl⟩ : ∃ identifier, s = operationName op.method op.path identifier := by
    rw [Conversion.fieldNameOf] at h
    split at h
    · split at h
      · exact ⟨_, (Except.ok.inj h).symm⟩
      · cases h
    · exact ⟨_, (Except.ok.inj h).symm⟩
  obtain ⟨t, ht⟩ := exists_operationName op.method op.path identifier
  rw [ht, fieldName_legalName]

/-- Operations by the names of their fields. An operation takes the place of an earlier one of the same
name. -/
def Operation.byName (names : List String) (ops : List Operation) : OrderedMap Key Operation :=
  insertAll [] ((names.map Key.text).zip ops)

/-- When all names are different, every operation is there. -/
theorem Operation.values_byName {names : List String} {ops : List Operation} (h : names.Nodup)
    (hlength : names.length = ops.length) : values (byName names ops) = ops := by
  have hkeys : keys ((names.map Key.text).zip ops) = names.map Key.text :=
    List.map_fst_zip (by simp [hlength])
  have hdistinct : Distinct (keys ([] ++ (names.map Key.text).zip ops)) := by
    rw [List.nil_append, hkeys, Distinct, List.pairwise_map]
    exact h.imp fun hne => by simpa using hne
  rw [byName, insertAll_of_distinct hdistinct, List.nil_append]
  exact List.map_snd_zip (by simp [hlength])

/-- Every name of an operation is there. -/
theorem Operation.exists_key_byName {names : List String} {ops : List Operation} {s : String}
    (hlength : names.length = ops.length) (hs : s ∈ names) :
    ∃ k ∈ keys (byName names ops), (k == Key.text s) = true := by
  have hkeys : keys ((names.map Key.text).zip ops) = names.map Key.text :=
    List.map_fst_zip (by simp [hlength])
  rw [← contains_iff, byName, contains_insertAll, Bool.or_eq_true, contains_iff, contains_iff, hkeys]
  exact .inr ⟨.text s, List.mem_map_of_mem hs, BEq.rfl⟩

/-! ## The query object -/

variable {d : Document} {config : Config} {oracle : Oracle} {c c' : Context} {query : NodeId}

/-- The properties of an object stand for operations, in every graph that has them with all later
nodes. -/
def Context.Queried (c : Context) (query : NodeId) (m : OrderedMap Key Operation) : Prop :=
  query.index < c.graph.size ∧ (c.graph.node query).body = .object ∧
    Aligned (fun i op => query.index < i.index ∧ c.Serving op i) (c.graph.node query).props m

theorem Context.Queried.add {m : OrderedMap Key Operation} {op : Operation} (h : c.Queried query m)
    (hadd : (do Run.put query (← Conversion.operationField query op) : Run Unit) c = .ok () c') :
    ∃ s, Conversion.fieldNameOf op = .ok s ∧ c'.Queried query (OrderedMap.insert (.text s) op m) := by
  obtain ⟨hlt, hobject, haligned⟩ := h
  obtain ⟨field, c₁, hfield, hput⟩ := bind_eq_ok_iff.1 hadd
  obtain ⟨hsown, -⟩ := sown_operationField hfield
  have hserving := Conversion.serving_operationField hfield
  obtain ⟨s, hs, hoffering⟩ := id hserving
  have hlt₁ := hlt.trans hsown.size_lt
  rw [put_eq hoffering.2.1] at hput
  cases hput
  have hself := Graph.node_update_self c₁.graph hlt₁ fun n => n.putProperty (.text s) field
  have hother : ∀ j, query.index < j.index →
      (c₁.graph.update query fun n => n.putProperty (.text s) field).node j = c₁.graph.node j :=
    fun j hj => Graph.node_update_of_ne c₁.graph (fun he => by rw [he] at hj; exact hj.false) _
  have hsize := (Graph.size_update c₁.graph query fun n => n.putProperty (.text s) field).ge
  rw [hsown.node_eq query hlt] at hself
  refine ⟨s, hs, hlt₁.trans_le hsize, ?_, ?_⟩
  · simp only [hself, Node.body_putProperty, hobject]
  · simp only [hself, Node.props_putProperty]
    have hindex : query.index < field.index := hsown.index ▸ hlt
    refine Aligned.insert (haligned.imp fun i op hop => ⟨hop.1, ?_⟩) (.text s)
      ⟨hindex, hserving.later hsize fun j hj _ => hother j (hindex.trans_le hj)⟩
    refine hop.2.later (hsown.size_lt.le.trans hsize) fun j hj hj' => ?_
    rw [hother j (hop.1.trans_le hj), hsown.node_eq j hj']

theorem Context.Queried.addEach {m : OrderedMap Key Operation} {ops : List Operation}
    (h : c.Queried query m)
    (hadd : (ops.forM fun op => do
      Run.put query (← Conversion.operationField query op) : Run Unit) c = .ok () c') :
    ∃ names, List.Forall₂ (fun op s => Conversion.fieldNameOf op = .ok s) ops names ∧
      c'.Queried query (insertAll m ((names.map Key.text).zip ops)) := by
  induction ops generalizing c m with
  | nil =>
    cases hadd
    exact ⟨[], .nil, h⟩
  | cons op rest ih =>
    obtain ⟨u, c₁, hop, hrest⟩ := bind_eq_ok_iff.1 hadd
    obtain ⟨s, hs, h₁⟩ := h.add hop
    obtain ⟨names, hnames, h'⟩ := ih h₁ hrest
    exact ⟨s :: names, .cons hs hnames, h'⟩

theorem queried_buildQuery {ops : List Operation}
    (h : Conversion.buildQuery config ops c = .ok query c') :
    ∃ names, List.Forall₂ (fun op s => Conversion.fieldNameOf op = .ok s) ops names ∧
      c'.Queried query (Operation.byName names ops) := by
  obtain ⟨query', c₁, hnew, h⟩ := bind_eq_ok_iff.1 h
  obtain ⟨u, c₂, heach, h⟩ := bind_eq_ok_iff.1 h
  cases h
  have hfurnished := furnished_newQuery hnew
  refine Context.Queried.addEach ⟨hfurnished.stocked.lt_size, hfurnished.object, ?_⟩ heach
  have hprops : (c₁.graph.node query).props = [] := by
    cases hnew
    exact congrArg Node.props (Graph.node_alloc_self c.graph _)
  rw [hprops]
  exact .nil

/-- When everything was visited, the properties of the query object stand for the operations by name. -/
theorem Conversion.aligned_visitAll {ops : List Operation}
    (hops : wantedOperations d config = .ok ops)
    (h : visitAll d config (start oracle) = .ok query c) :
    ∃ names, List.Forall₂ (fun op s => fieldNameOf op = .ok s) ops names ∧
      Aligned (fun i op => c.graph.Serves op i) (c.graph.node query).props
        (Operation.byName names ops) := by
  obtain ⟨refs, ops', c₁, c₂, hschemas, hops', hbuild, hvisit⟩ := steps_of_visitAll h
  cases hops.symm.trans hops'
  obtain ⟨A, hrooted⟩ := rooted_buildQuery (atRest_resolveEach (atRest_start d oracle) hschemas) hbuild
  obtain ⟨names, hnames, hlt, hobject, haligned⟩ := queried_buildQuery hbuild
  obtain ⟨hgrows, -⟩ := hrooted.rest.visit hrooted.budding hrooted.apart hrooted.plain hvisit
  refine ⟨names, hnames, ?_⟩
  rw [(hgrows.kept query hlt).props (by rw [hobject]; rfl)]
  exact haligned.imp fun i op hop => hop.2.serves.kept hgrows.kept

/-- If there are operations, the query object has properties. -/
theorem Conversion.props_ne_nil {ops : List Operation} {names : List String}
    {R : NodeId → Operation → Prop} {props : OrderedMap Key NodeId}
    (hnames : List.Forall₂ (fun op s => fieldNameOf op = .ok s) ops names) (hne : ops ≠ [])
    (h : Aligned R props (Operation.byName names ops)) : props ≠ [] := by
  rintro rfl
  obtain ⟨s, rest, rfl⟩ := List.exists_cons_of_length_pos
    (hnames.length_eq ▸ List.length_pos_of_ne_nil hne)
  obtain ⟨k, hk, -⟩ := Operation.exists_key_byName hnames.length_eq.symm (List.mem_cons_self (a := s))
  rw [← h.keys_eq] at hk
  cases hk

/-! ## The query type -/

namespace Drafting

variable {D D' : Draft} {q : NodeId} {name : Json} {props : List NodeId}

theorem exists_of_writeType {u : Unit} {i : NodeId} (h : writeType config i name props D = .ok u D') :
    ∃ fields, D'.types = D.types ++ [⟨i, name, fields⟩] := by
  obtain ⟨fields, D₁, hfields, h⟩ := bind_eq_ok_iff.1 h
  obtain ⟨-, -, -, htypes⟩ := declared_mapM hfields
  cases h
  exact ⟨fields, congrArg (· ++ _) htypes⟩

/-- The query object is written, if it has properties. -/
theorem exists_writeType_of_definitions {roots : List NodeId} {defs : Definitions}
    (h : definitions config roots (some q) D = .ok defs D') {g : Graph} (hgraph : D.context.graph = g)
    (hprops : (g.node q).props ≠ []) : ∃ E E' : Draft, E.context.graph = g ∧
      writeType config q config.queryType (values (g.node q).props) E = .ok () E' ∧
        E'.types ⊆ D'.types := by
  obtain ⟨-, D₁, D₂, D₃, D₄, htake, hquery, hvariants, hroots, hlast⟩ := definitions_cases h
  have hadds : Adds config g (takeNames roots) := adds_takeNames roots
  have hadds' : Adds config g (roots.forM fun i => do let _ ← nameVariant i) :=
    adds_forM (fun i => adds_nameVariant.bind fun _ => (quiet_pure _).adds) roots
  obtain ⟨hkeeps₁, -⟩ := hadds D () D₁ hgraph htake
  have hgraph₁ := hkeeps₁.graph.trans hgraph
  obtain ⟨hkeeps₂, -⟩ := adds_takeQueryName D₁ () D₂ hgraph₁ hquery
  have hgraph₂ := hkeeps₂.graph.trans hgraph₁
  obtain ⟨hkeeps₃, -⟩ := hadds' D₂ () D₃ hgraph₂ hvariants
  have hgraph₃ := hkeeps₃.graph.trans hgraph₂
  obtain ⟨hkeeps₄, -⟩ := adds_forM (fun i => adds_generate.bind fun _ => adds_flush) roots D₃ () D₄
    hgraph₃ hroots
  have hgraph₄ := hkeeps₄.graph.trans hgraph₃
  rw [hgraph₄] at hlast
  rcases hlast with ⟨hnone, -⟩ | ⟨-, D₅, D₆, D₇, hin, hwrite, hout, hflush⟩
  · exact absurd hnone hprops
  · have hgraph₅ := hin.still.graph.trans hgraph₄
    obtain ⟨hkeeps₆, -⟩ := adds_writeType D₅ () D₆ hgraph₅ hwrite
    have hgraph₆ := hkeeps₆.graph.trans hgraph₅
    have hadds'' : Adds config g (flush config) := adds_flush
    obtain ⟨-, more, hmore, -⟩ := hadds'' D₇ () D' (hout.still.graph.trans hgraph₆) hflush
    refine ⟨D₅, D₆, hgraph₅, hwrite, ?_⟩
    rw [hmore, hout.still.types]
    exact List.subset_append_left _ _

/-- The query object is written under the name of the query type. -/
theorem exists_queryBlock {roots : List NodeId} {defs : Definitions}
    (h : definitions config roots (some q) D = .ok defs D') {g : Graph} (hgraph : D.context.graph = g)
    (hprops : (g.node q).props ≠ []) : ∃ b ∈ D'.types, b.node = q ∧ b.name = config.queryType := by
  obtain ⟨E, E', -, hwrite, htypes⟩ := exists_writeType_of_definitions h hgraph hprops
  obtain ⟨fields, hfields⟩ := exists_of_writeType hwrite
  refine ⟨⟨q, config.queryType, fields⟩, htypes ?_, rfl, rfl⟩
  rw [hfields]
  exact List.mem_append_right _ (List.mem_singleton_self _)

end Drafting

/-! ## Fields of the query type -/

/-- An argument is declared by a parameter: it has its name, and the type of its schema. -/
structure Argument.Declares (config : Config) (g : Graph) (called : NodeId → Json → Prop)
    (p : Json.Members) (a : Argument) : Prop where
  name : ∃ s, get? "name" p = some (.str s) ∧ a.name = fieldName s
  type : ∃ t s, (parameterSchema p).Declares s ∧ g.Depicts t s ∧
    Drafting.Yields g called (Drafting.argumentType config (some t)) a.type
  required : a.required = (Document.field "required" p).truthy
  default : a.default = Schema.defaultOf (parameterSchema p)

/-- A field declares an operation: it has its name, the type of its answer, and an argument for each of its
parameters outside the body of a request. -/
structure Field.Serves (config : Config) (g : Graph) (called : NodeId → Json → Prop) (op : Operation)
    (f : Field) : Prop where
  name : Conversion.fieldNameOf op = .ok f.name
  answer : ∃ slot arguments link, (g.node f.node).body = .property slot arguments link ∧
    g.Bears (.bool false) (op.response.orElse (.obj [])) slot link
  type : Drafting.Yields g called (Drafting.typeExpr config (g.node f.node).valueType?) f.type
  optional : f.required = false
  default : f.default = Schema.defaultOf (op.response.orElse (.obj []))
  arguments : List.Forall₂ (Argument.Declares config g called) op.listedParameters f.arguments

theorem Graph.Takes.declares {g : Graph} {called : NodeId → Json → Prop} {p : Json.Members}
    {a : Argument} (h : g.Takes p a.node) (ha : a.Declared config g called) :
    a.Declares config g called p := by
  obtain ⟨hname, t, s, hbody, hdeclares, hdepicts⟩ := h
  obtain ⟨name, hnode, hwritten⟩ := ha.name
  obtain ⟨type, htype, hyields⟩ := ha.type
  obtain ⟨slot, hslot, hrequired, hdefault⟩ := ha.slot
  rw [Node.slot?, hbody] at hslot
  cases hslot
  rw [Node.type?, Node.slot?, hbody] at htype
  cases htype
  exact ⟨⟨name, by rw [hname, hnode], hwritten⟩, ⟨t, s, hdeclares, hdepicts, hyields⟩, hrequired, hdefault⟩

/-- A field that declares its property declares the operation that the property stands for. -/
theorem Field.Declared.serves {g : Graph} {called : NodeId → Json → Prop} {op : Operation} {f : Field}
    (hf : f.Declared config g called) (h : g.Serves op f.node) : f.Serves config g called op := by
  obtain ⟨s, hs, hname⟩ := h.name
  obtain ⟨slot, arguments, link, hbody, hbears, htakes⟩ := h.offers.body
  obtain ⟨s', hproperty, hwritten⟩ := hf.name
  obtain ⟨slot', hslot, hrequired, hdefault⟩ := hf.slot
  obtain rfl : s' = s := Json.str.inj (hproperty.1.symm.trans hname)
  rw [Node.slot?, hbody] at hslot
  obtain rfl := Option.some.inj hslot
  have hlisted : arguments = f.arguments.map Argument.node := by
    have hmap : (f.arguments.map Argument.node).map some = arguments.map some := by
      rw [List.map_map]
      exact hf.listed.trans (by rw [Node.arguments, hbody])
    exact (List.map_injective_iff.2 (Option.some_injective _) hmap).symm
  rw [hlisted, List.forall₂_map_right_iff] at htakes
  have hdeclares := ((List.forall₂_and_left _ _).2 ⟨hf.arguments, htakes.flip⟩).flip
  refine ⟨by rw [hwritten, fieldName_of_fieldNameOf hs, hs], ⟨_, _, _, hbody, hbears⟩, hf.type, ?_, ?_,
    hdeclares.imp fun p a ha => Graph.Takes.declares ha.2 ha.1⟩
  · cases hbears <;> exact hrequired
  · cases hbears <;> exact hdefault

namespace Conversion

open Drafting

/-- The fields of the query type declare the operations by name: in the order in which the names come
first, and for each name the last operation that has it. They declare all operations, one by one, if no
two of these have the same name. -/
theorem serves_definitions {ops : List Operation} {defs : Definitions}
    (hops : wantedOperations d config = .ok ops) (hne : ops ≠ [])
    (h : definitions d config (start oracle) = .ok defs c) :
    let serves := Field.Serves config c.graph (TypeBlock.Defines defs.types)
    ∃ names, List.Forall₂ (fun op s => fieldNameOf op = .ok s) ops names ∧
      ∃ b ∈ defs.types, b.name = config.queryType ∧
        List.Forall₂ serves (values (Operation.byName names ops)) b.fields ∧
        (names.Nodup → List.Forall₂ serves ops b.fields) := by
  intro serves
  obtain ⟨query, c, D, hvisit, hfinished, hrun, rfl⟩ := exists_draft_of_definitions h
  have hdeclared := declared_of_definitions hfinished hrun
  obtain ⟨names, hnames, haligned⟩ := aligned_visitAll hops hvisit
  obtain ⟨b, hb, hnode, hname⟩ := exists_queryBlock hrun rfl (props_ne_nil hnames hne haligned)
  rw [← types_of_definitions hrun] at hb
  have hfields : List.Forall₂ serves (values (Operation.byName names ops)) b.fields := by
    have hvalues := haligned.forall₂_values
    have hlisted := (hdeclared b hb).listed
    rw [hnode] at hlisted
    rw [← hlisted, List.forall₂_map_left_iff] at hvalues
    have hgraph : D.context.graph = c.graph :=
      (complete_definitions hfinished hrun).1.consistent.graph
    simp only [serves, hgraph]
    exact ((List.forall₂_and_left _ _).2 ⟨(hdeclared b hb).fields, hvalues⟩).flip.imp
      fun op f hf => hf.1.serves hf.2
  refine ⟨names, hnames, b, hb, hname, hfields, fun hnodup => ?_⟩
  rwa [Operation.values_byName hnodup hnames.length_eq.symm] at hfields

/-- A document with two operations whose fields have the same name. -/
def twinPaths : Document :=
  ⟨.obj [("paths", .obj [
    ("/pets/\x7bpetId\x7d", .obj [("get", .obj [("responses", .obj [("200", .obj [
      ("content", .obj [("application/json", .obj [("schema", .obj [("type", .str "string")])])])])])])]),
    ("/owners", .obj [("get", .obj [("parameters", .arr [.obj [("name", .str "page"), ("in", .str "query"),
      ("schema", .obj [("type", .str "integer")])]]), ("responses", .obj [])])]),
    ("/pets/pet-id", .obj [("get", .obj [("responses", .obj [("200", .obj [
      ("content", .obj [("application/json", .obj [("schema", .obj [("type", .str "integer")])])])])])])])])]⟩

/-- Two fields are declared for the three operations. -/
theorem serves_definitions_twinPaths : ∃ ops defs c,
    wantedOperations twinPaths {} = .ok ops ∧ ops.length = 3 ∧ ops ≠ [] ∧
      definitions twinPaths {} (start Oracle.always) = .ok defs c ∧
      defs.types.map (fun b => b.fields.length) = [2] ∧
      ∃ names, List.Forall₂ (fun op s => fieldNameOf op = .ok s) ops names ∧
        ∃ b ∈ defs.types, b.name = Config.queryType {} ∧
          List.Forall₂ (Field.Serves {} c.graph (TypeBlock.Defines defs.types))
            (values (Operation.byName names ops)) b.fields ∧
          (names.Nodup → List.Forall₂ (Field.Serves {} c.graph (TypeBlock.Defines defs.types)) ops
            b.fields) := by
  obtain ⟨ops, hops, hlength⟩ : ∃ ops, wantedOperations twinPaths {} = .ok ops ∧ ops.length = 3 :=
    ⟨_, rfl, by decide +kernel⟩
  obtain ⟨defs, hdefs, hfields⟩ : ∃ defs, definitions twinPaths {} (start Oracle.always) = .ok defs _ ∧
      defs.types.map (fun b => b.fields.length) = [2] := exists_eq_ok_of_map_outcome (by decide +kernel)
  have hne : ops ≠ [] := by
    rintro rfl
    cases hlength
  exact ⟨ops, defs, _, hops, hlength, hne, hdefs, hfields, serves_definitions hops hne hdefs⟩

end Conversion

end ApiGraph
