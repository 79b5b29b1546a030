import ApiGraph.Proofs.Declaring.Queries
import ApiGraph.Proofs.Declaring.Spellings
import ApiGraph.Proofs.Depicting.Parameters
import ApiGraph.Proofs.Drafting.Order
import ApiGraph.Proofs.Restoring.Conversions

/-!
# Names that clash

The properties of a type have different names, and the parameters of an operation differ in name or in
location. The fields and arguments that are written for them may still be called the same: fields when
the names are spelt alike, and arguments also when parameters differ in location only.

* `Document.Differ`, `Document.Keyed` — parameters that are merged differ from one another;
* `Context.Argued` — no nodes but fields of operations take arguments;
* `Conversion.tidy_visitAll`, `Conversion.arguments_eq_nil_or_mem` — what the graph is like when
  everything was visited;
* `TypeBlock.Spells`, `Field.Spells` — the names that fields and arguments are spelt for;
* `Conversion.nodup_names_iff` — when the fields of a type and the arguments of a field have different
  names.
-/

namespace ApiGraph

open OrderedMap Context

/-! ## Parameters -/

/-- Pairs of keys are equal in the same way as keys. -/
instance partialEquivBEq_prod {α β : Type} [BEq α] [BEq β] [PartialEquivBEq α] [PartialEquivBEq β] :
    PartialEquivBEq (α × β) where
  symm h := by
    obtain ⟨hfirst, hsecond⟩ := Bool.and_eq_true_iff.1 h
    exact Bool.and_eq_true_iff.2 ⟨BEq.symm hfirst, BEq.symm hsecond⟩
  trans h h' := by
    obtain ⟨hfirst, hsecond⟩ := Bool.and_eq_true_iff.1 h
    obtain ⟨hfirst', hsecond'⟩ := Bool.and_eq_true_iff.1 h'
    exact Bool.and_eq_true_iff.2 ⟨BEq.trans hfirst hfirst', BEq.trans hsecond hsecond'⟩

namespace Document

variable {d : Document} {ps : List Json} {merged merged' : OrderedMap (Key × Key) Json.Members}

/-- Two parameters differ in name or location. -/
def Differ (p q : Json.Members) : Prop :=
  ∃ key key', parameterKey? p = some key ∧ parameterKey? q = some key' ∧ (key == key') = false

/-- Parameters are bound under their own names and locations, each pair of these once. -/
structure Keyed (merged : OrderedMap (Key × Key) Json.Members) : Prop where
  distinct : Distinct (keys merged)
  own : ∀ e ∈ merged, ∃ key, parameterKey? e.2 = some key ∧ (e.1 == key) = true

theorem keyed_nil : Keyed [] := ⟨.nil, nofun⟩

theorem Keyed.insert (h : Keyed merged) {p : Json.Members} {key : Key × Key}
    (hkey : parameterKey? p = some key) : Keyed (OrderedMap.insert key p merged) := by
  refine ⟨distinct_keys_insert h.distinct key p, fun e he => ?_⟩
  rcases mem_insert he with he | rfl | ⟨-, -, hbeq, hvalue⟩
  · exact h.own e he
  · exact ⟨key, hkey, BEq.rfl⟩
  · exact ⟨key, by rw [hvalue, hkey], hbeq⟩

theorem Keyed.addParameters (h : Keyed merged) (hadd : d.addParameters merged ps = .ok merged') :
    Keyed merged' := by
  induction ps generalizing merged with
  | nil =>
    cases hadd
    exact h
  | cons p rest ih =>
    obtain ⟨parameter, -, hadd⟩ := Attempt.bind_eq_ok_iff.1 hadd
    obtain ⟨key, hkey, hadd⟩ := Attempt.bind_eq_ok_iff.1 hadd
    exact ih (h.insert (eq_some_of_expect hkey)) hadd

/-- Merged parameters differ from one another. -/
theorem Keyed.pairwise_differ (h : Keyed merged) : (values merged).Pairwise Differ := by
  have hkeys : merged.Pairwise fun a b => (a.1 == b.1) = false := List.pairwise_map.1 h.distinct
  refine List.pairwise_map.2 (hkeys.imp_of_mem fun {a b} ha hb hne => ?_)
  obtain ⟨key, hkey, hbeq⟩ := h.own a ha
  obtain ⟨key', hkey', hbeq'⟩ := h.own b hb
  refine ⟨key, key', hkey, hkey', Bool.eq_false_iff.2 fun heq => ?_⟩
  rw [BEq.trans (BEq.trans hbeq heq) (BEq.symm hbeq')] at hne
  cases hne

/-- The arguments that an operation asks for differ from one another. -/
theorem pairwise_differ_of_operationOf {path method : String} {item : Json.Members} {declared : Json}
    {op : Operation} (h : d.operationOf path method item declared = .ok op) :
    op.listedParameters.Pairwise Differ := by
  obtain ⟨operation, -, h⟩ := Attempt.bind_eq_ok_iff.1 h
  obtain ⟨parameters, hparameters, h⟩ := Attempt.bind_eq_ok_iff.1 h
  obtain ⟨response, -, h⟩ := Attempt.bind_eq_ok_iff.1 h
  cases h
  obtain ⟨shared, -, hparameters⟩ := Attempt.bind_eq_ok_iff.1 hparameters
  obtain ⟨own, -, hparameters⟩ := Attempt.bind_eq_ok_iff.1 hparameters
  obtain ⟨merged, hmerged, hparameters⟩ := Attempt.bind_eq_ok_iff.1 hparameters
  cases hparameters
  exact ((keyed_nil.addParameters hmerged).pairwise_differ).filter _

theorem pairwise_differ_of_wantedOperations {config : Config} {ops : List Operation}
    (h : Conversion.wantedOperations d config = .ok ops) :
    ∀ op ∈ ops, op.listedParameters.Pairwise Differ := by
  obtain ⟨methods, -, h⟩ := Attempt.bind_eq_ok_iff.1 h
  obtain ⟨wanted, -, h⟩ := Attempt.bind_eq_ok_iff.1 h
  obtain ⟨top, -, h⟩ := Attempt.bind_eq_ok_iff.1 h
  obtain ⟨paths, -, h⟩ := Attempt.bind_eq_ok_iff.1 h
  obtain ⟨found, hfound, h⟩ := Attempt.bind_eq_ok_iff.1 h
  cases h
  intro op hop
  obtain ⟨some, hsome, hop⟩ := List.mem_flatten.1 hop
  obtain ⟨path, -, hpath⟩ := exists_of_forall₂_left (Attempt.forall₂_of_mapM_eq_ok hfound).flip hsome
  obtain ⟨item, -, hpath⟩ := Attempt.bind_eq_ok_iff.1 hpath
  obtain ⟨e, -, he⟩ := exists_of_forall₂_left (Attempt.forall₂_of_mapM_eq_ok hpath).flip hop
  exact pairwise_differ_of_operationOf he

end Document

/-! ## Nodes with arguments -/

variable {d : Document} {config : Config} {oracle : Oracle} {c c' : Context} {query : NodeId}
  {ops : List Operation} {op : Operation}

/-- Only later nodes than the query object take arguments. They are fields of operations, for good, which
were made for the query object. -/
def Context.Argued (c : Context) (query : NodeId) (ops : List Operation) : Prop :=
  ∀ j, (c.graph.node j).arguments = [] ∨ query.index < j.index ∧ (c.graph.node j).parent = some query ∧
    ∃ op ∈ ops, c.Serving op j

theorem Context.Argued.add (h : c.Argued query ops) (hlt : query.index < c.graph.size) (hop : op ∈ ops)
    (hadd : (do Run.put query (← Conversion.operationField query op) : Run Unit) c = .ok () c') :
    query.index < c'.graph.size ∧ c'.Argued query ops := by
  obtain ⟨field, c₁, hfield, hput⟩ := bind_eq_ok_iff.1 hadd
  obtain ⟨hsown, -, hparent⟩ := sown_operationField hfield
  have hserving := Conversion.serving_operationField hfield
  obtain ⟨s, hs, hoffering⟩ := id hserving
  rw [put_eq hoffering.2.1] at hput
  cases hput
  have hother : ∀ j, query.index < j.index →
      (c₁.graph.update query fun n => n.putProperty (.text s) field).node j = c₁.graph.node j :=
    fun j hj => Graph.node_update_of_ne c₁.graph (fun he => by rw [he] at hj; exact hj.false) _
  have harguments : ∀ j, ((c₁.graph.update query fun n => n.putProperty (.text s) field).node j).arguments =
      (c₁.graph.node j).arguments := by
    intro j
    rw [Graph.node_update_eq]
    split
    · next hj => rw [hj.1, Node.arguments, Node.body_putProperty, Node.arguments]
    · rfl
  have hsize := (Graph.size_update c₁.graph query fun n => n.putProperty (.text s) field).ge
  refine ⟨(hlt.trans hsown.size_lt).trans_le hsize, fun j => ?_⟩
  rw [harguments]
  rcases Nat.lt_trichotomy j.index c.graph.size with hj | hj | hj
  · -- an old node
    rw [hsown.node_eq j hj]
    refine (h j).imp_right fun ⟨hafter, hparent, op', hop', hold⟩ => ⟨hafter, ?_, op', hop', ?_⟩
    · simp only [hother j hafter, hsown.node_eq j hj]
      exact hparent
    refine hold.later (hsown.size_lt.le.trans hsize) fun k hk hk' => ?_
    rw [hother k (hafter.trans_le hk), hsown.node_eq k hk']
  · -- the field itself
    obtain rfl : j = field := Graph.eq_of_index_eq (hj.trans hsown.index.symm)
    have hafter : query.index < j.index := hlt.trans_eq hj.symm
    refine .inr ⟨hafter, by simp only [hother j hafter, hparent], op, hop, ?_⟩
    exact hserving.later hsize fun k hk _ => hother k (hafter.trans_le hk)
  · -- what lies below it
    exact .inl (hsown.loose j hj).arguments

theorem Context.Argued.addEach {some : List Operation} (h : c.Argued query ops)
    (hlt : query.index < c.graph.size) (hsome : some ⊆ ops)
    (hadd : (some.forM fun op => do
      Run.put query (← Conversion.operationField query op) : Run Unit) c = .ok () c') :
    c'.Argued query ops := by
  induction some generalizing c with
  | nil =>
    cases hadd
    exact h
  | cons op rest ih =>
    obtain ⟨u, c₁, hop, hrest⟩ := bind_eq_ok_iff.1 hadd
    obtain ⟨hop', hsome⟩ := List.cons_subset.1 hsome
    obtain ⟨hlt₁, h₁⟩ := h.add hlt hop' hop
    exact ih h₁ hlt₁ hsome hrest

/-- The query object is built in a graph without arguments. -/
theorem argued_buildQuery (hbare : ∀ j, (c.graph.node j).arguments = [])
    (h : Conversion.buildQuery config ops c = .ok query c') : c'.Argued query ops := by
  obtain ⟨query', c₁, hnew, h⟩ := bind_eq_ok_iff.1 h
  obtain ⟨u, c₂, heach, h⟩ := bind_eq_ok_iff.1 h
  cases h
  cases hnew
  have hsize := Graph.size_alloc c.graph { body := .object, name := config.queryType }
  refine Context.Argued.addEach (fun j => .inl ?_) ?_ (List.Subset.refl ops) heach
  · rcases Nat.lt_trichotomy j.index c.graph.size with hj | hj | hj
    · exact (congrArg Node.arguments (Graph.node_alloc_of_lt c.graph _ hj)).trans (hbare j)
    · obtain rfl : j = (c.graph.alloc { body := .object, name := config.queryType }).1 :=
        Graph.eq_of_index_eq hj
      exact congrArg Node.arguments (Graph.node_alloc_self c.graph _)
    · exact Graph.arguments_of_size_le (hsize.trans_le hj)
  · exact (Nat.lt_succ_self c.graph.size).trans_eq hsize.symm

theorem retained_resolveEach {refs : List String}
    (h : (refs.forM fun ref => do
      let _ ← Visit.resolveRef d none (.str ref) : Run Unit) c = .ok () c') : c.Retained c' := by
  induction refs generalizing c with
  | nil =>
    cases h
    exact .refl _
  | cons ref rest ih =>
    obtain ⟨u, c₁, hone, hrest⟩ := bind_eq_ok_iff.1 h
    obtain ⟨t, c₂, hresolve, hone⟩ := bind_eq_ok_iff.1 hone
    cases hone
    have hretained := Visit.retained_resolveRef d none (.str ref) c
    rw [after_of_ok hresolve] at hretained
    exact hretained.trans (ih hrest)

namespace Conversion

/-- Before the query object is visited, no nodes but its fields take arguments. -/
theorem exists_argued_of_visitAll (hops : wantedOperations d config = .ok ops)
    (h : visitAll d config (start oracle) = .ok query c) : ∃ A c₁, c₁.Rooted A d query ∧
      c₁.Argued query ops ∧ c₁.Retained c ∧ Visit.visit d query c₁ = .ok () c := by
  obtain ⟨refs, ops', c₁, c₂, hschemas, hops', hbuild, hvisit⟩ := steps_of_visitAll h
  cases hops.symm.trans hops'
  obtain ⟨A, hrooted⟩ := rooted_buildQuery (atRest_resolveEach (atRest_start d oracle) hschemas) hbuild
  have hresolved := retained_resolveEach hschemas
  have hretained := Visit.retained_visit d query c₂
  rw [after_of_ok hvisit] at hretained
  exact ⟨A, c₂, hrooted, argued_buildQuery (fun j => hresolved.arguments j (Nat.zero_le _)) hbuild,
    hretained, hvisit⟩

/-- When everything was visited, properties are bound under their names, each name once. Only fields of
operations take arguments. -/
theorem tidy_visitAll (hops : wantedOperations d config = .ok ops)
    (h : visitAll d config (start oracle) = .ok query c) : c.graph.Tidy ∧
      ∀ j, (c.graph.node j).arguments = [] ∨ ∃ op ∈ ops, c.graph.Serves op j := by
  obtain ⟨A, c₁, -, hargued, hretained, -⟩ := exists_argued_of_visitAll hops h
  refine ⟨tidy_of_milestone (.queried h), fun j => ?_⟩
  by_cases hj : j.index < c₁.graph.size
  · rw [(hretained.kept j hj).arguments]
    exact (hargued j).imp_right fun ⟨_, _, op, hop, hserving⟩ =>
      ⟨op, hop, hserving.serves.kept hretained.kept⟩
  · exact .inl (hretained.arguments j (Nat.not_lt.1 hj))

/-- Of the nodes that were visited, no others than the properties of the query object take arguments. -/
theorem arguments_eq_nil_or_mem (h : visitAll d config (start oracle) = .ok query c) {i : NodeId}
    (hi : c.Visited i) :
    (c.graph.node i).arguments = [] ∨ i ∈ values (c.graph.node query).props := by
  obtain ⟨-, ops, -, -, -, hops, -⟩ := steps_of_visitAll h
  obtain ⟨A, c₁, hrooted, hargued, hretained, hvisit⟩ := exists_argued_of_visitAll hops h
  by_cases hlt : i.index < c₁.graph.size
  swap
  · exact .inl (hretained.arguments i (Nat.not_lt.1 hlt))
  rw [(hretained.kept i hlt).arguments]
  refine (hargued i).imp_right fun ⟨hafter, hparent, _⟩ => ?_
  have hobject := (hrooted.rest.sound.handmade query rfl).2
  have hquery := hrooted.budding.sprout.lt_size
  -- what it was made for is right above it
  rcases (hrooted.tree_of_visited hvisit hi hafter.le hlt).cases_tail with rfl | ⟨k, hk, hbelow⟩
  · exact absurd hafter (Nat.lt_irrefl _)
  · obtain ⟨top, hsprout, -⟩ := hrooted.budding.sprout.of_tree hk
    obtain rfl : k = query := Option.some.inj ((hsprout.bud.owns i hbelow).parent.symm.trans hparent)
    rw [(hretained.kept k hquery).props (by rw [hobject]; rfl)]
    rwa [Node.below, hobject] at hbelow

end Conversion

/-! ## Types -/

/-- The names that the fields of a type are spelt for. -/
def TypeBlock.Spells (g : Graph) (b : TypeBlock) (names : List String) : Prop :=
  List.Forall₂ (fun f s => (g.node f.node).IsProperty s ∧ f.name = fieldName s) b.fields names

/-- The names that the arguments of a field are spelt for. -/
def Field.Spells (op : Operation) (f : Field) (names : List String) : Prop :=
  List.Forall₂ (fun p s => get? "name" p = some (.str s)) op.listedParameters names ∧
    List.Forall₂ (fun a s => a.name = fieldName s) f.arguments names

/-- What two lists have to do with one another by way of a third one. -/
theorem exists_forall₂_between {α β γ : Type} {R : α → γ → Prop} {S : β → γ → Prop} {xs : List α}
    {ys : List β} (h : List.Forall₂ (fun x y => ∃ z, R x z ∧ S y z) xs ys) :
    ∃ zs, List.Forall₂ R xs zs ∧ List.Forall₂ S ys zs := by
  induction h with
  | nil => exact ⟨[], .nil, .nil⟩
  | cons hone _ ih =>
    obtain ⟨z, hR, hS⟩ := hone
    obtain ⟨zs, hRs, hSs⟩ := ih
    exact ⟨z :: zs, .cons hR hRs, .cons hS hSs⟩

theorem Field.Serves.exists_names {g : Graph} {called : NodeId → Json → Prop} {f : Field}
    (h : f.Serves config g called op) :
    ∃ names, f.Spells op names :=
  exists_forall₂_between (h.arguments.imp fun _ _ ha => ha.name)

/-- A type that declares properties with different names has fields for different names. -/
theorem TypeBlock.Declared.exists_names {g : Graph} {called : NodeId → Json → Prop} {b : TypeBlock}
    (h : b.Declared config g called)
    (hdistinct : Distinct (keys (g.node b.node).props))
    (hentries : ∀ e ∈ (g.node b.node).props, ∃ s, e.1 = .text s ∧ (g.node e.2).IsProperty s) :
    ∃ names, b.Spells g names ∧ names.Nodup := by
  obtain ⟨names, hnames⟩ := exists_forall₂ fun f hf => (h.fields f hf).name
  refine ⟨names, hnames, ?_⟩
  have hprops : (values (g.node b.node).props).Pairwise fun p q => (g.node p).name ≠ (g.node q).name := by
    have hkeys : (g.node b.node).props.Pairwise fun a b => (a.1 == b.1) = false :=
      List.pairwise_map.1 hdistinct
    refine List.pairwise_map.2 (hkeys.imp_of_mem fun {a b} ha hb hne heq => ?_)
    obtain ⟨s, hs, hproperty⟩ := hentries a ha
    obtain ⟨t, ht, hproperty'⟩ := hentries b hb
    obtain rfl : s = t := Json.str.inj ((hproperty.1.symm.trans heq).trans hproperty'.1)
    rw [hs, ht, BEq.rfl] at hne
    cases hne
  rw [← h.listed] at hprops
  have hwritten : names.map Json.str = (b.fields.map Field.node).map fun i => (g.node i).name := by
    rw [List.map_map, ← List.forall₂_eq_eq_eq, List.forall₂_map_left_iff, List.forall₂_map_right_iff]
    exact hnames.flip.imp fun s f hf => hf.1.1.symm
  refine List.Nodup.of_map Json.str ?_
  rw [hwritten]
  exact List.pairwise_map.2 hprops

/-- The names of operations are spelt as they are. -/
theorem TypeBlock.Spells.map_name_of_serves {g : Graph} {b : TypeBlock} {names : List String}
    (h : b.Spells g names) (hserves : ∀ f ∈ b.fields, ∃ op, g.Serves op f.node) :
    b.fields.map Field.name = names := by
  rw [← List.forall₂_eq_eq_eq, List.forall₂_map_left_iff]
  refine List.Forall₂.imp (fun f s hf => ?_) ((List.forall₂_and_left _ _).2 ⟨hserves, h⟩)
  obtain ⟨⟨op, hop⟩, hproperty, hwritten⟩ := hf
  obtain ⟨t, ht, hnode⟩ := hop.name
  obtain rfl : t = s := Json.str.inj (hnode.symm.trans hproperty.1)
  rw [hwritten, fieldName_of_fieldNameOf ht]

namespace Drafting

/-- All types are written for nodes that were visited. -/
theorem visited_of_mem_types {D : Draft} {defs : Definitions} (h : c.Finished d query)
    (hrun : definitions config c.roots (some query) { context := c } = .ok defs D) :
    ∀ b ∈ defs.types, c.Visited b.node := by
  intro b hb
  have hplaced := placed_of_definitions h hrun
  obtain ⟨-, hroot | hquery | hgiven⟩ := (hplaced.written b.node).1 (List.mem_map_of_mem hb)
  · exact (h.root hroot).1
  · exact hquery ▸ h.visited
  · exact ((complete_definitions h hrun).1.consistent.visited_of_contains h hgiven).1

end Drafting

/-! ## Definitions -/

namespace Conversion

open Drafting

/-- If there are operations, all fields of the query type serve one of them. -/
theorem exists_queryType {roots : List NodeId} {defs : Definitions} {D : Draft}
    (hops : wantedOperations d config = .ok ops) (hne : ops ≠ [])
    (hvisit : visitAll d config (start oracle) = .ok query c)
    (hrun : Drafting.definitions config roots (some query) { context := c } = .ok defs D)
    (hdeclared : ∀ b ∈ defs.types, b.Declared config c.graph (TypeBlock.Defines defs.types)) :
    ∃ b ∈ defs.types, b.name = config.queryType ∧
      ∀ f ∈ b.fields, ∃ op ∈ ops, c.graph.Serves op f.node := by
  obtain ⟨names, hnames, haligned⟩ := aligned_visitAll hops hvisit
  obtain ⟨b, hb, hnode, hname⟩ := exists_queryBlock hrun rfl (props_ne_nil hnames hne haligned)
  rw [← types_of_definitions hrun] at hb
  refine ⟨b, hb, hname, fun f hf => ?_⟩
  have hmem : f.node ∈ values (c.graph.node query).props := by
    rw [← hnode, ← (hdeclared b hb).listed]
    exact List.mem_map_of_mem hf
  obtain ⟨e, he, hvalue⟩ := List.mem_map.1 hmem
  obtain ⟨e', he', -, hserves⟩ := exists_of_forall₂_left haligned he
  rw [hvalue] at hserves
  have hop : e'.2 ∈ values (Operation.byName names ops) := List.mem_map_of_mem he'
  refine ⟨e'.2, ?_, hserves⟩
  rcases mem_values_insertAll hop with hnone | hzip
  · cases hnone
  · obtain ⟨pair, hpair, hsecond⟩ := List.mem_map.1 hzip
    exact hsecond ▸ (List.of_mem_zip hpair).2

/-- The fields of a type have different names just if no two of its properties are spelt alike, and the
arguments of a field just if no two of its parameters are, though the properties are all called
differently and the parameters differ in name or location. The fields of operations always have different
names, as nothing is left to be changed in these. -/
theorem nodup_names_iff {defs : Definitions} (hops : wantedOperations d config = .ok ops)
    (h : definitions d config (start oracle) = .ok defs c) :
    (∀ b ∈ defs.types, ∃ names, b.Spells c.graph names ∧ names.Nodup ∧
      ((b.fields.map Field.name).Nodup ↔ names.Pairwise fun s t => ¬SpeltAlike s t)) ∧
    (∀ b ∈ defs.types, ∀ f ∈ b.fields, f.arguments = [] ∨
      ∃ op ∈ ops, f.Serves config c.graph (TypeBlock.Defines defs.types) op ∧
        op.listedParameters.Pairwise Document.Differ ∧ ∃ names, f.Spells op names ∧
          ((f.arguments.map Argument.name).Nodup ↔ names.Pairwise fun s t => ¬SpeltAlike s t)) ∧
    (ops ≠ [] → ∃ b ∈ defs.types, b.name = config.queryType ∧
      (∀ f ∈ b.fields, ∃ op ∈ ops, f.Serves config c.graph (TypeBlock.Defines defs.types) op) ∧
      (b.fields.map Field.name).Nodup) := by
  obtain ⟨query, c₁, D, hvisit, hfinished, hrun, rfl⟩ := exists_draft_of_definitions h
  have hgraph : D.context.graph = c₁.graph :=
    (complete_definitions hfinished hrun).1.consistent.graph
  have hdeclared := declared_of_definitions hfinished hrun
  obtain ⟨htidy, hargued⟩ := tidy_visitAll hops hvisit
  obtain ⟨A, hwhole, -⟩ := hfinished.whole
  rw [hgraph]
  have hnames : ∀ b ∈ defs.types, ∃ names, b.Spells c₁.graph names ∧ names.Nodup := fun b hb =>
    (hdeclared b hb).exists_names (htidy.distinct b.node)
      (hwhole.entries b.node (.inl (visited_of_mem_types hfinished hrun b hb)))
  refine ⟨fun b hb => ?_, fun b hb f hf => ?_, fun hne => ?_⟩
  · obtain ⟨names, hspells, hnodup⟩ := hnames b hb
    exact ⟨names, hspells, hnodup, nodup_map_iff_of_spelt (hspells.imp fun _ _ hf => hf.2)⟩
  · have hfield := (hdeclared b hb).fields f hf
    refine (hargued f.node).imp (fun hnone => ?_) fun ⟨op, hop, hserves⟩ => ?_
    · rw [← hfield.listed] at hnone
      exact List.map_eq_nil_iff.1 hnone
    · have hf := hfield.serves hserves
      obtain ⟨names, hspells⟩ := hf.exists_names
      exact ⟨op, hop, hf, Document.pairwise_differ_of_wantedOperations hops op hop, names, hspells,
        nodup_map_iff_of_spelt hspells.2⟩
  · obtain ⟨b, hb, hname, hserves⟩ := exists_queryType hops hne hvisit hrun hdeclared
    obtain ⟨names, hspells, hnodup⟩ := hnames b hb
    have hfields : ∀ f ∈ b.fields, ∃ op ∈ ops,
        f.Serves config c₁.graph (TypeBlock.Defines defs.types) op := fun f hf =>
      (hserves f hf).imp fun op ⟨hop, hf'⟩ => ⟨hop, ((hdeclared b hb).fields f hf).serves hf'⟩
    refine ⟨b, hb, hname, hfields, ?_⟩
    rwa [hspells.map_name_of_serves fun f hf => (hserves f hf).imp fun _ hop => hop.2]

/-- A document with two properties that are spelt alike, and with a parameter in two locations. -/
def twinNames : Document :=
  let parameter (name location : String) : Json :=
    .obj [("name", .str name), ("in", .str location), ("schema", .obj [("type", .str "string")])]
  ⟨.obj [
    ("paths", .obj [("/pet", .obj [("get", .obj [
      ("operationId", .str "getPet"),
      ("parameters", .arr [parameter "id" "query", parameter "page" "query", parameter "id" "header"]),
      ("responses", .obj [("200", .obj [("content", .obj [("application/json", .obj [
        ("schema", .obj [("$ref", .str "#/components/schemas/Pet")])])])])])])])]),
    ("components", .obj [("schemas", .obj [
      ("Owner", .obj [("type", .str "object"), ("properties", .obj [
        ("first-name", .obj [("type", .str "string")]),
        ("firstName", .obj [("type", .str "string")])])]),
      ("Pet", .obj [("type", .str "object"), ("properties", .obj [
        ("pet-id", .obj [("type", .str "string")]),
        ("pet_id", .obj [("type", .str "integer")])])])])])]⟩

/-- Fields of one type have the same name, and arguments of another one. -/
theorem nodup_names_iff_twinNames : ∃ ops defs c,
    wantedOperations twinNames {} = .ok ops ∧ ops ≠ [] ∧
      definitions twinNames {} (start Oracle.always) = .ok defs c ∧
      defs.types.map (fun b => b.fields.map fun f => (f.name, f.arguments.map Argument.name)) =
        [[("first_name", []), ("firstName", [])], [("pet_id", []), ("pet_id", [])],
          [("getPet", ["id", "page", "id"])]] ∧
      (∀ b ∈ defs.types, ∃ names, b.Spells c.graph names ∧ names.Nodup ∧
        ((b.fields.map Field.name).Nodup ↔ names.Pairwise fun s t => ¬SpeltAlike s t)) ∧
      (∀ b ∈ defs.types, ∀ f ∈ b.fields, f.arguments = [] ∨
        ∃ op ∈ ops, f.Serves {} c.graph (TypeBlock.Defines defs.types) op ∧
          op.listedParameters.Pairwise Document.Differ ∧ ∃ names, f.Spells op names ∧
            ((f.arguments.map Argument.name).Nodup ↔ names.Pairwise fun s t => ¬SpeltAlike s t)) ∧
      (ops ≠ [] → ∃ b ∈ defs.types, b.name = Config.queryType {} ∧
        (∀ f ∈ b.fields, ∃ op ∈ ops, f.Serves {} c.graph (TypeBlock.Defines defs.types) op) ∧
        (b.fields.map Field.name).Nodup) := by
  obtain ⟨ops, hops, hlength⟩ : ∃ ops, wantedOperations twinNames {} = .ok ops ∧ ops.length = 1 :=
    ⟨_, rfl, by decide +kernel⟩
  obtain ⟨defs, hdefs, hfields⟩ : ∃ defs, definitions twinNames {} (start Oracle.always) = .ok defs _ ∧
      defs.types.map (fun b => b.fields.map fun f => (f.name, f.arguments.map Argument.name)) =
        [[("first_name", []), ("firstName", [])], [("pet_id", []), ("pet_id", [])],
          [("getPet", ["id", "page", "id"])]] := exists_eq_ok_of_map_outcome (by decide +kernel)
  have hne : ops ≠ [] := by
    rintro rfl
    cases hlength
  exact ⟨ops, defs, _, hops, hne, hdefs, hfields, nodup_names_iff hops hdefs⟩

end Conversion

end ApiGraph
