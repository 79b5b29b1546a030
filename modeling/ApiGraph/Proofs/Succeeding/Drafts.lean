import Mathlib.Data.Finset.Card
import Mathlib.Data.Finset.Range
import ApiGraph.Proofs.Declaring.Fields
import ApiGraph.Proofs.Drafting.Documents
import ApiGraph.Proofs.Selecting.Ends
import ApiGraph.Proofs.Succeeding.Values

/-!
# Drafts that succeed

Definitions are drafted without a fault from a graph in which everything was visited, if no value is
unwrapped for ever and all arguments of the fields can be written. Each type that is taken out of the line
makes room for at most one that comes into it, so the line is empty in the end.

* `Context.Definable`, `Graph.Passable` — the nodes that a definition may be written for, and the arguments
  that can be written;
* `Context.Finished.speakable` — type expressions can speak of what was visited;
* `Draft.Tame`, `Draft.load` — what stays so while definitions are drafted, and how many types may still
  have to be written;
* `Drafting.Completes` — a step that succeeds, and leaves no more types to be written than there were;
* `Drafting.completes_field`, `Drafting.completes_generate`, `Drafting.completes_flush` — the steps do;
* `Drafting.completes_definitions` — and so the whole draft does.
-/

namespace ApiGraph

open OrderedMap Context Drafting

theorem Node.Nameable.exists_simpleName {n : Node} (h : n.Nameable) : ∃ name, n.simpleName = .ok name := by
  rcases h with hnull | ⟨s, hs, -⟩
  · refine ⟨none, ?_⟩
    cases hname : n.name <;> rw [hname] at hnull <;> first | (rw [Node.simpleName, hname]; rfl) | cases hnull
  · exact ⟨_, by rw [Node.simpleName, hs]⟩

/-! ## Nodes -/

/-- A node that a definition may be written for: a visited one, which is neither the query object nor a
member of anything. -/
structure Context.Definable (c : Context) (query i : NodeId) : Prop where
  visited : c.Visited i
  ne_query : i ≠ query
  slot : (c.graph.node i).slot? = none

/-- An argument that can be written: it has a name, it is known whether its type needs a selection of its
own, and there is a type expression for it. -/
structure Graph.Passable (g : Graph) (a : NodeId) : Prop where
  name : ∃ s, (g.node a).name = .str s
  slot : ∃ slot, (g.node a).slot? = some slot
  compound : ∃ b, g.isCompound (g.node a).type?.join = .ok b
  spoken : ∃ V, g.Speakable V ∧ ∀ i, (g.node a).type?.join = some i → V i

namespace Context.Finished

variable {d : Document} {query : NodeId} {c : Context} {i t : NodeId}

/-- A node that is no member of anything has no name, or its name is a text. -/
theorem nameable (h : c.Finished d query) (hne : i ≠ query) (hslot : (c.graph.node i).slot? = none) :
    (c.graph.node i).Nameable := by
  by_cases hnull : (c.graph.node i).name.isNull = true
  · exact .inl hnull
  · obtain ⟨-, s, hname, hs⟩ := h.stored (h.named hne hslot (Bool.eq_false_iff.2 hnull))
    exact .inr ⟨s, hname, hs⟩

/-- Type expressions can speak of what was visited. -/
theorem speakable (h : c.Finished d query) :
    c.graph.Speakable fun i => c.Visited i ∧ i ≠ query where
  kind i hi := (h.ripe hi.1).kind
  shape i hi hchoice hends := by
    obtain ⟨A, hw, -⟩ := h.whole
    rw [Graph.spoken?_of_isChoice hchoice] at hends
    rcases hw.inner?_cases hi.1 with ⟨k, hk⟩ | ⟨-, hplain⟩
    · rw [hends] at hk
      cases hk
    · rw [hchoice] at hplain
      cases hplain
  named i hi hfields := h.nameable hi.2 (Graph.slot?_of_hasFields hfields)
  closed i k hi hk := h.led_spoken? hi.1 hk

theorem definable_of_mem_roots (h : c.Finished d query) (hi : i ∈ c.roots) : c.Definable query i := by
  obtain ⟨hvisited, -⟩ := Draft.stored_of_mem_roots h hi
  obtain ⟨found, hfound, hi⟩ := List.mem_filterMap.1 hi
  obtain ⟨e, he, rfl⟩ := List.mem_map.1 hfound
  obtain ⟨ref, j, hbuilt, -, hj⟩ := h.sound.exists_some he
  obtain ⟨-, -, hquery, -, hslot, -⟩ := h.sound.built ref j hbuilt
  obtain rfl : j = i := Option.some.inj (hj.symm.trans hi)
  exact ⟨hvisited, fun he => hquery (by rw [he]), hslot⟩

end Context.Finished

/-! ## The line of types -/

/-- The places of the nodes that were given no name. -/
def Graph.unnamed (g : Graph) (names : OrderedMap NodeId (Option String)) : Finset Nat :=
  {j ∈ Finset.range g.size | contains ⟨j⟩ names = false}

namespace Graph

variable {g : Graph} {names : OrderedMap NodeId (Option String)} {i : NodeId}

theorem mem_unnamed {j : Nat} : j ∈ g.unnamed names ↔ j < g.size ∧ contains ⟨j⟩ names = false := by
  simp [unnamed]

theorem unnamed_insert (name : Option String) :
    g.unnamed (OrderedMap.insert i name names) = (g.unnamed names).erase i.index := by
  ext j
  have hij : (i == (⟨j⟩ : NodeId)) = true ↔ j = i.index := by
    rw [beq_iff_eq, ← NodeId.mk.injEq]
    exact eq_comm
  simp only [mem_unnamed, Finset.mem_erase, contains, get?_insert]
  split
  · next heq => simp [hij.1 heq]
  · next hne =>
    have : j ≠ i.index := fun he => hne (hij.2 he)
    tauto

theorem card_unnamed_le (g : Graph) (names : OrderedMap NodeId (Option String)) :
    (g.unnamed names).card ≤ g.size :=
  (Finset.card_filter_le _ _).trans_eq (Finset.card_range _)

end Graph

namespace Draft

/-- How many types are in the line or may still come into it. -/
def load (D : Draft) : Nat := D.pending.length + (D.context.graph.unnamed D.inlineNames).card

/-- What stays so while definitions are drafted: the graph is the same, and definitions may be written for
the types in the line. -/
structure Tame (c : Context) (query : NodeId) (D : Draft) : Prop where
  graph : D.context.graph = c.graph
  line : ∀ t ∈ D.pending, c.Definable query t

variable {c : Context} {query : NodeId} {D D' : Draft}

theorem Tame.still (h : D.Tame c query) (hs : D.Still D') : D'.Tame c query := by
  refine ⟨hs.graph.trans h.graph, ?_⟩
  rw [hs.pending]
  exact h.line

theorem Still.load_eq (hs : D.Still D') : D'.load = D.load := by
  rw [load, load, hs.graph, hs.names, hs.pending]

end Draft

/-! ## Steps -/

namespace Drafting

variable {α β : Type} {d : Document} {config : Config} {query : NodeId} {c : Context} {D D' : Draft}
  {i p a : NodeId}

/-- A step that succeeds, and leaves no more types to be written than there were. -/
def Completes (c : Context) (query : NodeId) (m : Drafting α) (D : Draft) : Prop :=
  ∃ a D', m D = .ok a D' ∧ D'.Tame c query ∧ D'.load ≤ D.load

theorem completes_of_quiet {m : Drafting α} (hquiet : Quiet m) (hD : D.Tame c query)
    (h : Delivers m D) : Completes c query m D := by
  obtain ⟨a, D', h⟩ := h
  have hstill := hquiet.of_ok h
  exact ⟨a, D', h, hD.still hstill, hstill.load_eq.le⟩

theorem completes_pure (hD : D.Tame c query) (a : α) : Completes c query (pure a : Drafting α) D :=
  ⟨a, D, rfl, hD, le_rfl⟩

/-- Two steps, one after the other. -/
theorem Completes.bind {m : Drafting α} {f : α → Drafting β} (hm : Completes c query m D)
    (hf : ∀ a D', m D = .ok a D' → D'.Tame c query → D'.load ≤ D.load → Completes c query (f a) D') :
    Completes c query (m >>= f) D := by
  obtain ⟨a, D₁, h, hD₁, hload⟩ := hm
  obtain ⟨b, D₂, h', hD₂, hload'⟩ := hf a D₁ h hD₁ hload
  exact ⟨b, D₂, (bind_of_ok h).trans h', hD₂, hload'.trans hload⟩

theorem completes_node_bind {f : Node → Drafting α} (hD : D.Tame c query)
    (h : Completes c query (f (c.graph.node i)) D) : Completes c query (node i >>= f) D := by
  rw [← hD.graph] at h
  exact h

theorem completes_graph_bind {f : Graph → Drafting α} (hD : D.Tame c query)
    (h : Completes c query (f c.graph) D) : Completes c query (graph >>= f) D := by
  rw [← hD.graph] at h
  exact h

theorem completes_get_bind {f : Draft → Drafting α} (h : Completes c query (f D) D) :
    Completes c query (get >>= f) D := h

theorem completes_lift_bind {x : Attempt β} {b : β} {f : β → Drafting α} (hx : x = .ok b)
    (h : Completes c query (f b) D) : Completes c query (lift x >>= f) D := by
  obtain ⟨a, D', hf, hrest⟩ := h
  exact ⟨a, D', (bind_of_ok (lift_of_ok hx)).trans hf, hrest⟩

theorem completes_mapM {f : α → Drafting β} {xs : List α}
    (hf : ∀ x ∈ xs, ∀ D : Draft, D.Tame c query → Completes c query (f x) D) (hD : D.Tame c query) :
    Completes c query (xs.mapM f) D := by
  induction xs generalizing D with
  | nil => exact completes_pure hD []
  | cons x xs ih =>
    obtain ⟨hx, hxs⟩ := List.forall_mem_cons.1 hf
    rw [List.mapM_cons]
    refine (hx D hD).bind fun y D₁ _ hD₁ _ => (ih hxs hD₁).bind fun ys D₂ _ hD₂ _ => ?_
    exact completes_pure hD₂ _

theorem completes_forM {f : α → Drafting Unit} {xs : List α}
    (hf : ∀ x ∈ xs, ∀ D : Draft, D.Tame c query → Completes c query (f x) D) (hD : D.Tame c query) :
    Completes c query (xs.forM f) D := by
  induction xs generalizing D with
  | nil => exact completes_pure hD ()
  | cons x xs ih =>
    obtain ⟨hx, hxs⟩ := List.forall_mem_cons.1 hf
    exact (hx D hD).bind fun _ D₁ _ hD₁ _ => ih hxs hD₁

theorem completes_within {step : Drafting α} (hD : D.Tame c query)
    (h : ∀ D' : Draft, D'.Tame c query → D'.load = D.load → Completes c query step D') :
    Completes c query (within i step) D := by
  have hin : D.Same { D with context := D.context.enter i } := Draft.same_context rfl
  obtain ⟨a, D', hstep, hD', hload⟩ := h _ (hD.still hin.still) hin.still.load_eq
  have hout : D'.Same { D' with context := D'.context.leave } := Draft.same_context (still_leave _).graph
  refine ⟨a, _, by rw [within, hstep], hD'.still hout.still, ?_⟩
  rw [hout.still.load_eq, ← hin.still.load_eq]
  exact hload

theorem completes_trace (hD : D.Tame c query) (tag text : String) :
    Completes c query (run (Run.trace tag text)) D :=
  completes_of_quiet (quiet_run (Run.idle_trace _ _)) hD ⟨(), _, rfl⟩

theorem completes_traced {step : Drafting Unit} (hD : D.Tame c query)
    (h : ∀ D' : Draft, D'.Tame c query → Completes c query step D') :
    Completes c query (traced i step) D := by
  refine completes_within hD fun D₁ hD₁ _ => completes_node_bind hD₁ ?_
  refine (completes_trace hD₁ _ _).bind fun _ D₂ _ hD₂ _ => ?_
  exact (h D₂ hD₂).bind fun _ D₃ _ hD₃ _ => completes_trace hD₃ _ _

/-! ## Arguments -/

theorem exists_argumentType (hconfig : config.Typed) {type : Option NodeId} {b : Bool}
    (hcompound : D.context.graph.isCompound type = .ok b) {V : NodeId → Prop}
    (hV : D.context.graph.Speakable V) (htype : ∀ i, type = some i → V i) :
    ∃ e D', argumentType config type D = .ok e D' := by
  rw [argumentType, bind_of_ok (m := graph) rfl, bind_of_ok (lift_of_ok hcompound)]
  cases b with
  | true =>
    obtain ⟨e, D', h, -⟩ := exists_json hconfig D
    exact ⟨e, D', h⟩
  | false =>
    obtain ⟨e, D', h, -⟩ := exists_typeExpr hconfig hV htype
    exact ⟨e, D', h⟩

theorem delivers_argument (hconfig : config.Typed) (ha : D.context.graph.Passable a) :
    Delivers (argument config a) D := by
  obtain ⟨s, hname⟩ := ha.name
  obtain ⟨slot, hslot⟩ := ha.slot
  obtain ⟨b, hcompound⟩ := ha.compound
  obtain ⟨V, hV, hspoken⟩ := ha.spoken
  have htype : (D.context.graph.node a).type? = some slot.type := by rw [Node.type?, hslot]
  have hjoin : (D.context.graph.node a).type?.join = slot.type := congrArg Option.join htype
  rw [hjoin] at hcompound hspoken
  obtain ⟨e, D', he⟩ := exists_argumentType hconfig hcompound hV hspoken
  refine ⟨⟨a, fieldName s, e, slot.isRequired, slot.default⟩, D', ?_⟩
  rw [argument, bind_of_ok (m := node a) rfl,
    bind_of_ok (lift_of_ok (congrArg expect htype : expect _ = .ok slot.type)), bind_of_ok he,
    bind_of_ok (lift_of_ok (congrArg textOf hname : textOf _ = .ok s)),
    bind_of_ok (lift_of_ok (congrArg expect hslot : expect _ = .ok slot))]
  rfl

theorem completes_arguments (hconfig : config.Typed) {arguments : List (Option NodeId)}
    (h : ∀ a ∈ arguments, ∃ k, a = some k ∧ c.graph.Passable k) (hD : D.Tame c query) :
    Completes c query (arguments.mapM fun a => do argument config (← lift (expect a))) D := by
  refine completes_mapM (fun a ha D hD => ?_) hD
  obtain ⟨k, rfl, hk⟩ := h a ha
  rw [← hD.graph] at hk
  exact completes_lift_bind rfl (completes_of_quiet (quiet_argument config k) hD (delivers_argument hconfig hk))

/-! ## Names -/

theorem completes_takeQueryName (hconfig : config.Typed) (hD : D.Tame c query) : Completes c query (takeQueryName config) D := by
  obtain ⟨s, hs⟩ := hconfig.queryType
  rw [takeQueryName, hs]
  exact completes_lift_bind rfl ⟨(), _, rfl, ⟨hD.graph, hD.line⟩, le_rfl⟩

/-- A shape goes by the name of its choice only if it is a type with fields. -/
theorem hasFields_of_nameVariant {v : NodeId} (h : nameVariant i D = .ok true D')
    (hv : variantOf D.context.graph i = .ok (some v)) : D.context.graph.hasFields v = true := by
  obtain ⟨variant, hvariant, hcases⟩ := nameVariant_cases rfl h
  cases hv.symm.trans hvariant
  rcases hcases with ⟨⟨⟩, -⟩ | ⟨_, name, ⟨⟩, hanonymous, -⟩
  rw [isAnonymous_some, Bool.and_eq_true] at hanonymous
  exact hanonymous.2

section

variable (hc : c.Finished d query)

include hc

theorem completes_takeNames {roots : List NodeId} (hroots : ∀ i ∈ roots, c.Definable query i)
    (hD : D.Tame c query) : Completes c query (takeNames roots) D := by
  have hnames : Delivers (roots.filterMapM fun i => lift (c.graph.node i).simpleName) D := by
    clear hD
    induction roots with
    | nil => exact ⟨[], D, rfl⟩
    | cons i rest ih =>
      obtain ⟨hi, hrest⟩ := List.forall_mem_cons.1 hroots
      obtain ⟨name, hname⟩ := (hc.nameable hi.ne_query hi.slot).exists_simpleName
      rw [List.filterMapM_cons]
      refine Delivers.of_eq ?_ (bind_of_ok (lift_of_ok hname))
      cases name with
      | none => exact ih hrest
      | some s => exact (ih hrest).bind fun names D' _ => ⟨s :: names, D', rfl⟩
  refine completes_graph_bind hD ?_
  refine (completes_of_quiet (quiet_filterMapM_lift _ _) hD hnames).bind fun names D₁ _ hD₁ _ => ?_
  exact ⟨(), _, rfl, ⟨hD₁.graph, hD₁.line⟩, le_rfl⟩

theorem completes_nameInline {value : Option NodeId} (hvalue : ∀ i, value = some i → c.Visited i ∧ i ≠ query)
    (htarget : ∃ r, inlineTarget c.graph (c.graph.size + 2) value = .ok r) (name : String)
    (hD : D.Tame c query) : Completes c query (nameInline value name) D := by
  obtain ⟨target, htarget⟩ := htarget
  refine completes_graph_bind hD (completes_lift_bind htarget ?_)
  cases target with
  | none => exact completes_pure hD ()
  | some t =>
    refine completes_get_bind ?_
    split
    · next hneeds =>
      obtain ⟨hanonymous, hfree⟩ : isAnonymous c.graph (some t) = true ∧
          contains t D.inlineNames = false := by simpa using hneeds
      rw [isAnonymous_some, Bool.and_eq_true] at hanonymous
      obtain ⟨i, rfl⟩ : ∃ i, value = some i := by
        cases value with
        | some i => exact ⟨i, rfl⟩
        | none => cases htarget
      obtain ⟨hvisited, hne⟩ := hc.visited_of_inlineTarget (hvalue i rfl) htarget
      refine ⟨(), _, rfl, ⟨hD.graph, fun j hj => ?_⟩, ?_⟩
      · rcases List.mem_append.1 hj with hj | hj
        · exact hD.line j hj
        · rw [List.mem_singleton.1 hj]
          exact ⟨hvisited, hne, Graph.slot?_of_hasFields hanonymous.2⟩
      · -- the type comes into the line, and has a name from now on
        have hlt : t.index < D.context.graph.size := by
          rw [hD.graph]
          exact hvisited.lt_size
        have hmem : t.index ∈ D.context.graph.unnamed D.inlineNames := Graph.mem_unnamed.2 ⟨hlt, hfree⟩
        have hcard := Finset.card_erase_add_one hmem
        simp only [Draft.load, Graph.unnamed_insert, List.length_append, List.length_singleton]
        omega
    · exact completes_pure hD ()

/-- What a visited value gives a name to is found. -/
theorem exists_inlineTarget (hends : ∀ i, ¬c.graph.Endless i) {value : Option NodeId} (hvalue : ∀ i, value = some i → c.Visited i) :
    ∃ r, inlineTarget c.graph (c.graph.size + 2) value = .ok r := by
  cases value with
  | none => exact ⟨none, rfl⟩
  | some i =>
    obtain ⟨A, hw, -⟩ := hc.whole
    obtain ⟨t, ht, -, hplain⟩ := hw.exists_unwraps (hvalue i rfl) (hends i)
    exact Graph.exists_inlineTarget_of_unwraps ht hplain

theorem completes_nameVariant (hi : c.Definable query i) (hD : D.Tame c query) :
    Completes c query (nameVariant i) D := by
  obtain ⟨variant, hvariant⟩ : ∃ variant, variantOf c.graph i = .ok variant := by
    rw [variantOf]
    split
    · next hbody =>
      obtain ⟨v, hv, -⟩ := hc.oneOf hi.visited hbody
      exact ⟨_, hv⟩
    · next hbody =>
      obtain ⟨v, hv, -⟩ := hc.union hi.visited hbody
      exact ⟨_, hv⟩
    · exact ⟨none, rfl⟩
  refine completes_graph_bind hD (completes_lift_bind hvariant ?_)
  cases variant with
  | none => exact completes_pure hD false
  | some v =>
    dsimp only
    split
    · exact completes_pure hD false
    · obtain ⟨name, hname⟩ := (hc.nameable hi.ne_query hi.slot).exists_simpleName
      refine completes_lift_bind hname (completes_get_bind ?_)
      split
      · exact completes_pure hD _
      · refine ⟨true, _, rfl, ⟨hD.graph, hD.line⟩, ?_⟩
        simp only [Draft.load, Graph.unnamed_insert]
        exact Nat.add_le_add_left (Finset.card_erase_le) _

/-! ## Fields -/

variable (hends : ∀ i, ¬c.graph.Endless i) (hconfig : config.Typed)
  (hargs : ∀ p, c.Visited p → ∀ a ∈ (c.graph.node p).arguments, ∃ k, a = some k ∧ c.graph.Passable k)

include hends hconfig hargs

/-- A field is written for a visited property. -/
theorem completes_field {s : String} (hp : c.Visited p) (hproperty : (c.graph.node p).IsProperty s)
    (owner : String) (hD : D.Tame c query) : Completes c query (field config (.str owner) p) D := by
  obtain ⟨hname, slot, arguments, link, hbody⟩ := hproperty
  have hvalue : ∀ i, (c.graph.node p).valueType? = some i → c.Visited i ∧ i ≠ query := fun i hi =>
    hc.visited_of_valueType? hp hi
  have harguments := hargs p hp
  rw [Node.arguments, hbody] at harguments
  refine completes_node_bind hD ?_
  simp only [hbody]
  refine completes_lift_bind rfl (completes_lift_bind (congrArg wordsOf hname) ?_)
  refine (completes_nameInline hc hvalue (exists_inlineTarget hc hends fun i hi => (hvalue i hi).1) _
    hD).bind fun _ D₁ _ hD₁ _ => ?_
  refine completes_lift_bind (congrArg textOf hname) ?_
  refine (completes_arguments hconfig harguments hD₁).bind fun written D₂ _ hD₂ _ => ?_
  obtain ⟨e, D₃, htype, htext⟩ :=
    exists_typeExpr (D := D₂) hconfig (hD₂.graph ▸ hc.speakable) hvalue
  refine (completes_of_quiet (quiet_typeExpr config _) hD₂ ⟨e, D₃, htype⟩).bind fun e' D₄ htype' hD₄ _ => ?_
  cases htype.symm.trans htype'
  rw [if_neg (by simp [htext])]
  exact completes_pure hD₄ _

/-! ## Definitions -/

theorem completes_writeType (hi : c.Visited i) (name : String) (hD : D.Tame c query) :
    Completes c query (writeType config i (.str name) (values (c.graph.node i).props)) D := by
  refine (completes_mapM (fun p hp D hD => ?_) hD).bind fun fields D₁ _ hD₁ _ => ?_
  · obtain ⟨hvisited, s, hproperty⟩ := hc.property hi hp
    exact completes_field hc hends hconfig hargs hvisited hproperty name hD
  · exact ⟨(), _, rfl, ⟨hD₁.graph, hD₁.line⟩, le_rfl⟩

/-- A type is written, or there is nothing to write. -/
theorem completes_writeObject (hi : c.Definable query i) (hD : D.Tame c query) :
    Completes c query (writeObject config i) D := by
  refine completes_node_bind hD ?_
  split
  · exact completes_pure hD ()
  · have hnameable := hc.nameable hi.ne_query hi.slot
    rw [← hD.graph] at hnameable
    obtain ⟨s, D₁, hname⟩ := exists_typeName hconfig hnameable
    refine (completes_of_quiet (quiet_typeName config i) hD ⟨_, D₁, hname⟩).bind fun name D₂ hname' hD₂ _ => ?_
    cases hname.symm.trans hname'
    exact completes_writeType hc hends hconfig hargs hi.visited s hD₂

/-- A choice is written as its shape, or there is nothing to write. -/
theorem completes_writeVariant {v : NodeId} (hi : c.Definable query i)
    (hv : variantOf c.graph i = .ok (some v)) (hD : D.Tame c query) :
    Completes c query (writeVariant config i (some v)) D := by
  refine (completes_nameVariant hc hi hD).bind fun named D₁ hnamed hD₁ _ => ?_
  cases named with
  | false => exact completes_pure hD₁ ()
  | true =>
    refine completes_get_bind ?_
    split
    · rw [← hD.graph] at hv
      have hfields := hasFields_of_nameVariant hnamed hv
      rw [hD.graph] at hv hfields
      obtain ⟨hvisited, hne⟩ := hc.visited_of_variantOf hi.visited hv
      have hdefinable : c.Definable query v := ⟨hvisited, hne, Graph.slot?_of_hasFields hfields⟩
      refine Completes.bind (m := modify _) ⟨(), _, rfl, ⟨hD₁.graph, hD₁.line⟩, le_rfl⟩ fun _ D₂ _ hD₂ _ => ?_
      exact completes_traced hD₂ fun D₃ hD₃ =>
        completes_writeObject hc hends hconfig hargs hdefinable hD₃
    · exact completes_pure hD₁ ()

theorem completes_generate (hi : c.Definable query i) (hD : D.Tame c query) :
    Completes c query (generate config i) D := by
  refine completes_traced hD fun D hD => completes_graph_bind hD ?_
  have hobject := completes_writeObject hc hends hconfig hargs hi hD
  have hvariant := fun v (hv : variantOf c.graph i = .ok (some v)) =>
    completes_writeVariant hc hends hconfig hargs hi hv hD
  have hslot := hi.slot
  rcases hbody : (c.graph.node i).body with _ | _ | _ | _ | shapes | ⟨_ | _, parts⟩ | _ | _ | _
  · exact absurd hbody (hc.ripe hi.visited).kind
  · exact completes_pure hD ()
  · exact hobject
  · exact completes_pure hD ()
  · obtain ⟨v, hv, -⟩ := hc.union hi.visited hbody
    exact completes_lift_bind hv (hvariant v (by rw [variantOf, hbody]; exact hv))
  · exact hobject
  · obtain ⟨v, hv, -⟩ := hc.oneOf hi.visited hbody
    exact completes_lift_bind hv (hvariant v (by rw [variantOf, hbody]; exact hv))
  · exact completes_pure hD ()
  · rw [Node.slot?, hbody] at hslot
    cases hslot
  · rw [Node.slot?, hbody] at hslot
    cases hslot

/-! ## Whole drafts -/

/-- The line is emptied: each type taken out of it leaves fewer to be written. -/
theorem completes_flushWithin {steps : Nat} (hload : D.load < steps) (hD : D.Tame c query) :
    Completes c query (flushWithin config steps) D := by
  induction steps generalizing D with
  | zero => omega
  | succ steps ih =>
    refine completes_get_bind ?_
    cases hline : D.pending with
    | nil => exact completes_pure hD ()
    | cons t rest =>
      have hpop : ({ D with pending := rest } : Draft).load + 1 = D.load := by
        simp only [Draft.load, hline, List.length_cons]
        omega
      have htame : ({ D with pending := rest } : Draft).Tame c query :=
        ⟨hD.graph, fun j hj => hD.line j (by rw [hline]; exact List.mem_cons_of_mem _ hj)⟩
      have ht : c.Definable query t := hD.line t (by rw [hline]; exact List.mem_cons_self)
      refine Completes.bind (m := modify _) ⟨(), _, rfl, htame, (Nat.le_succ _).trans_eq hpop⟩ fun _ D₁ hrun _ _ => ?_
      cases hrun
      refine (completes_generate hc hends hconfig hargs ht htame).bind fun _ D₂ _ hD₂ hless => ?_
      exact ih (by omega) hD₂

theorem completes_flush (hD : D.Tame c query) : Completes c query (flush config) D := by
  refine completes_get_bind (completes_flushWithin hc hends hconfig hargs ?_ hD)
  have := Graph.card_unnamed_le D.context.graph D.inlineNames
  rw [Draft.load]
  omega

/-- The definitions of what is stored and of the query object are drafted. -/
theorem completes_definitions (hD : D.Tame c query) :
    Completes c query (definitions config c.roots (some query)) D := by
  have hroots : ∀ i ∈ c.roots, c.Definable query i := fun i hi => hc.definable_of_mem_roots hi
  have hfinish : ∀ D : Draft, D.Tame c query → Completes c query (definitions.finish config) D :=
    fun D hD => completes_get_bind (completes_pure hD _)
  obtain ⟨s, hs⟩ := hconfig.queryType
  refine (completes_takeNames hc hroots hD).bind fun _ D₁ _ hD₁ _ => ?_
  refine (completes_takeQueryName hconfig hD₁).bind fun _ D₂ _ hD₂ _ => ?_
  refine (completes_forM (fun i hi D hD => ?_) hD₂).bind fun _ D₃ _ hD₃ _ => ?_
  · exact (completes_nameVariant hc (hroots i hi) hD).bind fun _ D' _ hD' _ => completes_pure hD' ()
  refine (completes_forM (fun i hi D hD => ?_) hD₃).bind fun _ D₄ _ hD₄ _ => ?_
  · exact (completes_generate hc hends hconfig hargs (hroots i hi) hD).bind fun _ D' _ hD' _ =>
      completes_flush hc hends hconfig hargs hD'
  refine completes_node_bind hD₄ ?_
  split
  · exact hfinish D₄ hD₄
  · rw [hs]
    refine (completes_within hD₄ fun D hD _ =>
      completes_writeType hc hends hconfig hargs hc.visited s hD).bind fun _ D₅ _ hD₅ _ => ?_
    exact (completes_flush hc hends hconfig hargs hD₅).bind fun _ D₆ _ hD₆ _ => hfinish D₆ hD₆

end

end Drafting

end ApiGraph
