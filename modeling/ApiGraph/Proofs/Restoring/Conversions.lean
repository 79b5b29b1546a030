import ApiGraph.Proofs.Dialogue.Replay
import ApiGraph.Proofs.Finishing.Completeness
import ApiGraph.Proofs.Restoring.Watching

/-!
# Conversions come back

Between its visits a conversion is inside of no node, and so every visit that it starts is of a sprout
in an orderly state.

* `Context.Beside` — new nodes are made and bound, with no step into a node or out of one;
* `Context.Back`, `Backing` — the way in and out of nodes has come back to where it was;
* `Conversion.tidy_of_milestone` — between visits, properties are under their names;
* `Watched.run` — a conversion whose visits are watched;
* `Restoring` — a computation that restores the stack and its count;
* `Conversion.restoring_calls` — the count is right in all states, all calls restore it and the stack, and
  what is seen in the visits of a conversion is aware.
-/

namespace ApiGraph

open OrderedMap Context Contextual

/-! ## Steps between visits -/

namespace Context

variable {X : NodeId → Prop} {c c' c'' : Context}

/-- Something is done with the graph, in which properties stay under their names, and nothing is told of
the way or of the dialogue. -/
structure Beside (c c' : Context) : Prop where
  stack : c'.stack = c.stack
  composeDepth : c'.composeDepth = c.composeDepth
  told : ∃ new, c'.transcript = new ++ c.transcript ∧ ∀ e ∈ new, e.isMute = true
  tidy : c.graph.Tidy → c'.graph.Tidy

/-- The way in and out of nodes has come back to where it was, and properties are under their names. -/
structure Back (c c' : Context) : Prop where
  stack : c'.stack = c.stack
  composeDepth : c'.composeDepth = c.composeDepth
  inStep : c.InStep → c'.InStep
  tidy : c.graph.Tidy → c'.graph.Tidy

/-- A run that is inside of no node. -/
structure Level (c : Context) : Prop where
  stack : c.stack = []
  composeDepth : c.composeDepth = 0

theorem Beside.refl (c : Context) : c.Beside c := ⟨rfl, rfl, ⟨[], rfl, nofun⟩, id⟩

theorem Beside.trans (h : c.Beside c') (h' : c'.Beside c'') : c.Beside c'' := by
  obtain ⟨new, hnew, hmute⟩ := h.told
  obtain ⟨new', hnew', hmute'⟩ := h'.told
  refine ⟨h'.stack.trans h.stack, h'.composeDepth.trans h.composeDepth, ⟨new' ++ new,
    by rw [hnew', hnew, List.append_assoc], fun e he => ?_⟩, h'.tidy ∘ h.tidy⟩
  rcases List.mem_append.1 he with he | he
  · exact hmute' e he
  · exact hmute e he

theorem Moves.beside (h : c.Moves X c') : c.Beside c' := ⟨h.stack, h.composeDepth, h.told, h.tidy⟩

theorem Back.refl (c : Context) : c.Back c := ⟨rfl, rfl, id, id⟩

theorem Back.trans (h : c.Back c') (h' : c'.Back c'') : c.Back c'' :=
  ⟨h'.stack.trans h.stack, h'.composeDepth.trans h.composeDepth, h'.inStep ∘ h.inStep, h'.tidy ∘ h.tidy⟩

theorem Beside.back (h : c.Beside c') : c.Back c' := by
  obtain ⟨new, hnew, hmute⟩ := h.told
  refine ⟨h.stack, h.composeDepth, fun hstep => ?_, h.tidy⟩
  rw [InStep, h.stack, hnew,
    Transcript.inside_append fun e he => Event.isWay_of_isMute (hmute e he)]
  exact hstep

theorem Retained.back (h : c.Retained c') : c.Back c' := ⟨h.stack, h.composeDepth, h.inStep, h.tidy⟩

theorem Returned.back (h : c.Returned c') : c.Back c' :=
  ⟨h.stack, h.composeDepth, h.inStep, fun htidy => by rwa [h.graph]⟩

theorem Level.back (h : c.Level) (hback : c.Back c') : c'.Level :=
  ⟨hback.stack.trans h.stack, hback.composeDepth.trans h.composeDepth⟩

theorem Level.orderly (h : c.Level) : c.Orderly := orderly_of_stack_eq_nil h.stack h.composeDepth

theorem level_start (oracle : Oracle) : (Conversion.start oracle).Level := ⟨rfl, rfl⟩

end Context

section

variable {α β : Type}

/-- A step that is neither on the way nor part of the dialogue. -/
def Besides (m : Run α) : Prop := ∀ c : Context, c.Beside (after m c)

theorem Moving.besides {X : NodeId → Prop} {m : Run α} (h : Moving X m) : Besides m :=
  fun c => (h c).beside

theorem Besides.bind {m : Run α} {f : α → Run β} (hm : Besides m) (hf : ∀ a, Besides (f a)) :
    Besides (m >>= f) := by
  intro c
  cases hc : outcome m c with
  | ok a =>
    rw [after_bind_of_ok hc]
    exact (hm c).trans (hf a _)
  | error fault =>
    rw [after_bind_of_error hc]
    exact hm c

theorem besides_pure (a : α) : Besides (pure a : Run α) := fun c => .refl c

theorem besides_lift (a : Attempt α) : Besides (Run.lift a) :=
  Moving.besides (X := fun _ => False) (Run.moving_lift a)

/-- A node is changed that keeps its name and its properties. -/
theorem besides_update (i : NodeId) {f : Node → Node} (hname : ∀ n, (f n).name = n.name)
    (hprops : ∀ n, (f n).props = n.props) (htitled : ∀ n, n.Titled → (f n).Titled) :
    Besides (Run.update i f) :=
  fun _ => ⟨rfl, rfl, ⟨[], rfl, nofun⟩,
    fun htidy => htidy.update_of_props (hname _) (hprops _) (htitled _)⟩

theorem besides_alloc {n : Node} (hprops : n.props = []) (htitled : n.Titled) : Besides (Run.alloc n) :=
  fun _ => ⟨rfl, rfl, ⟨[], rfl, nofun⟩, fun htidy => htidy.alloc hprops htitled⟩

theorem besides_forM {f : α → Run Unit} (hf : ∀ a, Besides (f a)) (xs : List α) :
    Besides (xs.forM f) := by
  induction xs with
  | nil => exact besides_pure ()
  | cons x xs ih =>
    show Besides (f x >>= fun _ => xs.forM f)
    exact (hf x).bind fun _ => ih

/-- A property is bound under its name. -/
theorem besides_put (i prop : NodeId) : Besides (Run.put i prop) := by
  intro c
  cases hkey : (c.graph.node prop).name.key? with
  | none =>
    rw [after_of_error (put_of_key_eq_none hkey i)]
    exact .refl c
  | some key =>
    rw [after_of_ok (put_of_key_eq_some hkey i)]
    exact ⟨rfl, rfl, ⟨[], rfl, nofun⟩, fun htidy => htidy.put (Graph.called_of_key hkey)⟩

namespace Build

/-- A new node with a slot. -/
theorem besides_fillSlot {n : Node} (schema : Json) {body : NodeId → Body} (hprops : n.props = [])
    (hnew : n.Titled) (htitled : ∀ type, ({ n with body := body type } : Node).Titled) :
    Besides (do
      let i ← Run.alloc n
      fillSlot i schema body
      return i) := by
  intro c
  have halloc : Run.alloc n c = .ok (c.graph.alloc n).1 { c with graph := (c.graph.alloc n).2 } := rfl
  rw [after, bind_of_ok halloc]
  cases hread : Schema.read ((c.graph.alloc n).2.owner (some (c.graph.alloc n).1)) schema with
  | error fault =>
    have hfill : fillSlot (c.graph.alloc n).1 schema body { c with graph := (c.graph.alloc n).2 } = _ :=
      bind_of_error (fromSchema_of_read_eq_error hread)
    rw [bind_of_error hfill]
    exact ⟨rfl, rfl, ⟨[], rfl, List.forall_mem_nil _⟩, fun htidy => htidy.alloc hprops hnew⟩
  | ok declared =>
    have hfill : fillSlot (c.graph.alloc n).1 schema body { c with graph := (c.graph.alloc n).2 } = _ :=
      bind_of_ok (fromSchema_of_read_eq_ok hread)
    rw [bind_of_ok hfill]
    refine ⟨rfl, rfl, ⟨[_], rfl, fun e he => ?_⟩, fun htidy => ?_⟩
    · rw [List.mem_singleton.1 he]
      rfl
    · exact (Graph.tidy_plant _ _ (htidy.alloc hprops hnew) declared).fill rfl rfl (htitled _)

/-- A new property, which is called by a text. -/
theorem besides_fromProperty (parent : Option NodeId) (name : String) (schema required : Json) :
    Besides (fromProperty parent (.str name) schema required) := by
  unfold fromProperty
  dsimp only
  split
  · exact besides_alloc rfl (Node.titled_of_name rfl)
  · exact besides_fillSlot schema rfl (Node.titled_of_name rfl) fun _ => Node.titled_of_name rfl

theorem besides_fromParameter (parent : Option NodeId) (name schema required : Json) :
    Besides (fromParameter parent name schema required) :=
  (besides_lift _).bind fun _ =>
    besides_fillSlot schema rfl (by rintro _ _ _ ⟨⟩) fun _ => by rintro _ _ _ ⟨⟩

end Build

namespace Conversion

theorem besides_operationField (query : NodeId) (op : Operation) :
    Besides (operationField query op) := by
  refine (besides_lift _).bind fun name => (Build.besides_fromProperty _ _ _ _).bind fun field => ?_
  refine Besides.bind ?_ fun _ => besides_pure _
  exact besides_forM (fun parameter => ((besides_lift _).bind fun _ =>
    Build.besides_fromParameter _ _ _ _).bind fun _ =>
    besides_update _ (Node.name_addArgument _) (Node.props_addArgument _) fun _ h =>
      h.addArgument _) _

theorem besides_newQuery (config : Config) : Besides (newQuery config) :=
  besides_alloc rfl (Node.titled_of_slot?_eq_none rfl)

theorem besides_buildQuery (config : Config) (operations : List Operation) :
    Besides (buildQuery config operations) := by
  refine (besides_newQuery config).bind fun query => Besides.bind ?_ fun _ => besides_pure _
  exact besides_forM (fun op => (besides_operationField query op).bind fun _ => besides_put _ _) _

end Conversion

end

/-! ## The way back -/

section

variable {σ α β : Type} [Contextual σ]

/-- A computation that comes back, whether it succeeds or not. -/
def Backing (m : EStateM Fault σ α) : Prop := ∀ s, (context s).Back (context (after m s))

theorem Returning.backing {m : EStateM Fault σ α} (h : Returning m) : Backing m :=
  fun s => (h s).back

theorem Backing.bind {m : EStateM Fault σ α} {f : α → EStateM Fault σ β} (hm : Backing m)
    (hf : ∀ a, Backing (f a)) : Backing (m >>= f) := by
  intro s
  cases hs : outcome m s with
  | ok a =>
    rw [after_bind_of_ok hs]
    exact (hm s).trans (hf a _)
  | error fault =>
    rw [after_bind_of_error hs]
    exact hm s

theorem backing_forM {f : α → EStateM Fault σ PUnit} (hf : ∀ a, Backing (f a)) (xs : List α) :
    Backing (xs.forM f) := by
  induction xs with
  | nil => exact fun _ => .refl _
  | cons x xs ih =>
    show Backing (f x >>= fun _ => xs.forM f)
    exact (hf x).bind fun _ => ih

theorem Backing.of_ok {m : EStateM Fault σ α} {a : α} {s s' : σ} (h : Backing m)
    (hm : m s = .ok a s') : (context s).Back (context s') := by
  have hback := h s
  rwa [after_of_ok hm] at hback

end

theorem Besides.backing {α : Type} {m : Run α} (h : Besides m) : Backing m := fun c => (h c).back

namespace Visit

theorem backing_visit (d : Document) (i : NodeId) : Backing (visit d i) :=
  fun c => (retained_visit d i c).back

theorem backing_resolveRef (d : Document) (owner : Option NodeId) (ref : Json) :
    Backing (resolveRef d owner ref) :=
  fun c => (retained_resolveRef d owner ref c).back

end Visit

namespace Selecting

theorem backing_run {α : Type} {step : Run α} (h : Backing step) : Backing (run step) := by
  intro s
  rw [run_eq_through, after_through, context_withContext]
  exact h s.context

end Selecting

namespace Conversion

variable {d : Document} {query i : NodeId} {op : Operation} {A : NodeId → Prop} {c c' : Context}

theorem backing_askYesNo (text : String) : Backing (Run.askYesNo text) :=
  fun c => (spoke_askYesNo text c).retained.back

theorem backing_visitOperation (d : Document) (query : NodeId) (op : Operation) :
    Backing (visitOperation d query op) :=
  (besides_operationField query op).backing.bind fun field =>
    (besides_put query field).backing.bind fun _ =>
      (Visit.backing_visit d field).bind fun _ => (returning_pure field).backing

theorem backing_selectOperation (d : Document) (query : NodeId) (op : Operation) :
    Backing (selectOperation d query op) := by
  refine (Selecting.backing_run (backing_askYesNo _)).bind fun wanted => ?_
  split
  · refine (Selecting.returning_run (Run.returning_log _ _ _)).backing.bind fun _ => ?_
    exact (Selecting.backing_run (backing_visitOperation d query op)).bind fun field =>
      (Selecting.returning_select (some field)).backing
  · exact (Selecting.returning_run (Run.returning_log _ _ _)).backing

/-- Right after a call from outside of any visit, all properties have names and are bound under them. -/
theorem tidy_of_milestone {config : Config} {oracle : Oracle} {root : Option NodeId} (h : Milestone d config oracle root c) : c.graph.Tidy := by
  have hresolve : ∀ refs : List String, Backing (refs.forM fun ref => do
      let _ ← Visit.resolveRef d none (.str ref) : Run Unit) := fun refs =>
    backing_forM (fun ref => (Visit.backing_resolveRef d none _).bind fun _ => (returning_pure ()).backing) refs
  cases h with
  | resolved named order run => exact ((hresolve _).of_ok run).tidy Graph.tidy_empty
  | queried run =>
    obtain ⟨refs, operations, c₁, c₂, hschemas, -, hbuild, hvisit⟩ := steps_of_visitAll run
    have hresolved := ((hresolve refs).of_ok hschemas).tidy Graph.tidy_empty
    have hbuilt := ((besides_buildQuery config operations).backing.of_ok hbuild).tidy hresolved
    exact ((Visit.backing_visit d _).of_ok hvisit).tidy hbuilt
  | @selected query field c₀ c₁ c₂ c before rest op s new wanted run answer said visit =>
    have hnew := ((besides_newQuery config).backing.of_ok new).tidy Graph.tidy_empty
    have hbefore := ((backing_forM (backing_selectOperation d query) before).of_ok run).tidy hnew
    have hasked := ((backing_askYesNo _).of_ok answer).tidy hbefore
    have hsaid := ((Run.returning_log _ _ _).backing.of_ok said).tidy hasked
    exact ((backing_visitOperation d query op).of_ok visit).tidy hsaid

/-- The field of an operation is a sprout when its visit begins. -/
theorem budding_of_field (h : c.AtRest A d (some query)) {c₁ : Context}
    (hfield : operationField query op c = .ok i c₁) (hput : Run.put query i c₁ = .ok () c') :
    c'.Sound d (some query) ∧ ∃ top, c'.Budding i top := by
  obtain ⟨hsown, -⟩ := sown_operationField hfield
  obtain ⟨s, hprop⟩ := hsown.property
  have hqfield : query.index < i.index := by
    rw [hsown.index]
    exact (h.sound.handmade query rfl).1
  rw [put_eq hprop.1] at hput
  cases hput
  exact ⟨(hsown.sound h.sound).put _ _, c₁.graph.size, hsown.sprout.update_of_lt hqfield _,
    (hsown.budding h.sound).fresh⟩

end Conversion

/-! ## Watched conversions -/

namespace Watched

variable (seen : Run Unit) (d : Document)

/-- Visits a node and everything below it, and is watched. -/
def visit (i : NodeId) : Run Unit := do
  Visit.visitWatched seen d (Visit.depthBound d (← get).graph) i

/-- The node for a reference, built and visited on first use. -/
def resolveRef (owner : Option NodeId) (ref : Json) : Run NodeId := do
  Visit.resolve d (Visit.visitWatched seen d (Visit.depthBound d (← get).graph)) owner ref

/-- Resolves all named schemas of a document. -/
def resolveSchemas : Run Unit := do
  let schemas ← Run.lift d.schemas
  (keys schemas).forM fun ref => do
    let _ ← resolveRef seen d none (.str ref)

/-- Everything that definitions speak of. -/
def visitAll (config : Config) : Run NodeId := do
  resolveSchemas seen d
  let operations ← Run.lift (Conversion.wantedOperations d config)
  let query ← Conversion.buildQuery config operations
  visit seen d query
  return query

/-- The type definitions of a document. -/
def definitions (config : Config) : Run Definitions := do
  let query ← visitAll seen d config
  let roots ← Run.lift ((values (← get).types).mapM expect)
  Conversion.drafting (Drafting.definitions config roots (some query))

/-- The field of an operation as a property of the query object, visited. -/
def visitOperation (query : NodeId) (op : Operation) : Run NodeId := do
  let field ← Conversion.operationField query op
  Run.put query field
  visit seen d field
  return field

/-- Selects an operation if the oracle wants it. -/
def selectOperation (query : NodeId) (op : Operation) : Selecting Unit := do
  if ← Selecting.run (Run.askYesNo ("Visit path " ++ op.text ++ "?")) then
    Selecting.run (Run.log .info .conversion ("Visiting path " ++ op.text))
    let field ← Selecting.run (visitOperation seen d query op)
    Selecting.select (some field)
  else
    Selecting.run (Run.log .info .conversion ("Skipping path " ++ op.text))

/-- The selections of the operations that the oracle wants. -/
def selection (config : Config) : Run (List SelectionLine) := do
  let query ← Conversion.newQuery config
  let operations ← Run.lift (Conversion.wantedOperations d config)
  Conversion.selecting (operations.forM (selectOperation seen d query))

/-- The text of a conversion whose visits are watched. -/
def run (mode : Mode) (config : Config) : Run String :=
  match mode with
  | .definitions => do return (← definitions seen d config).render config
  | .selection => do return SelectionLine.renderAll (← selection seen d config)

end Watched

namespace Conversion

variable {seen : Run Unit} {d : Document} {q : Option NodeId} {query i : NodeId} {c c' : Context}
  {config : Config} {top : Nat} {A : NodeId → Prop}

theorem watched_visit (hseen : ∀ c, Aware c → seen c = .ok () c) (hs : c.Sound d q)
    (hb : c.Budding i top) (hc : c.Level) : Watched.visit seen d i c = Visit.visit d i c :=
  Visit.visitWatched_eq hseen (Visit.depthBound d c.graph) hs hb hc.orderly

theorem watched_resolveRef (hseen : ∀ c, Aware c → seen c = .ok () c) (hs : c.Sound d q)
    (hc : c.Level) (owner : Option NodeId) (ref : Json) :
    Watched.resolveRef seen d owner ref c = Visit.resolveRef d owner ref c := by
  refine (Visit.resolve_eq_of_visits (G := c.Retained)
    (v := Visit.visitWithin d (Visit.depthBound d c.graph))
    (visits_visitWithin _) (lasting_retained c) (fun c' j top hc' hs' hb' => ⟨?_, ?_⟩)
    hs (.refl c) owner ref).1
  · exact Visit.visitWatched_eq hseen _ hs' hb' (hc.orderly.restored hc'.toRestored)
  · exact hc'.trans (Visit.retained_visitWithin d _ j c')

theorem watched_resolveEach (hseen : ∀ c, Aware c → seen c = .ok () c) (hs : c.Sound d q)
    (hc : c.Level) (refs : List String) :
    (refs.forM fun ref => do
      let _ ← Watched.resolveRef seen d none (.str ref) : Run Unit) c =
    (refs.forM fun ref => do
      let _ ← Visit.resolveRef d none (.str ref) : Run Unit) c := by
  induction refs generalizing c with
  | nil => rfl
  | cons ref rest ih =>
    refine bind_congr_of_eq ?_ fun u c₁ hone => ?_
    · exact bind_congr_of_eq (watched_resolveRef hseen hs hc none _) fun _ _ _ => rfl
    · obtain ⟨i, c₂, hresolve, hone⟩ := bind_eq_ok_iff.1 hone
      cases hone
      have hs₁ := (Visit.works_resolveRef hs none (.str ref)).sound
      rw [after_of_ok hresolve] at hs₁
      exact ih hs₁ (hc.back ((Visit.backing_resolveRef d none _).of_ok hresolve))

theorem watched_visitAll (hseen : ∀ c, Aware c → seen c = .ok () c) (oracle : Oracle) :
    Watched.visitAll seen d config (start oracle) = visitAll d config (start oracle) := by
  have hstart := atRest_start d oracle
  refine bind_congr_of_eq ?_ fun u c₁ hschemas => ?_
  · refine bind_congr_of_eq rfl fun schemas c₁ hlift => ?_
    obtain ⟨-, rfl⟩ := Visit.eq_ok_of_lift hlift
    exact watched_resolveEach hseen hstart.sound (level_start oracle) _
  obtain ⟨schemas, c₀, hlift, hschemas⟩ := bind_eq_ok_iff.1 hschemas
  obtain ⟨-, rfl⟩ := Visit.eq_ok_of_lift hlift
  have hrest := atRest_resolveEach hstart hschemas
  have hlevel : c₁.Level := by
    refine (level_start oracle).back (Backing.of_ok ?_ hschemas)
    exact backing_forM (fun ref => (Visit.backing_resolveRef d none _).bind fun _ =>
      (returning_pure ()).backing) _
  refine bind_congr_of_eq rfl fun operations c₂ hwanted => ?_
  obtain ⟨-, rfl⟩ := Visit.eq_ok_of_lift hwanted
  refine bind_congr_of_eq rfl fun query c₃ hbuild => ?_
  obtain ⟨B, hrooted⟩ := rooted_buildQuery hrest hbuild
  refine bind_congr_of_eq ?_ fun _ _ _ => rfl
  exact watched_visit hseen hrooted.rest.sound hrooted.budding
    (hlevel.back ((besides_buildQuery _ _).backing.of_ok hbuild))

theorem watched_visitOperation (hseen : ∀ c, Aware c → seen c = .ok () c)
    (h : c.AtRest A d (some query)) (hc : c.Level) (op : Operation) :
    Watched.visitOperation seen d query op c = visitOperation d query op c := by
  refine bind_congr_of_eq rfl fun field c₁ hfield => bind_congr_of_eq rfl fun u c₂ hput => ?_
  obtain ⟨hs, top, hb⟩ := budding_of_field h hfield hput
  refine bind_congr_of_eq (watched_visit hseen hs hb ?_) fun _ _ _ => rfl
  exact (hc.back ((besides_operationField _ _).backing.of_ok hfield)).back
    ((besides_put _ _).backing.of_ok hput)

theorem selectingRun_congr {α : Type} {m m' : Run α} {s : SelectionDraft}
    (h : m s.context = m' s.context) : Selecting.run m s = Selecting.run m' s := by
  rw [Selecting.run, Selecting.run, h]

theorem watched_selectOperation {s : SelectionDraft} (hseen : ∀ c, Aware c → seen c = .ok () c)
    (h : s.context.AtRest A d (some query)) (hc : s.context.Level) (op : Operation) :
    Watched.selectOperation seen d query op s = selectOperation d query op s := by
  refine bind_congr_of_eq rfl fun wanted s₁ hask => ?_
  have hback₁ : s₁.context.Level :=
    hc.back ((Selecting.backing_run (backing_askYesNo _)).of_ok hask)
  have hroams₁ := (Selecting.roaming_run (Run.idle_askYesNo _)).of_ok hask
  cases wanted with
  | false => rfl
  | true =>
    refine bind_congr_of_eq rfl fun u s₂ hlog => bind_congr_of_eq ?_ fun _ _ _ => rfl
    have hback₂ := hback₁.back ((Selecting.returning_run (Run.returning_log _ _ _)).backing.of_ok hlog)
    have hroams₂ := (Selecting.roaming_run (Run.idle_log _ _ _)).of_ok hlog
    exact selectingRun_congr (watched_visitOperation hseen ((h.roams hroams₁).roams hroams₂) hback₂ op)

theorem watched_selectEach {s : SelectionDraft} (hseen : ∀ c, Aware c → seen c = .ok () c)
    (h : s.context.AtRest A d (some query)) (hq : ¬s.context.Visited query) (hc : s.context.Level)
    (operations : List Operation) :
    operations.forM (Watched.selectOperation seen d query) s =
      operations.forM (selectOperation d query) s := by
  induction operations generalizing s A with
  | nil => rfl
  | cons op rest ih =>
    refine bind_congr_of_eq (watched_selectOperation hseen h hc op) fun u s₁ hop => ?_
    obtain ⟨B, hB, hqB⟩ := Selecting.atRest_selectOperation h hq hop
    exact ih hB hqB (hc.back ((backing_selectOperation d query op).of_ok hop))

theorem watched_selection (hseen : ∀ c, Aware c → seen c = .ok () c) (oracle : Oracle) :
    Watched.selection seen d config (start oracle) = selection d config (start oracle) := by
  refine bind_congr_of_eq rfl fun query c₁ hnew => bind_congr_of_eq rfl fun operations c₂ hwanted => ?_
  obtain ⟨-, rfl⟩ := Visit.eq_ok_of_lift hwanted
  have hrooted := (atRest_start d oracle).newQuery hnew
  have hq : ¬c₁.Visited query := by
    rw [Visited, hrooted.budding.sprout.bud.unvisited]
    exact Bool.false_ne_true
  have hlevel := (level_start oracle).back ((besides_newQuery config).backing.of_ok hnew)
  rw [selecting, selecting, watched_selectEach (s := { context := c₁ }) hseen hrooted.rest hq hlevel]

theorem watched_run (hseen : ∀ c, Aware c → seen c = .ok () c) (mode : Mode) (oracle : Oracle) :
    Watched.run seen d mode config (start oracle) = run mode d config (start oracle) := by
  cases mode with
  | definitions =>
    refine bind_congr_of_eq ?_ fun _ _ _ => rfl
    exact bind_congr_of_eq (watched_visitAll hseen oracle) fun _ _ _ => rfl
  | selection => exact bind_congr_of_eq (watched_selection hseen oracle) fun _ _ _ => rfl

end Conversion

/-! ## All calls -/

/-- A computation that ends inside of the same nodes, in the same order, and with the same count of
compositions as it began, whether it succeeds or not. -/
def Restoring {σ α : Type} [Contextual σ] (m : EStateM Fault σ α) : Prop :=
  ∀ s, (context (after m s)).stack = (context s).stack ∧
    (context (after m s)).composeDepth = (context s).composeDepth

theorem Backing.restoring {σ α : Type} [Contextual σ] {m : EStateM Fault σ α} (h : Backing m) :
    Restoring m :=
  fun s => ⟨(h s).stack, (h s).composeDepth⟩

namespace Conversion

/-- In all states that calls lead to, however they ended, the run counts the compositions on the stack.
Every visit, every resolved reference, every draft and every selection restores the stack and the count,
from any state and for any node. And whatever is checked during the visits of a conversion, as long as
it holds whenever to be inside a composition is what the stack says it is, makes no difference. -/
theorem restoring_calls (d : Document) :
    (∀ c, Attained d c → c.composeDepth = c.stack.countP c.isComposition) ∧
    (∀ i, Restoring (Visit.visit d i)) ∧
    (∀ owner ref, Restoring (Visit.resolveRef d owner ref)) ∧
    (∀ config roots query, Restoring (Drafting.definitions config roots query)) ∧
    (∀ config i, Restoring (Drafting.generate config i)) ∧
    (∀ roots, Restoring (Selecting.selectAll roots)) ∧
    (∀ value, Restoring (Selecting.select value)) ∧
    ∀ seen : Run Unit, (∀ c, Aware c → seen c = .ok () c) → ∀ mode config oracle,
      Watched.run seen d mode config (start oracle) = run mode d config (start oracle) :=
  ⟨fun _ h => h.counted.composeDepth, fun i => (Visit.backing_visit d i).restoring,
    fun owner ref => (Visit.backing_resolveRef d owner ref).restoring,
    fun config roots query => (Drafting.returning_definitions config roots query).backing.restoring,
    fun config i => (Drafting.returning_generate config i).backing.restoring,
    fun roots => (Selecting.returning_selectAll roots).backing.restoring,
    fun value => (Selecting.returning_select value).backing.restoring,
    fun _ hseen mode _ oracle => watched_run hseen mode oracle⟩

/-- Checks for all nodes on the stack whether they are inside another one that is a composition. -/
def checkStack : Run Unit := do
  let c ← get
  unless c.stack.all fun i =>
      c.inComposition i == c.stack.any fun j => j != i && c.isComposition j do
    throw .malformed

theorem checkStack_eq {c : Context} (h : c.Aware) : checkStack c = .ok () c := by
  have hall : (c.stack.all fun i =>
      c.inComposition i == c.stack.any fun j => j != i && c.isComposition j) = true := by
    refine List.all_eq_true.2 fun i _ => beq_iff_eq.2 (Bool.eq_iff_iff.2 ((h i).trans ?_))
    simp [List.any_eq_true]
  show (unless _ do throw _ : Run Unit) c = _
  rw [hall]
  rfl

theorem restoring_calls_oneComposition :
    let c := (after (Visit.resolveRef oneComposition none (.str "#/components/schemas/Pet"))
      (start .always)).enter (some ⟨0⟩)
    c.stack = [some ⟨0⟩] ∧ c.stack.countP c.isComposition = 1 ∧
      Watched.run checkStack oneComposition .definitions {} (start .always) =
        run .definitions oneComposition {} (start .always) := by
  intro c
  obtain ⟨hcount, -, -, -, -, -, -, hseen⟩ := restoring_calls oneComposition
  have hreached : Attained oneComposition c := by
    refine .enter _ (fun j hj => ?_) (.resolve _ _ (.start rfl rfl))
    obtain rfl := Option.some.inj hj
    decide +kernel
  refine ⟨by decide +kernel, ?_, hseen checkStack (fun _ => checkStack_eq) _ _ _⟩
  rw [← hcount c hreached]
  decide +kernel

end Conversion

end ApiGraph
