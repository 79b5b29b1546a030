import ApiGraph.Proofs.Selecting.Walk
import ApiGraph.Proofs.Succeeding.Values

/-!
# Selections that succeed

Where the graph says which lines are written, the selection writes them, within the depth that it is
given. No type is gone into twice on a way, and there is one field at most between two types.

* `Graph.Sorted` — types and fields, of which each leads to the other;
* `Selecting.Yields` — within any depth that is enough for the stack, lines are written;
* `Graph.Selects.yields` — they are, when the graph says so;
* `Selecting.exists_select` — so the selection of a field succeeds.
-/

namespace ApiGraph

open OrderedMap Context

/-- Types, which are no fields and can be mentioned, and fields, whose values are types. -/
structure Graph.Sorted (g : Graph) (T F : NodeId → Prop) : Prop where
  lt_size : ∀ {i}, T i → i.index < g.size
  mention : ∀ {i}, T i → ∃ words, Selecting.mention g i = .ok words
  kind : ∀ {i}, T i → (g.node i).body ≠ .bare
  type : ∀ {i}, T i → ¬(g.node i).body.IsField
  peeled : ∀ {i k}, T i → g.peeled? i = some (some k) → T k
  union : ∀ {i u parts}, T i → (g.node i).body = .composed .oneOf parts →
    g.unionOf i = .ok (some u) → T u
  props : ∀ {i}, T i → ∀ p ∈ values (g.node i).props, F p
  field : ∀ {p}, F p → (g.node p).body.IsField
  value : ∀ {p i}, F p → (g.node p).valueType? = some i → T i

/-- Lines are written for types and fields. -/
def SelectionTask.Fits (T F : NodeId → Prop) : SelectionTask → Prop
  | .field p => F p
  | .value v => ∀ i, v = some i → T i
  | .fields ps => ∀ p ∈ ps, F p

theorem Graph.Sorted.target {g : Graph} {T F : NodeId → Prop} (h : g.Sorted T F)
    {value : Option NodeId} {t : NodeId} (hvalue : ∀ i, value = some i → T i)
    (ht : g.Targets value t) : T t := by
  obtain ⟨n, hway⟩ := ht
  exact (hway.congr hvalue (fun i k hi => h.peeled hi) fun _ _ => rfl).2

namespace Selecting

variable {α : Type} {g : Graph} {s s' : SelectionDraft} {i p t : NodeId} {ls more : List SelectionLine}
  {select : Selector} {stack : List (Option NodeId)} {value : Option NodeId}

/-! ## Steps -/

theorem lift_of_ok {a : Attempt α} {x : α} (h : a = .ok x) (s : SelectionDraft) :
    lift a s = .ok x s := by
  rw [h]
  rfl

/-- A step of the run that writes nothing. -/
theorem exists_run {step : Run α} {a : α} {c : Context} (hidle : Idle step) (hbalanced : Balanced step)
    (h : step s.context = .ok a c) : ∃ s', run step s = .ok a s' ∧ Written s s' [] := by
  have hrun : run step s = .ok a { s with context := c } := by
    rw [run, h]
  exact ⟨_, hrun, written_run hidle hbalanced hrun⟩

theorem exists_log (level : Level) (channel : Channel) (text : String) (s : SelectionDraft) :
    ∃ s', run (Run.log level channel text) s = .ok () s' ∧ Written s s' [] :=
  exists_run (Run.idle_log _ _ _) (Run.silent_log _ _ _).balanced rfl

theorem exists_trace (tag text : String) (s : SelectionDraft) :
    ∃ s', run (Run.trace tag text) s = .ok () s' ∧ Written s s' [] :=
  exists_run (Run.idle_trace _ _) (Run.silent_trace _ _).balanced rfl

/-- A step inside a node succeeds when it does there. -/
theorem exists_within {step : Selecting Unit}
    (h : ∃ t, step { s with context := s.context.enter (some i) } = .ok () t ∧
      Written { s with context := s.context.enter (some i) } t ls) :
    ∃ s', within i step s = .ok () s' ∧ Written s s' ls := by
  obtain ⟨t, hstep, hwritten⟩ := h
  have hwithin : within i step s = .ok () { t with context := t.context.leave } := by
    rw [within, hstep]
  obtain ⟨t', hstep', hall⟩ := exists_of_within hwithin
  rw [hstep] at hstep'
  cases hstep'
  exact ⟨_, hwithin, hall ls hwritten⟩

theorem step_of_field (hgraph : s.context.graph = g) (ht : g.Targets value p)
    (hp : (g.node p).body.IsField) : step select value s = selectField select p (g.node p) s := by
  rw [step, bind_of_ok (m := context) rfl, hgraph,
    bind_of_ok (lift_of_ok (Graph.selectionTarget_eq_iff.2 ht) s)]
  obtain ⟨slot, arguments, link, hbody⟩ := hp
  simp only [hbody]

theorem step_of_type (hgraph : s.context.graph = g) (ht : g.Targets value i)
    (hi : (g.node i).body.IsType) : step select value s = selectMembers select i (g.node i) s := by
  rw [step, bind_of_ok (m := context) rfl, hgraph,
    bind_of_ok (lift_of_ok (Graph.selectionTarget_eq_iff.2 ht) s)]
  obtain hbody | ⟨kind, parts, hbody⟩ := hi <;> simp only [hbody]

/-- There is nothing to select of a single value. -/
theorem step_of_nothing (hgraph : s.context.graph = g) (ht : g.Targets value i)
    (hkind : (g.node i).body ≠ .bare) (htype : ¬(g.node i).body.IsType)
    (hfield : ¬(g.node i).body.IsField) : step select value s = .ok () s := by
  rw [step, bind_of_ok (m := context) rfl, hgraph,
    bind_of_ok (lift_of_ok (Graph.selectionTarget_eq_iff.2 ht) s)]
  rcases hbody : (g.node i).body with _ | _ | _ | _ | _ | _ | _ | _ | _ <;>
    simp [hbody, Body.IsField, Body.IsType] at hkind htype hfield <;> simp only [hbody] <;> rfl

/-! ## Fields -/

/-- Fields that lead back are left out. -/
theorem exists_skipped (hgraph : s.context.graph = g) (hcompound : g.IsCompound (g.node p).valueType?)
    (ht : g.Targets (g.node p).valueType? t) (hinside : some t ∈ s.context.stack)
    (hmention : ∃ words, mention g t = .ok words) :
    ∃ s', selectField select p (g.node p) s = .ok () s' ∧ Written s s' [] := by
  obtain ⟨words, hwords⟩ := hmention
  obtain ⟨s', hlog, hwritten⟩ := exists_log .warning .selection
    ("Possible recursion! Skipping field '" ++ (g.node p).name.display ++ "' of type " ++ words) s
  refine ⟨s', ?_, hwritten⟩
  rw [selectField, bind_of_ok (m := context) rfl]
  rw [hgraph, bind_of_ok (lift_of_ok (Graph.isCompound_eq_true_iff.2 hcompound) s), if_pos rfl,
    bind_of_ok (lift_of_ok (Graph.selectionTarget_eq_iff.2 ht) s)]
  dsimp only
  rw [if_pos (by simpa using hinside), bind_of_ok (lift_of_ok hwords s), hlog]

/-- A value that does not lead back is selected in braces. -/
theorem exists_braces (hgraph : s.context.graph = g) (hcompound : g.IsCompound (g.node p).valueType?)
    (ht : g.Targets (g.node p).valueType? t) (houtside : some t ∉ s.context.stack) {name : String}
    (hname : nameOf (g.node p) = .ok name)
    (hvalue : ∀ s₁ : SelectionDraft, s₁.context = s.context →
      ∃ s', select (g.node p).valueType? s₁ = .ok () s' ∧ Written s₁ s' ls) :
    ∃ s', selectField select p (g.node p) s = .ok () s' ∧
      Written s s' (.opening p s.context.stack.length name :: (ls ++ [.closing p s.context.stack.length])) := by
  have hopening : write (.opening p s.context.stack.length name) s =
    .ok () { s with lines := s.lines ++ [.opening p s.context.stack.length name] } := rfl
  obtain ⟨s₂, hselect, hwritten⟩ := hvalue
    { s with lines := s.lines ++ [.opening p s.context.stack.length name] } rfl
  have hclosing : write (.closing p s.context.stack.length) s₂ =
    .ok () { s₂ with lines := s₂.lines ++ [.closing p s.context.stack.length] } := rfl
  refine ⟨_, ?_, (written_write hopening).trans (hwritten.trans (written_write hclosing))⟩
  rw [selectField, bind_of_ok (m := context) rfl]
  rw [hgraph, bind_of_ok (lift_of_ok (Graph.isCompound_eq_true_iff.2 hcompound) s), if_pos rfl,
    bind_of_ok (lift_of_ok (Graph.selectionTarget_eq_iff.2 ht) s)]
  dsimp only
  rw [if_neg (by simpa using houtside), bind_of_ok (lift_of_ok hname s)]
  exact (bind_of_ok hopening).trans ((bind_of_ok hselect).trans hclosing)

/-- It is known of a plain value that it needs no selection. -/
theorem isCompound_of_isPlain (h : g.IsPlain value) : g.isCompound value = .ok false := by
  obtain rfl | ⟨t, hway, hfields, hchoice⟩ := h
  · rfl
  · obtain ⟨b, hb⟩ := Graph.exists_isCompound_of_unwraps hway hchoice
    cases b with
    | false => exact hb
    | true =>
      obtain ⟨t', hway', hfields'⟩ := Graph.isCompound_eq_true_iff.1 hb
      rw [hway'.unique hway, hfields] at hfields'
      cases hfields'

theorem exists_leaf (hgraph : s.context.graph = g) (hplain : g.IsPlain (g.node p).valueType?)
    {name : String} (hname : nameOf (g.node p) = .ok name) :
    ∃ s', selectField select p (g.node p) s = .ok () s' ∧
      Written s s' [.leaf p s.context.stack.length name] := by
  have hleaf : write (.leaf p s.context.stack.length name) s =
    .ok () { s with lines := s.lines ++ [.leaf p s.context.stack.length name] } := rfl
  refine ⟨_, ?_, written_write hleaf⟩
  rw [selectField, bind_of_ok (m := context) rfl]
  rw [hgraph, bind_of_ok (lift_of_ok (isCompound_of_isPlain hplain) s), if_neg Bool.false_ne_true,
    bind_of_ok (lift_of_ok hname s)]
  exact hleaf

/-! ## Types -/

/-- Nothing is written for a type that the run is inside of. -/
theorem exists_inside (select : Selector) (hgraph : s.context.graph = g) (hinside : some i ∈ s.context.stack)
    (hmention : ∃ words, mention g i = .ok words) (n : Node) :
    ∃ s', selectMembers select i n s = .ok () s' ∧ Written s s' [] := by
  obtain ⟨words, hwords⟩ := hmention
  obtain ⟨s', hlog, hwritten⟩ := exists_log .warning .selection
    ("Possible recursion! Stack should not already contain " ++ words) s
  refine ⟨s', ?_, hwritten⟩
  rw [selectMembers, bind_of_ok (m := context) rfl, if_pos (by simpa using hinside), hgraph,
    bind_of_ok (lift_of_ok hwords s), hlog]

theorem Written.between {s₁ s₂ : SelectionDraft} (h : Written s s₁ []) (h' : Written s₁ s₂ ls)
    (h'' : Written s₂ s' []) : Written s s' ls := by
  have hall := h.trans (h'.trans h'')
  rwa [List.nil_append, List.append_nil] at hall

/-- The properties of a type are selected inside it. -/
theorem exists_members (select : Selector) (hgraph : s.context.graph = g) (houtside : some i ∉ s.context.stack)
    (hbody : (g.node i).body = .object ∨ ∃ parts, (g.node i).body = .composed .allOf parts)
    (hfields : ∀ s₁ : SelectionDraft, s₁.context.graph = g → s₁.context.stack = some i :: s.context.stack →
      ∃ s', ((values (g.node i).props).forM fun p => select (some p) : Selecting Unit) s₁ = .ok () s' ∧
        Written s₁ s' ls) :
    ∃ s', selectMembers select i (g.node i) s = .ok () s' ∧ Written s s' ls := by
  rw [selectMembers, bind_of_ok (m := context) rfl, if_neg (by simpa using houtside)]
  refine exists_within ?_
  obtain ⟨s₁, hin, hwritten₁⟩ := exists_trace "-> [select]"
    ("in: " ++ (g.node i).nameOr (g.node i).body.kindName) { s with context := s.context.enter (some i) }
  obtain ⟨s₂, hselect, hwritten₂⟩ := hfields s₁ (hwritten₁.graph.trans hgraph) hwritten₁.stack
  obtain ⟨s₃, hout, hwritten₃⟩ := exists_trace "<- [select]"
    ("out: " ++ (g.node i).nameOr (g.node i).body.kindName) s₂
  refine ⟨s₃, (bind_of_ok hin).trans ?_, hwritten₁.between hwritten₂ hwritten₃⟩
  obtain hbody | ⟨parts, hbody⟩ := hbody <;> simp only [hbody] at hout ⊢ <;>
    exact (bind_of_ok hselect).trans hout

/-- The union of a choice is selected inside it. -/
theorem exists_choice (select : Selector) (hgraph : s.context.graph = g) (houtside : some i ∉ s.context.stack)
    {parts : Option Json} (hbody : (g.node i).body = .composed .oneOf parts) {u : Option NodeId}
    (hunion : g.unionOf i = .ok u)
    (hvariant : ∀ s₁ : SelectionDraft, s₁.context.graph = g →
      s₁.context.stack = some i :: s.context.stack →
        ∃ s', select u s₁ = .ok () s' ∧ Written s₁ s' ls) :
    ∃ s', selectMembers select i (g.node i) s = .ok () s' ∧ Written s s' ls := by
  rw [selectMembers, bind_of_ok (m := context) rfl, if_neg (by simpa using houtside)]
  refine exists_within ?_
  obtain ⟨s₁, hin, hwritten₁⟩ := exists_trace "-> [select]"
    ("in: " ++ (g.node i).nameOr (g.node i).body.kindName) { s with context := s.context.enter (some i) }
  obtain ⟨s₂, hselect, hwritten₂⟩ := hvariant s₁ (hwritten₁.graph.trans hgraph) hwritten₁.stack
  obtain ⟨s₃, hout, hwritten₃⟩ := exists_trace "<- [select]"
    ("out: " ++ (g.node i).nameOr (g.node i).body.kindName) s₂
  refine ⟨s₃, (bind_of_ok hin).trans ?_, hwritten₁.between hwritten₂ hwritten₃⟩
  rw [← hgraph] at hunion
  simp only [hbody] at hout ⊢
  exact (bind_of_ok (lift_of_ok hunion s₁)).trans ((bind_of_ok hselect).trans hout)

/-! ## Depth -/

/-- Lines are written, within any depth that is enough for the types that the stack leaves. -/
def Yields (g : Graph) (stack : List (Option NodeId)) (ls : List SelectionLine) : SelectionTask → Prop
  | .value v => ∀ (s : SelectionDraft) (n : Nat), s.context.graph = g → s.context.stack = stack →
    2 * g.size + 1 ≤ n + 2 * stack.length →
      ∃ s', selectWithin n v s = .ok () s' ∧ Written s s' ls
  | .field p => ∀ (s : SelectionDraft) (n : Nat), s.context.graph = g → s.context.stack = stack →
    2 * g.size + 1 ≤ n + 2 * stack.length →
      ∃ s', selectField (selectWithin n) p (g.node p) s = .ok () s' ∧ Written s s' ls
  | .fields ps => ∀ (s : SelectionDraft) (n : Nat), s.context.graph = g → s.context.stack = stack →
    2 * g.size + 2 ≤ n + 2 * stack.length →
      ∃ s', (ps.forM fun p => selectWithin n (some p) : Selecting Unit) s = .ok () s' ∧ Written s s' ls

/-- A stack of different types. -/
def Piled (T : NodeId → Prop) (stack : List (Option NodeId)) : Prop :=
  ∃ is : List NodeId, stack = is.map some ∧ is.Nodup ∧ ∀ i ∈ is, T i

variable {T F : NodeId → Prop}

theorem piled_nil (T : NodeId → Prop) : Piled T [] := ⟨[], rfl, List.nodup_nil, by simp⟩

theorem Piled.cons (h : Piled T stack) (hi : T i) (hnew : some i ∉ stack) :
    Piled T (some i :: stack) := by
  obtain ⟨is, rfl, hnodup, htypes⟩ := h
  refine ⟨i :: is, rfl, List.nodup_cons.2 ⟨fun hmem => hnew (List.mem_map_of_mem hmem), hnodup⟩, ?_⟩
  exact List.forall_mem_cons.2 ⟨hi, htypes⟩

/-- A stack is no longer than there are nodes. -/
theorem Piled.length_le (h : Piled T stack) (hlt : ∀ i, T i → i.index < g.size) :
    stack.length ≤ g.size := by
  obtain ⟨is, rfl, hnodup, htypes⟩ := h
  rw [List.length_map]
  exact Graph.length_le_size hnodup fun i hi => hlt i (htypes i hi)

end Selecting

open Selecting

variable {g : Graph} {T F : NodeId → Prop} {stack : List (Option NodeId)} {task : SelectionTask}
  {ls : List SelectionLine}

/-- The selection writes the lines that the graph says. -/
theorem Graph.Selects.yields (hg : g.Sorted T F) (h : g.Selects stack task ls) (htask : task.Fits T F)
    (hpiled : Piled T stack) : Yields g stack ls task := by
  -- a value needs one level at least, which is left whenever the depth is enough
  have hdepth : ∀ {stack : List (Option NodeId)} {n k : Nat}, Piled T stack →
      2 * g.size + k + 1 ≤ n + 2 * stack.length → ∃ m, n = m + 1 ∧
        2 * g.size + k ≤ m + 2 * stack.length := by
    intro stack n k hpiled hn
    have := hpiled.length_le fun i hi => hg.lt_size hi
    exact ⟨n - 1, by omega, by omega⟩
  induction h with
  | leaf plain name_eq =>
    rintro s n hgraph rfl -
    exact exists_leaf hgraph plain name_eq
  | skipped compound target inside =>
    rintro s n hgraph rfl -
    refine exists_skipped hgraph compound target inside (hg.mention ?_)
    exact hg.target (fun i hi => hg.value htask hi) target
  | braces compound target outside name_eq _ ih =>
    rintro s n hgraph rfl hn
    refine exists_braces hgraph compound target outside name_eq fun s₁ hs₁ => ?_
    exact ih (fun i hi => hg.value htask hi) hpiled s₁ n (hs₁ ▸ hgraph) (by rw [hs₁]) hn
  | property target property =>
    exact absurd property (hg.type (hg.target htask target))
  | @inside stack value i target type inside =>
    rintro s n hgraph rfl hn
    obtain ⟨m, rfl, -⟩ := hdepth (k := 0) hpiled hn
    obtain ⟨s', hselect, hwritten⟩ := exists_inside (selectWithin m) hgraph inside
      (hg.mention (hg.target htask target)) (g.node i)
    exact ⟨s', (step_of_type hgraph target type).trans hselect, hwritten⟩
  | @choice stack value u i parts ls target body outside union _ ih =>
    rintro s n hgraph rfl hn
    obtain ⟨m, rfl, -⟩ := hdepth (k := 0) hpiled hn
    have hi := hg.target htask target
    obtain ⟨s', hselect, hwritten⟩ := exists_choice (selectWithin m) hgraph outside body union
      fun s₁ hgraph₁ hstack₁ => ih (fun k hk => hg.union hi body (hk ▸ union))
        (hpiled.cons hi outside) s₁ m hgraph₁ hstack₁ (by rw [List.length_cons]; omega)
    exact ⟨s', (step_of_type hgraph target (.inr ⟨_, _, body⟩)).trans hselect, hwritten⟩
  | @members stack value i ls target body outside _ ih =>
    rintro s n hgraph rfl hn
    obtain ⟨m, rfl, -⟩ := hdepth (k := 0) hpiled hn
    have hi := hg.target htask target
    obtain ⟨s', hselect, hwritten⟩ := exists_members (selectWithin m) hgraph outside body
      fun s₁ hgraph₁ hstack₁ => ih (hg.props hi) (hpiled.cons hi outside) s₁ m hgraph₁ hstack₁
        (by rw [List.length_cons]; omega)
    refine ⟨s', (step_of_type hgraph target ?_).trans hselect, hwritten⟩
    exact body.imp_right fun ⟨parts, hbody⟩ => ⟨_, parts, hbody⟩
  | @nothing stack value i target type property =>
    rintro s n hgraph rfl hn
    obtain ⟨m, rfl, -⟩ := hdepth (k := 0) hpiled hn
    exact ⟨s, step_of_nothing hgraph target (hg.kind (hg.target htask target)) type property,
      Written.refl s⟩
  | nil =>
    rintro s n - - -
    exact ⟨s, rfl, Written.refl s⟩
  | @cons stack p ps ls more _ _ ih ih' =>
    rintro s n hgraph rfl hn
    obtain ⟨hp, hps⟩ := List.forall_mem_cons.1 htask
    obtain ⟨m, rfl, hm⟩ := hdepth hpiled hn
    obtain ⟨s₁, hone, hwritten₁⟩ := ih hp hpiled s m hgraph rfl hm
    obtain ⟨s₂, hrest, hwritten₂⟩ := ih' hps hpiled s₁ (m + 1) (hwritten₁.graph.trans hgraph)
      hwritten₁.stack hn
    have hfield := hg.field hp
    have hself : g.Targets (some p) p := by
      obtain ⟨slot, arguments, link, hbody⟩ := hfield
      exact targets_self (by rw [peeled?, hbody])
    have hfirst : selectWithin (m + 1) (some p) s = .ok () s₁ :=
      (step_of_field hgraph hself hfield).trans hone
    exact ⟨s₂, (bind_of_ok hfirst).trans hrest, hwritten₁.trans hwritten₂⟩

/-- Outside of all types, the selection of a field succeeds. -/
theorem Selecting.exists_select (hg : g.Sorted T F) {s : SelectionDraft} {p : NodeId} (hp : F p)
    (h : g.Selects [] (.field p) ls) (hgraph : s.context.graph = g) (hstack : s.context.stack = []) :
    ∃ s', Selecting.select (some p) s = .ok () s' ∧ Written s s' ls := by
  have hfields : g.Selects [] (.fields [p]) (ls ++ []) := .cons h .nil
  obtain ⟨s', hselect, hwritten⟩ := hfields.yields hg (List.forall_mem_singleton.2 hp) (piled_nil T) s
    (2 * g.size + 3) hgraph hstack (by simp)
  obtain ⟨u, s₁, hone, hrest⟩ := bind_eq_ok_iff.1 hselect
  cases hrest
  rw [List.append_nil] at hwritten
  refine ⟨s', ?_, hwritten⟩
  rw [Selecting.select, bind_of_ok (m := context) rfl, hgraph]
  exact hone

end ApiGraph
