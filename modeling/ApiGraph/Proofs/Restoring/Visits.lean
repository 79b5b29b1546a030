import ApiGraph.Proofs.Restoring.Shadows
import ApiGraph.Proofs.Visiting.Visits

/-!
# The stack and its count

Whatever is visited, drafted or selected, and however it ends, the run is inside of the same nodes
afterwards, and still counts how many of them are compositions.

* `Context.Retained` — a run restored, with all nodes kept for what they are;
* `retained_visit`, `retained_resolveRef` — visits, from any state;
* `Context.Counted` — the count is right;
* `Context.Attained` — the states that any sequence of calls leads to;
* `Context.Attained.counted` — the count is right in all of them.
-/

namespace ApiGraph

open OrderedMap Contextual

namespace Context

variable {X : NodeId → Prop} {c c' c'' : Context}

/-- A run restored, in a graph whose old nodes are kept for what they are and whose properties stay
under their names. New nodes take no arguments. -/
structure Retained (c c' : Context) : Prop extends Restored c c' where
  kept : ∀ j, j.index < c.graph.size → (c.graph.node j).Kept (c'.graph.node j)
  arguments : ∀ j, c.graph.size ≤ j.index → (c'.graph.node j).arguments = []
  tidy : c.graph.Tidy → c'.graph.Tidy

/-- Nothing was told but the dialogue, log records and the like. -/
structure Spoke (c c' : Context) : Prop where
  graph : c'.graph = c.graph
  stack : c'.stack = c.stack
  composeDepth : c'.composeDepth = c.composeDepth
  told : ∃ new, c'.transcript = new ++ c.transcript ∧ ∀ e ∈ new, e.isWay = false

theorem Retained.refl (c : Context) : c.Retained c :=
  ⟨.refl c, fun _ _ => .refl _, fun _ => Graph.arguments_of_size_le, id⟩

theorem Retained.trans (h : c.Retained c') (h' : c'.Retained c'') : c.Retained c'' := by
  refine ⟨h.toRestored.trans h'.toRestored,
    fun j hj => (h.kept j hj).trans (h'.kept j (hj.trans_le h.size_le)), fun j hj => ?_,
    h'.tidy ∘ h.tidy⟩
  by_cases hj' : j.index < c'.graph.size
  · rw [(h'.kept j hj').arguments, h.arguments j hj]
  · exact h'.arguments j (Nat.not_lt.1 hj')

theorem Moves.retained (h : c.Moves X c') : c.Retained c' := ⟨h.restored, h.kept, h.arguments, h.tidy⟩

theorem lasting_retained (c : Context) : Lasting X c.Retained :=
  fun _ _ h hmoves => h.trans hmoves.retained

theorem Retained.leave {i : NodeId} (hi : i.index < c.graph.size)
    (h : (c.enter (some i)).Retained c') : c.Retained c'.leave := by
  refine ⟨h.toRestored.leave (i := some i) (h.isComposed i hi), ?_, ?_, ?_⟩
  all_goals rw [leave_of_stack h.stack]
  · exact h.kept
  · exact h.arguments
  · exact h.tidy

theorem Spoke.refl (c : Context) : c.Spoke c := ⟨rfl, rfl, rfl, [], rfl, nofun⟩

theorem Spoke.trans (h : c.Spoke c') (h' : c'.Spoke c'') : c.Spoke c'' := by
  obtain ⟨new, hnew, hway⟩ := h.told
  obtain ⟨new', hnew', hway'⟩ := h'.told
  refine ⟨h'.graph.trans h.graph, h'.stack.trans h.stack, h'.composeDepth.trans h.composeDepth,
    new' ++ new, by rw [hnew', hnew, List.append_assoc], fun e he => ?_⟩
  rcases List.mem_append.1 he with he | he
  · exact hway' e he
  · exact hway e he

theorem Spoke.retained (h : c.Spoke c') : c.Retained c' := by
  obtain ⟨new, hnew, hway⟩ := h.told
  refine ⟨⟨by rw [h.graph], fun j _ => by rw [h.graph], h.stack, h.composeDepth, fun hstep => ?_,
    ⟨new, hnew.symm⟩⟩, fun j _ => ?_, fun j hj => ?_, fun htidy => ?_⟩
  · rw [InStep, h.stack, hnew, Transcript.inside_append hway]
    exact hstep
  · rw [h.graph]
    exact .refl _
  · rw [h.graph]
    exact Graph.arguments_of_size_le hj
  · rwa [h.graph]

end Context

/-! ## Questions -/

/-- What an oracle says is not on the way. -/
theorem Oracle.isMute_of_mem_events {q : Question} {o : Oracle} {e : Event}
    (h : e ∈ (o.respond q).events) : e.isMute = true := by
  obtain ⟨text, rfl⟩ | ⟨text, rfl⟩ := shown_or_logged h <;> rfl

section

variable {α β : Type} {c : Context}

theorem spoke_bind {m : Run α} {f : α → Run β} (hm : ∀ c, Context.Spoke c (after m c))
    (hf : ∀ a c, Context.Spoke c (after (f a) c)) (c : Context) : c.Spoke (after (m >>= f) c) := by
  cases hc : outcome m c with
  | ok a =>
    rw [after_bind_of_ok hc]
    exact (hm c).trans (hf a _)
  | error fault =>
    rw [after_bind_of_error hc]
    exact hm c

theorem after_get_bind (f : Context → Run α) (c : Context) :
    after (get >>= f) c = after (f c) c :=
  rfl

theorem spoke_pure (a : α) (c : Context) : c.Spoke (after (pure a : Run α) c) := .refl c

theorem spoke_lift (a : Attempt α) (c : Context) : c.Spoke (after (Run.lift a) c) := by
  cases a <;> exact .refl c

theorem spoke_ask (q : Question) (c : Context) : c.Spoke (after (Run.ask q) c) := by
  have hasked : ∀ e ∈ (c.oracle.respond q).events.reverse ++ [.asked q], e.isWay = false := by
    intro e he
    rcases List.mem_append.1 he with he | he
    · exact Event.isWay_of_isMute (Oracle.isMute_of_mem_events (List.mem_reverse.1 he))
    · rw [List.mem_singleton.1 he]
      rfl
  cases hr : (c.oracle.respond q).result with
  | ok a =>
    rw [after_of_ok (Run.ask_eq_ok hr)]
    refine ⟨rfl, rfl, rfl, .answered a :: ((c.oracle.respond q).events.reverse ++ [.asked q]), ?_, ?_⟩
    · simp
    · exact List.forall_mem_cons.2 ⟨rfl, hasked⟩
  | error fault =>
    rw [after_of_error (Run.ask_eq_error hr)]
    exact ⟨rfl, rfl, rfl, _, (List.append_cons _ _ _).trans rfl, hasked⟩

theorem spoke_askYesNo (text : String) (c : Context) : c.Spoke (after (Run.askYesNo text) c) :=
  spoke_bind (spoke_ask _) (fun _ => spoke_pure _) c

namespace Visit

theorem spoke_selectEach (candidates : List NodeId) (c : Context) :
    c.Spoke (after (selectEach candidates) c) := by
  induction candidates generalizing c with
  | nil => exact .refl c
  | cons i rest ih =>
    exact spoke_bind (fun c => spoke_lift (c.graph.describe i) c)
      (fun words => spoke_bind (spoke_askYesNo _)
        fun wanted => spoke_bind ih fun others => spoke_pure _) c

theorem spoke_select (i : NodeId) (candidates : OrderedMap Key NodeId) (c : Context) :
    c.Spoke (after (select i candidates) c) := by
  unfold select
  split
  · exact .refl c
  · refine spoke_bind (spoke_lift _) (fun names c => ?_) c
    refine spoke_bind (m := get) (fun c => .refl c) (fun c' => spoke_bind (spoke_ask _) fun answer c => ?_) c
    cases answer with
    | yes => exact .refl c
    | subset => exact spoke_selectEach _ c
    | no => exact .refl c

/-! ## Visits -/

theorem step_of_visited {d : Document} {v : Visitor} {i : NodeId}
    (h : (c.graph.node i).visited = true) : step d v i c = .ok () c := by
  show (unless (c.graph.node i).visited do Run.within i _ : Run Unit) c = _
  rw [h]
  rfl

theorem step_of_unvisited {d : Document} {v : Visitor} {i : NodeId}
    (h : (c.graph.node i).visited = false) :
    step d v i c = Run.within i (do
      body d v i (c.graph.node i)
      Run.update i fun n => { n with visited := true }) c := by
  show (unless (c.graph.node i).visited do Run.within i _ : Run Unit) c = _
  rw [h]
  rfl

/-- What is done inside a node retains what there was when it was gone into. -/
theorem retained_body {d : Document} {v : Visitor} (hv : ∀ i c, Context.Retained c (after (v i) c))
    {i : NodeId} (hi : i.index < c.graph.size) :
    (c.enter (some i)).Retained (after (do
      body d v i (c.graph.node i)
      Run.update i fun n => { n with visited := true } : Run Unit) (c.enter (some i))) := by
  have hG : Lasting (· = i) (c.enter (some i)).Retained := Context.lasting_retained _
  have hvisit : ∀ j, Shadows (c.enter (some i)).Retained (fun _ => False) (v j) (v j) :=
    fun j c' hc' => .inl ⟨rfl, hc'.trans (hv j c')⟩
  have hbody := (shadows_body hG hvisit rfl (fun c' hc' => hc'.kept i hi)
    (fun _ _ hcomposed => shadows_visitAllOf hG hvisit rfl hcomposed fun collected c' hc' =>
      .inl ⟨rfl, hc'.trans (spoke_select i collected c').retained⟩) d).bind
    fun _ => shadows_update (f := fun n => { n with visited := true }) hG rfl
      (fun _ _ => (Node.Kept.refl _).visit) fun _ => rfl
  rcases hbody _ (.refl _) with ⟨-, hafter⟩ | ⟨-, -, -, hfalse⟩
  · exact hafter
  · exact hfalse.elim

/-- A node that is not there has no kind, and its visit fails at once. -/
theorem body_of_size_le {d : Document} {v : Visitor} {i : NodeId} (hi : c.graph.size ≤ i.index)
    (c' : Context) : body d v i (c.graph.node i) c' = .error (.unknownNodeKind "Node") c' := by
  rw [Graph.node_of_size_le hi]
  rfl

theorem retained_step {d : Document} {v : Visitor} (hv : ∀ i c, Context.Retained c (after (v i) c))
    (i : NodeId) (c : Context) : c.Retained (after (step d v i) c) := by
  cases hvisited : (c.graph.node i).visited with
  | true =>
    rw [after_of_ok (step_of_visited hvisited)]
    exact .refl c
  | false =>
    rw [after, step_of_unvisited hvisited]
    change c.Retained (after (Run.within i _) c)
    rw [after_within]
    by_cases hi : i.index < c.graph.size
    · exact (retained_body hv hi).leave hi
    · rw [after_of_error (bind_of_error (body_of_size_le (Nat.not_lt.1 hi) _))]
      exact ⟨(Context.Restored.refl _).leave rfl, fun _ _ => .refl _,
        fun _ => Graph.arguments_of_size_le, id⟩

theorem retained_visitWithin (d : Document) (depth : Nat) (i : NodeId) (c : Context) :
    c.Retained (after (visitWithin d depth i) c) := by
  induction depth generalizing i c with
  | zero => exact .refl c
  | succ depth ih => exact retained_step ih i c

theorem retained_visit (d : Document) (i : NodeId) (c : Context) :
    c.Retained (after (visit d i) c) := by
  rw [visit, after_get_bind]
  exact retained_visitWithin d _ i c

theorem retained_resolveRef (d : Document) (owner : Option NodeId) (ref : Json) (c : Context) :
    c.Retained (after (resolveRef d owner ref) c) := by
  have hvisit : ∀ i, Shadows c.Retained (fun _ => False)
      (visitWithin d (depthBound d c.graph) i) (visitWithin d (depthBound d c.graph) i) :=
    fun i c' hc' => .inl ⟨rfl, hc'.trans (retained_visitWithin d _ i c')⟩
  have hresolve := shadows_resolve (X := fun _ => False) (Context.lasting_retained c) hvisit d owner ref
  rw [resolveRef, after_get_bind]
  rcases hresolve c (.refl c) with ⟨-, hafter⟩ | ⟨-, -, -, hfalse⟩
  · exact hafter
  · exact hfalse.elim

end Visit

end

/-! ## Counting -/

namespace Context

variable {c c' : Context} {i : Option NodeId}

/-- The run is inside of nodes that are there, and counts how many of them are compositions. -/
structure Counted (c : Context) : Prop where
  composeDepth : c.composeDepth = c.stack.countP c.isComposition
  lt_size : ∀ i, some i ∈ c.stack → i.index < c.graph.size

theorem counted_of_stack_eq_nil (hstack : c.stack = []) (hdepth : c.composeDepth = 0) : c.Counted := by
  refine ⟨?_, fun i hi => ?_⟩
  · rw [hstack, hdepth]
    rfl
  · rw [hstack] at hi
    cases hi

theorem Counted.restored (h : c.Counted) (hrestored : c.Restored c') : c'.Counted := by
  refine ⟨?_, fun i hi => ?_⟩
  · rw [hrestored.composeDepth, h.composeDepth, hrestored.stack]
    refine List.countP_congr fun i hi => ?_
    cases i with
    | none => exact Iff.rfl
    | some i => exact Eq.congr (hrestored.isComposed i (h.lt_size i hi)).symm rfl
  · rw [hrestored.stack] at hi
    exact (h.lt_size i hi).trans_le hrestored.size_le

theorem Counted.enter (h : c.Counted) (hi : ∀ j, i = some j → j.index < c.graph.size) :
    (c.enter i).Counted := by
  have hsame : (c.enter i).isComposition = c.isComposition := funext (isComposition_enter c i)
  refine ⟨?_, fun j hj => ?_⟩
  · rw [hsame, stack_enter, List.countP_cons, ← h.composeDepth]
    show (if c.isComposition i then c.composeDepth + 1 else c.composeDepth) = _
    split <;> rfl
  · rcases List.mem_cons.1 hj with hj | hj
    · exact hi j hj.symm
    · exact h.lt_size j hj

theorem Counted.leave (h : c.Counted) : c.leave.Counted := by
  rcases hstack : c.stack with _ | ⟨i, rest⟩
  · rwa [Context.leave, hstack]
  · have hdepth := h.composeDepth
    rw [hstack, List.countP_cons] at hdepth
    rw [leave_of_stack hstack]
    refine ⟨?_, fun j hj => h.lt_size j (hstack ▸ List.mem_cons_of_mem i hj)⟩
    show (if c.isComposition i then c.composeDepth - 1 else c.composeDepth) = rest.countP c.isComposition
    rw [hdepth]
    split
    · exact Nat.add_sub_cancel _ _
    · exact Nat.add_zero _

/-- The states that calls lead to, whether they succeed or not, from one in which no node was gone into.
Between them nodes may be made and stored, as long as those that are there stay compositions or stay
none. -/
inductive Attained (d : Document) : Context → Prop
  | start {c : Context} (hstack : c.stack = []) (hdepth : c.composeDepth = 0) : Attained d c
  | make {c : Context} (graph : Graph) (types : OrderedMap Key (Option NodeId))
      (hsize : c.graph.size ≤ graph.size)
      (hkind : ∀ j, j.index < c.graph.size →
        (graph.node j).body.isComposed = (c.graph.node j).body.isComposed) :
      Attained d c → Attained d { c with graph := graph, types := types }
  | enter {c : Context} (i : Option NodeId) (hi : ∀ j, i = some j → j.index < c.graph.size) :
      Attained d c → Attained d (c.enter i)
  | leave {c : Context} : Attained d c → Attained d c.leave
  | visit {c : Context} (i : NodeId) : Attained d c → Attained d (after (Visit.visit d i) c)
  | resolve {c : Context} (owner : Option NodeId) (ref : Json) :
      Attained d c → Attained d (after (Visit.resolveRef d owner ref) c)
  | define (config : Config) (roots : List NodeId) (query : Option NodeId) (s : Draft) :
      Attained d s.context → Attained d (after (Drafting.definitions config roots query) s).context
  | generate (config : Config) (i : NodeId) (s : Draft) :
      Attained d s.context → Attained d (after (Drafting.generate config i) s).context
  | selectAll (roots : List (Option NodeId)) (s : SelectionDraft) :
      Attained d s.context → Attained d (after (Selecting.selectAll roots) s).context
  | select (value : Option NodeId) (s : SelectionDraft) :
      Attained d s.context → Attained d (after (Selecting.select value) s).context

theorem Attained.counted {d : Document} (h : Attained d c) : c.Counted := by
  induction h with
  | start hstack hdepth => exact counted_of_stack_eq_nil hstack hdepth
  | make graph types hsize hkind _ ih =>
    exact ih.restored ⟨hsize, hkind, rfl, rfl, id, List.suffix_refl _⟩
  | enter i hi _ ih => exact ih.enter hi
  | leave _ ih => exact ih.leave
  | visit i _ ih => exact ih.restored (Visit.retained_visit d i _).toRestored
  | resolve owner ref _ ih => exact ih.restored (Visit.retained_resolveRef d owner ref _).toRestored
  | define config roots query s _ ih =>
    exact ih.restored (Drafting.returning_definitions config roots query s).restored
  | generate config i s _ ih => exact ih.restored (Drafting.returning_generate config i s).restored
  | selectAll roots s _ ih => exact ih.restored (Selecting.returning_selectAll roots s).restored
  | select value s _ ih => exact ih.restored (Selecting.returning_select value s).restored

end Context

end ApiGraph
