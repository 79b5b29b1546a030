import ApiGraph.Proofs.Dialogue.Generation
import ApiGraph.Proofs.Visiting.Growth

/-!
# What computations come back to

A computation that goes into nodes comes out of them again, however it ends. Definitions and
selections are written without any other trace than that in the transcript.

* `Transcript.inside` — the nodes that a run is inside of, by what was told of it;
* `Context.Restored` — the way into nodes has come back to where it was, in a graph that has grown;
* `Context.Returned` — so it has in the same graph, without a question;
* `Returning` — computations that return, with one lemma for each way to build them;
* `Drafting.returning_definitions`, `Drafting.returning_generate`, `Selecting.returning_select` — drafts
  and selections.
-/

namespace ApiGraph

open Contextual

/-- An event of the dialogue with the oracle. -/
def Event.isSpoken : Event → Bool
  | .asked _ => true
  | .answered _ => true
  | _ => false

/-- An event on the way into and out of nodes. -/
def Event.isWay : Event → Bool
  | .entered _ => true
  | .left _ => true
  | _ => false

namespace Transcript

/-- The nodes that the run is inside of, the innermost first. -/
def inside : Transcript → List (Option NodeId)
  | [] => []
  | .entered i :: t => i :: inside t
  | .left _ :: t => (inside t).tail
  | _ :: t => inside t

theorem inside_append {new : Transcript} (h : ∀ e ∈ new, e.isWay = false) (t : Transcript) :
    inside (new ++ t) = inside t := by
  induction new with
  | nil => rfl
  | cons e new ih =>
    obtain ⟨he, hnew⟩ := List.forall_mem_cons.1 h
    cases e <;> first | exact ih hnew | cases he

end Transcript

namespace Context

/-- What is told of a run agrees with where it is. -/
def InStep (c : Context) : Prop := c.stack = c.transcript.inside

/-- The graph may have grown, in which old nodes stay compositions or stay none, and the way in and out
of nodes has come back to where it was. -/
structure Restored (c c' : Context) : Prop where
  size_le : c.graph.size ≤ c'.graph.size
  isComposed : ∀ j, j.index < c.graph.size →
    (c'.graph.node j).body.isComposed = (c.graph.node j).body.isComposed
  stack : c'.stack = c.stack
  composeDepth : c'.composeDepth = c.composeDepth
  inStep : c.InStep → c'.InStep
  told : c.transcript <:+ c'.transcript

/-- The way in and out of nodes has come back to where it was, and no question was put. -/
structure Returned (c c' : Context) : Prop where
  graph : c'.graph = c.graph
  stack : c'.stack = c.stack
  composeDepth : c'.composeDepth = c.composeDepth
  inStep : c.InStep → c'.InStep
  told : ∃ new, c'.transcript = new ++ c.transcript ∧ ∀ e ∈ new, e.isSpoken = false

variable {c c' c'' : Context}

theorem Restored.refl (c : Context) : c.Restored c :=
  ⟨le_rfl, fun _ _ => rfl, rfl, rfl, id, List.suffix_refl _⟩

theorem Restored.trans (h : c.Restored c') (h' : c'.Restored c'') : c.Restored c'' where
  size_le := h.size_le.trans h'.size_le
  isComposed j hj := (h'.isComposed j (hj.trans_le h.size_le)).trans (h.isComposed j hj)
  stack := h'.stack.trans h.stack
  composeDepth := h'.composeDepth.trans h.composeDepth
  inStep := h'.inStep ∘ h.inStep
  told := h.told.trans h'.told

theorem Returned.refl (c : Context) : c.Returned c := ⟨rfl, rfl, rfl, id, [], rfl, nofun⟩

theorem Returned.trans (h : c.Returned c') (h' : c'.Returned c'') : c.Returned c'' where
  graph := h'.graph.trans h.graph
  stack := h'.stack.trans h.stack
  composeDepth := h'.composeDepth.trans h.composeDepth
  inStep := h'.inStep ∘ h.inStep
  told := by
    obtain ⟨new, hnew, hsilent⟩ := h.told
    obtain ⟨new', hnew', hsilent'⟩ := h'.told
    refine ⟨new' ++ new, by rw [hnew', hnew, List.append_assoc], fun e he => ?_⟩
    rcases List.mem_append.1 he with he | he
    · exact hsilent' e he
    · exact hsilent e he

theorem Returned.restored (h : c.Returned c') : c.Restored c' where
  size_le := by rw [h.graph]
  isComposed j _ := by rw [h.graph]
  stack := h.stack
  composeDepth := h.composeDepth
  inStep := h.inStep
  told := by
    obtain ⟨new, hnew, -⟩ := h.told
    exact ⟨new, hnew.symm⟩

/-! ### In and out -/

theorem leave_of_stack {i : Option NodeId} {rest : List (Option NodeId)} (h : c.stack = i :: rest) :
    c.leave = { c with
      stack := rest
      composeDepth := if c.isComposition i then c.composeDepth - 1 else c.composeDepth
      transcript := .left i :: c.transcript } := by
  rw [leave, h]

theorem inStep_enter (h : c.InStep) (i : Option NodeId) : (c.enter i).InStep :=
  congrArg (i :: ·) h

theorem inStep_leave (h : c.InStep) : c.leave.InStep := by
  rcases hstack : c.stack with _ | ⟨i, rest⟩
  · rwa [leave, hstack]
  · rw [leave_of_stack hstack]
    show rest = c.transcript.inside.tail
    rw [← h, hstack]
    rfl

/-- The count of compositions is the same after a node was gone into and out of again, if it is one
then just if it was one before. -/
theorem composeDepth_leave {i : Option NodeId} (hstack : c'.stack = i :: c.stack)
    (hdepth : c'.composeDepth = (c.enter i).composeDepth)
    (hi : c'.isComposition i = c.isComposition i) : c'.leave.composeDepth = c.composeDepth := by
  rw [leave_of_stack hstack]
  show (if c'.isComposition i then c'.composeDepth - 1 else c'.composeDepth) = c.composeDepth
  rw [hi, hdepth]
  show (if c.isComposition i then
    (if c.isComposition i then c.composeDepth + 1 else c.composeDepth) - 1
    else if c.isComposition i then c.composeDepth + 1 else c.composeDepth) = c.composeDepth
  split <;> rfl

theorem Returned.leave {i : Option NodeId} (h : (c.enter i).Returned c') : c.Returned c'.leave := by
  have hi : c'.isComposition i = c.isComposition i := by
    cases i with
    | none => rfl
    | some i => exact congrArg (fun g : Graph => (g.node i).body.isComposed) h.graph
  obtain ⟨new, hnew, hsilent⟩ := h.told
  have hleave := leave_of_stack h.stack
  refine ⟨?_, ?_, composeDepth_leave h.stack h.composeDepth hi,
    fun hstep => inStep_leave (h.inStep (inStep_enter hstep i)),
    .left i :: (new ++ [.entered i]), ?_, fun e he => ?_⟩
  · rw [hleave]
    exact h.graph
  · rw [hleave]
  · rw [hleave, hnew]
    simp [enter]
  · rcases List.mem_cons.1 he with rfl | he
    · rfl
    · rcases List.mem_append.1 he with he | he
      · exact hsilent e he
      · rw [List.mem_singleton.1 he]
        rfl

/-- The node that was gone into has to be a composition just if it was one before. -/
theorem Restored.leave {i : Option NodeId} (hi : c'.isComposition i = c.isComposition i)
    (h : (c.enter i).Restored c') : c.Restored c'.leave := by
  have hleave := leave_of_stack h.stack
  refine ⟨?_, ?_, ?_, composeDepth_leave h.stack h.composeDepth hi,
    fun hstep => inStep_leave (h.inStep (inStep_enter hstep i)), ?_⟩
  · rw [hleave]
    exact h.size_le
  · rw [hleave]
    exact h.isComposed
  · rw [hleave]
  · rw [hleave]
    exact (List.suffix_cons (Event.entered i) c.transcript).trans
      (h.told.trans (List.suffix_cons (Event.left i) c'.transcript))

end Context

/-! ## Computations that return -/

section

variable {σ α β : Type} [Contextual σ]

/-- A computation that comes back, whether it succeeds or not. -/
def Returning (m : EStateM Fault σ α) : Prop := ∀ s, (context s).Returned (context (after m s))

theorem returning_pure (a : α) : Returning (pure a : EStateM Fault σ α) := fun _ => .refl _

theorem returning_throw (fault : Fault) : Returning (throw fault : EStateM Fault σ α) :=
  fun _ => .refl _

theorem Returning.bind {m : EStateM Fault σ α} {f : α → EStateM Fault σ β} (hm : Returning m)
    (hf : ∀ a, Returning (f a)) : Returning (m >>= f) := by
  intro s
  cases hs : outcome m s with
  | ok a =>
    rw [after_bind_of_ok hs]
    exact (hm s).trans (hf a _)
  | error fault =>
    rw [after_bind_of_error hs]
    exact hm s

theorem returning_get_bind {f : σ → EStateM Fault σ α} (hf : ∀ s, Returning (f s)) :
    Returning (get >>= f) :=
  fun s => hf s s

/-- A change of the state around the context. -/
theorem returning_modify {f : σ → σ} (hf : ∀ s, context (f s) = context s) :
    Returning (modify f : EStateM Fault σ PUnit) := by
  intro s
  show (context s).Returned (context (f s))
  rw [hf s]
  exact .refl _

theorem returning_forM {f : α → EStateM Fault σ PUnit} (hf : ∀ a, Returning (f a)) (xs : List α) :
    Returning (xs.forM f) := by
  induction xs with
  | nil => exact returning_pure _
  | cons x xs ih =>
    show Returning (f x >>= fun _ => xs.forM f)
    exact (hf x).bind fun _ => ih

theorem returning_mapM {f : α → EStateM Fault σ β} (hf : ∀ a, Returning (f a)) (xs : List α) :
    Returning (xs.mapM f) := by
  induction xs with
  | nil => exact returning_pure _
  | cons x xs ih =>
    rw [List.mapM_cons]
    exact (hf x).bind fun _ => ih.bind fun _ => returning_pure _

theorem Returning.through_context {step : Run α} (h : Returning step) :
    Returning (through (context : σ → Context) withContext step) := by
  intro s
  rw [after_through, context_withContext]
  exact h (context s)

theorem Returning.through_enter {step : EStateM Fault σ α} (h : Returning step) (i : NodeId) :
    Returning (through (fun s : σ => withContext s ((context s).enter (some i)))
      (fun _ t => withContext t (context t).leave) step) := by
  intro s
  have hstep := h (withContext s ((context s).enter (some i)))
  rw [context_withContext] at hstep
  rw [after_through, context_withContext]
  exact hstep.leave

end

namespace Run

variable {α : Type}

theorem returning_lift (a : Attempt α) : Returning (lift a) := by
  cases a with
  | ok a => exact returning_pure a
  | error fault => exact returning_throw fault

theorem returning_log (level : Level) (channel : Channel) (text : String) :
    Returning (log level channel text) :=
  fun _ => ⟨rfl, rfl, rfl, id, [.logged level channel text], rfl,
    fun e he => by rw [List.mem_singleton.1 he]; rfl⟩

theorem returning_trace (tag text : String) : Returning (trace tag text) :=
  returning_get_bind fun _ => returning_log _ _ _

end Run

/-! ## Drafts -/

namespace Drafting

variable {α : Type}

theorem returning_run {step : Run α} (h : Returning step) : Returning (run step) := by
  rw [run_eq_through]
  exact h.through_context

theorem returning_lift (a : Attempt α) : Returning (lift a) := returning_run (Run.returning_lift a)

theorem returning_within (i : NodeId) {step : Drafting α} (h : Returning step) :
    Returning (within i step) := by
  rw [within_eq_through]
  exact h.through_enter i

theorem returning_graph : Returning graph := returning_get_bind fun _ => returning_pure _

theorem returning_node (i : NodeId) : Returning (node i) :=
  returning_graph.bind fun _ => returning_pure _

theorem returning_json (config : Config) : Returning (json config) := by
  refine Returning.bind (returning_modify fun _ => ?_) fun _ => returning_pure _
  rfl

theorem returning_typeName (config : Config) (i : NodeId) : Returning (typeName config i) := by
  refine (returning_node i).bind fun n => ?_
  split
  · exact (returning_lift _).bind fun _ => returning_pure _
  · refine returning_get_bind fun d => ?_
    split
    · exact returning_pure _
    · exact (returning_run (Run.returning_log _ _ _)).bind fun _ => returning_json config

theorem returning_typeExprWithin (config : Config) (depth : Nat) (seen : List NodeId)
    (i : Option NodeId) : Returning (typeExprWithin config depth seen i) := by
  have hjson : Returning (do return .named (← json config) : Drafting TypeExpr) :=
    (returning_json config).bind fun _ => returning_pure _
  induction depth generalizing seen i with
  | zero => exact returning_throw _
  | succ depth ih =>
    cases i with
    | none => exact hjson
    | some i =>
      simp only [typeExprWithin]
      split
      · exact hjson
      · refine returning_graph.bind fun g => ?_
        split
        · exact hjson
        · exact (returning_lift _).bind fun _ => returning_pure _
        · split
          · exact hjson
          · exact (returning_typeName config i).bind fun _ => returning_pure _
        · split
          · exact hjson
          · exact (returning_typeName config i).bind fun _ => returning_pure _
        · exact (ih _ _).bind fun _ => returning_pure _
        · exact ih _ _
        · exact (returning_lift _).bind fun _ => ih _ _
        · exact (returning_lift _).bind fun _ => ih _ _
        · exact ih _ _
        · exact ih _ _
        · exact returning_throw _

theorem returning_typeExpr (config : Config) (i : Option NodeId) : Returning (typeExpr config i) :=
  returning_graph.bind fun _ => returning_typeExprWithin config _ _ _

theorem returning_argumentType (config : Config) (type : Option NodeId) :
    Returning (argumentType config type) := by
  refine returning_graph.bind fun g => (returning_lift _).bind fun compound => ?_
  split
  · exact (returning_json config).bind fun _ => returning_pure _
  · exact returning_typeExpr config type

theorem returning_argument (config : Config) (i : NodeId) : Returning (argument config i) :=
  (returning_node i).bind fun _ => (returning_lift _).bind fun _ =>
    (returning_argumentType config _).bind fun _ => (returning_lift _).bind fun _ =>
      (returning_lift _).bind fun _ => returning_pure _

theorem returning_nameInline (value : Option NodeId) (name : String) :
    Returning (nameInline value name) := by
  refine returning_graph.bind fun g => (returning_lift _).bind fun target => ?_
  cases target with
  | none => exact returning_pure _
  | some i =>
    refine returning_get_bind fun d => ?_
    dsimp only
    split
    · exact returning_modify fun _ => rfl
    · exact returning_pure _

theorem returning_field (config : Config) (owner : Json) (i : NodeId) :
    Returning (field config owner i) := by
  refine (returning_node i).bind fun n => ?_
  split
  · next slot arguments _ _ =>
    refine (returning_lift _).bind fun _ => (returning_lift _).bind fun _ => ?_
    refine (returning_nameInline _ _).bind fun _ => (returning_lift _).bind fun _ => ?_
    have hargument : ∀ a, Returning (do argument config (← lift (expect a))) := fun a =>
      (returning_lift _).bind fun _ => returning_argument config _
    refine (returning_mapM hargument arguments).bind fun _ => (returning_typeExpr config _).bind fun _ => ?_
    dsimp only
    split
    · exact (returning_throw _).bind fun _ => returning_pure _
    · exact returning_pure _
  · exact returning_throw _

theorem returning_writeType (config : Config) (i : NodeId) (name : Json) (props : List NodeId) :
    Returning (writeType config i name props) :=
  (returning_mapM (returning_field config name) props).bind fun _ => returning_modify fun _ => rfl

theorem returning_writeObject (config : Config) (i : NodeId) : Returning (writeObject config i) := by
  refine (returning_node i).bind fun n => ?_
  split
  · exact returning_pure _
  · exact (returning_typeName config i).bind fun _ => returning_writeType config i _ _

theorem returning_traced (i : NodeId) {step : Drafting Unit} (h : Returning step) :
    Returning (traced i step) :=
  returning_within i ((returning_node i).bind fun _ =>
    (returning_run (Run.returning_trace _ _)).bind fun _ => h.bind fun _ =>
      returning_run (Run.returning_trace _ _))

theorem returning_nameVariant (i : NodeId) : Returning (nameVariant i) := by
  refine returning_graph.bind fun g => (returning_lift _).bind fun variant => ?_
  cases variant with
  | none => exact returning_pure _
  | some variant =>
    dsimp only
    split
    · exact returning_pure _
    · refine (returning_lift _).bind fun name => returning_get_bind fun d => ?_
      split
      · exact returning_pure _
      · refine Returning.bind (returning_modify fun _ => ?_) fun _ => returning_pure _
        rfl

theorem returning_writeVariant (config : Config) (i : NodeId) (variant : Option NodeId) :
    Returning (writeVariant config i variant) := by
  cases variant with
  | none => exact returning_pure _
  | some variant =>
    refine (returning_nameVariant i).bind fun named => ?_
    split
    · refine returning_get_bind fun d => ?_
      split
      · refine Returning.bind (returning_modify fun _ => ?_) fun _ =>
          returning_traced variant (returning_writeObject config variant)
        rfl
      · exact returning_pure _
    · exact returning_pure _

theorem returning_generate (config : Config) (i : NodeId) : Returning (generate config i) := by
  refine returning_traced i (returning_graph.bind fun g => ?_)
  split
  · exact returning_writeObject config i
  · exact returning_writeObject config i
  · exact (returning_lift _).bind fun _ => returning_writeVariant config i _
  · exact (returning_lift _).bind fun _ => returning_writeVariant config i _
  · exact returning_pure _
  · exact returning_pure _
  · exact returning_pure _
  all_goals exact returning_throw _

theorem returning_flushWithin (config : Config) (steps : Nat) :
    Returning (flushWithin config steps) := by
  induction steps with
  | zero => exact returning_throw _
  | succ steps ih =>
    refine returning_get_bind fun d => ?_
    split
    · exact returning_pure _
    · refine Returning.bind (returning_modify fun _ => ?_) fun _ =>
        (returning_generate config _).bind fun _ => ih
      rfl

theorem returning_flush (config : Config) : Returning (flush config) :=
  returning_get_bind fun _ => returning_flushWithin config _

theorem returning_takeNames (roots : List NodeId) : Returning (takeNames roots) := by
  refine returning_graph.bind fun g => Returning.bind ?_ fun names => returning_modify fun _ => rfl
  induction roots with
  | nil => exact returning_pure _
  | cons i roots ih =>
    rw [List.filterMapM_cons]
    refine (returning_lift _).bind fun name => ?_
    cases name with
    | none => exact ih
    | some name => exact ih.bind fun _ => returning_pure _

theorem returning_takeQueryName (config : Config) : Returning (takeQueryName config) := by
  refine (returning_lift _).bind fun _ => ?_
  split
  · exact returning_modify fun _ => rfl
  · exact returning_pure _

/-- Definitions are drafted in a graph that stays as it is. -/
theorem returning_definitions (config : Config) (roots : List NodeId) (query : Option NodeId) :
    Returning (definitions config roots query) := by
  have hfinish : Returning (definitions.finish config) := returning_get_bind fun _ => returning_pure _
  refine (returning_takeNames roots).bind fun _ => (returning_takeQueryName config).bind fun _ => ?_
  refine (returning_forM (fun i => (returning_nameVariant i).bind fun _ => returning_pure _)
    roots).bind fun _ => ?_
  refine (returning_forM (fun i => (returning_generate config i).bind fun _ =>
    returning_flush config) roots).bind fun _ => ?_
  cases query with
  | none => exact hfinish.bind fun _ => returning_pure _
  | some q =>
    refine (returning_node q).bind fun n => ?_
    dsimp only
    split
    · exact hfinish
    · exact (returning_within q (returning_writeType config q _ _)).bind fun _ =>
        (returning_flush config).bind fun _ => hfinish

end Drafting

/-! ## Selections -/

namespace Selecting

variable {α : Type}

theorem returning_run {step : Run α} (h : Returning step) : Returning (run step) := by
  rw [run_eq_through]
  exact h.through_context

theorem returning_lift (a : Attempt α) : Returning (lift a) := returning_run (Run.returning_lift a)

theorem returning_within (i : NodeId) {step : Selecting α} (h : Returning step) :
    Returning (within i step) := by
  rw [within_eq_through]
  exact h.through_enter i

theorem returning_context_bind {f : Context → Selecting α} (hf : ∀ c, Returning (f c)) :
    Returning (context >>= f) :=
  returning_get_bind (f := fun d : SelectionDraft => f d.context) fun d => hf d.context

theorem returning_write (line : SelectionLine) : Returning (write line) :=
  returning_modify fun _ => rfl

variable {s : Selector}

theorem returning_selectField (hs : ∀ value, Returning (s value)) (i : NodeId) (n : Node) :
    Returning (selectField s i n) := by
  refine returning_context_bind fun c => (returning_lift _).bind fun compound => ?_
  split
  · refine (returning_lift _).bind fun target => ?_
    split
    · exact returning_throw _
    · split
      · exact (returning_lift _).bind fun _ => returning_run (Run.returning_log _ _ _)
      · exact (returning_lift _).bind fun _ => (returning_write _).bind fun _ =>
          (hs _).bind fun _ => returning_write _
  · exact (returning_lift _).bind fun _ => returning_write _

theorem returning_selectMembers (hs : ∀ value, Returning (s value)) (i : NodeId) (n : Node) :
    Returning (selectMembers s i n) := by
  refine returning_context_bind fun c => ?_
  split
  · exact (returning_lift _).bind fun _ => returning_run (Run.returning_log _ _ _)
  · refine returning_within i ((returning_run (Run.returning_trace _ _)).bind fun _ => ?_)
    extract_lets out
    have hout : ∀ u, Returning (out u) := fun _ => returning_run (Run.returning_trace _ _)
    split
    · exact (returning_lift _).bind fun _ => (hs _).bind hout
    · exact (returning_forM (fun prop => hs (some prop)) _).bind hout

theorem returning_step (hs : ∀ value, Returning (s value)) (value : Option NodeId) :
    Returning (step s value) := by
  refine returning_context_bind fun c => (returning_lift _).bind fun target => ?_
  split
  · exact returning_throw _
  · dsimp only
    split
    · exact returning_selectField hs _ _
    · exact returning_selectMembers hs _ _
    · exact returning_selectMembers hs _ _
    · exact returning_throw _
    · exact returning_pure _

theorem returning_selectWithin (depth : Nat) (value : Option NodeId) :
    Returning (selectWithin depth value) := by
  induction depth generalizing value with
  | zero => exact returning_throw _
  | succ depth ih => exact returning_step ih value

theorem returning_select (value : Option NodeId) : Returning (select value) :=
  returning_context_bind fun _ => returning_selectWithin _ value

theorem returning_selectAll (roots : List (Option NodeId)) : Returning (selectAll roots) :=
  returning_forM returning_select roots

end Selecting

end ApiGraph
