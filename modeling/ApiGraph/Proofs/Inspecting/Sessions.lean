import ApiGraph.Inspection.Session
import ApiGraph.Proofs.Outcome

/-!
# What sessions leave as it is

A session does what it is told and no more: a command that only looks leaves the graph as it is, so that
what is looked at before another command makes no difference to it, and no command changes the document,
the configuration or a handle but its own.

* `Action.looks` — actions that only look;
* `Inspecting.leaves_perform_of_looks`, `Inspecting.leaves_perform` — what an action leaves as it is;
* `Session.perform_frame` — what one command changes;
* `Session.perform_after_looks` — a command does the same after commands that only look.
-/

namespace ApiGraph

/-- Whether an action only looks. -/
def Action.looks : Action → Bool
  | .unknown | .at | .identity | .simpleName | .describe | .dependencies | .dump _ | .same _ => true
  | .isCompound | .selectionTarget | .propertiesOf | .inComposition => true
  | .get _ | .has _ | .types | .lookup _ => true
  | _ => false

/-- What a session is about: its document, its configuration and the handles. -/
def Session.frame (s : Session) : Document × Config × OrderedMap String (Option NodeId) :=
  (s.document, s.config, s.handles)

namespace Inspecting

section

variable {α β γ : Type} {f : Session → γ}

/-! ## Steps -/

theorem leaves_lift (a : Attempt α) : Leaves f (lift a) := by
  cases a <;> exact fun _ => rfl

theorem leaves_graph : Leaves f graph := leaves_get_bind fun _ => leaves_pure _

theorem leaves_follow (steps : List PathStep) (i : Option NodeId) : Leaves f (follow i steps) := by
  induction steps generalizing i with
  | nil => exact leaves_pure _
  | cons step rest ih =>
    cases i with
    | none => exact leaves_throw _
    | some i => exact leaves_graph.bind fun _ => (leaves_lift _).bind fun next => ih next

theorem leaves_nodeAt (path : Json) : Leaves f (nodeAt path) := by
  unfold nodeAt
  split
  · exact leaves_pure _
  · cases path with
    | str s =>
      refine leaves_get_bind fun session => ?_
      split
      · exact leaves_follow _ _
      · exact leaves_throw _
    | _ => exact leaves_throw _

theorem leaves_someNodeAt (path : Json) : Leaves f (someNodeAt path) :=
  (leaves_nodeAt path).bind fun _ => leaves_lift _

theorem leaves_nodesAt (paths : Json) : Leaves f (nodesAt paths) :=
  (leaves_lift _).bind fun _ => leaves_mapM leaves_nodeAt _

/-- A step of the run changes at most the state of the run. -/
theorem frame_run (step : Run α) : Leaves Session.frame (run step) := by
  intro s
  rw [run]
  cases step s.context <;> rfl

/-- A step of the run that leaves its state leaves the session. -/
theorem leaves_run {step : Run α} (h : Leaves id step) : Leaves f (run step) := by
  intro s
  have hs := h s.context
  rw [run]
  cases hstep : step s.context with
  | ok a c | error fault c =>
    rw [hstep] at hs
    obtain rfl : c = s.context := hs
    rfl

theorem leaves_keyOf (name : Json) : Leaves id (Run.keyOf name) := by
  rw [Run.keyOf]
  cases expect name.key? <;> exact fun _ => rfl

theorem leaves_isStored (name : Json) : Leaves id (Run.isStored name) :=
  (leaves_keyOf name).bind fun _ => leaves_get_bind fun _ => leaves_pure _

theorem leaves_stored? (name : Json) : Leaves id (Run.stored? name) :=
  (leaves_keyOf name).bind fun _ => leaves_get_bind fun _ => leaves_pure _

end

/-! ## Actions -/

section

variable {γ : Type} {f : Session → γ}

/-- An action that only looks leaves the session as it is. -/
theorem leaves_perform_of_looks {action : Action} (h : action.looks = true) (node parent : Option NodeId) :
    Leaves f (perform action node parent) := by
  have hhere : Leaves f (lift (expect node)) := leaves_lift _
  refine leaves_get_bind fun s => ?_
  cases action with
  | unknown => exact leaves_throw _
  | «at» => exact leaves_pure _
  | identity | simpleName | describe | dependencies =>
    exact leaves_graph.bind fun _ => hhere.bind fun _ => (leaves_lift _).bind fun _ => leaves_pure _
  | dump depth => exact leaves_graph.bind fun _ => leaves_pure _
  | same other => exact (leaves_nodeAt _).bind fun _ => leaves_pure _
  | isCompound | selectionTarget =>
    exact leaves_graph.bind fun _ => (leaves_lift _).bind fun _ => leaves_pure _
  | propertiesOf =>
    refine leaves_graph.bind fun g => ?_
    cases node with
    | none => exact leaves_pure _
    | some i => exact (leaves_lift _).bind fun _ => leaves_pure _
  | inComposition => exact leaves_get_bind fun _ => leaves_pure _
  | get name => exact (leaves_run (leaves_stored? name)).bind fun _ => leaves_pure _
  | has name => exact (leaves_run (leaves_isStored name)).bind fun _ => leaves_pure _
  | types => exact leaves_get_bind fun _ => (leaves_lift _).bind fun _ => leaves_pure _
  | lookup ref => exact (leaves_lift _).bind fun _ => leaves_pure _
  | _ => cases h

/-- A text is written from nodes that were found. -/
theorem leaves_writing {α : Type} {find : Inspecting α} {write : α → Inspecting Report}
    (hfind : Leaves f find) (hwrite : ∀ a, Leaves f (write a)) : Leaves f (writing find write) := by
  intro s
  have hs := hfind s
  rw [writing]
  cases hfound : find s with
  | ok nodes s₁ =>
    rw [hfound] at hs
    exact (hwrite nodes s₁).trans hs
  | error refusal s₁ =>
    rw [hfound] at hs
    exact hs

theorem frame_reportFrom (c : Context) (report : Report) : Leaves Session.frame (reportFrom c report) :=
  Leaves.bind (fun _ => rfl) fun _ => leaves_pure _

theorem frame_writeDefinitions (roots : List (Option NodeId)) (query : Option NodeId) :
    Leaves Session.frame (writeDefinitions roots query) := by
  refine leaves_get_bind fun s => ?_
  dsimp only
  split <;> exact frame_reportFrom _ _

theorem frame_writeSelections (roots : List (Option NodeId)) :
    Leaves Session.frame (writeSelections roots) := by
  refine leaves_get_bind fun s => ?_
  split <;> exact frame_reportFrom _ _

theorem frame_drafting {α : Type} (step : Config → Drafting α) : Leaves Session.frame (drafting step) :=
  leaves_get_bind fun _ => frame_run _

theorem frame_leave : Leaves Session.frame leave := by
  refine leaves_get_bind fun s => ?_
  dsimp only
  split
  · exact leaves_throw _
  · exact frame_reportFrom _ _

theorem frame_keyed (path : Json) : Leaves Session.frame (keyed path) :=
  (leaves_someNodeAt path).bind fun _ => (frame_run _).bind fun _ => (frame_run _).bind fun _ => leaves_pure _

theorem frame_selectProperties (node : Option NodeId) (candidates : Json) :
    Leaves Session.frame (selectProperties node candidates) := by
  refine (leaves_lift _).bind fun _ => (leaves_mapM frame_keyed _).bind fun props => ?_
  split
  · exact leaves_pure _
  · exact (leaves_lift _).bind fun _ => (frame_run _).bind fun _ => leaves_graph.bind fun _ => leaves_pure _

theorem frame_addArgument (i : NodeId) (argument : Json) : Leaves Session.frame (addArgument i argument) := by
  refine leaves_graph.bind fun g => ?_
  split
  · exact (leaves_nodeAt _).bind fun _ => (frame_run _).bind fun _ => leaves_pure _
  · exact leaves_throw _

/-- No action changes more than the state of the run. -/
theorem frame_perform (action : Action) (node parent : Option NodeId) :
    Leaves Session.frame (perform action node parent) := by
  by_cases hlooks : action.looks = true
  · exact leaves_perform_of_looks hlooks node parent
  · have hhere : Leaves Session.frame (lift (expect node)) := leaves_lift _
    refine leaves_get_bind fun s => ?_
    cases action with
    | new body name => exact (frame_run _).bind fun _ => leaves_pure _
    | fromSchema schema | fromUnion schemas | resolve ref => exact (frame_run _).bind fun _ => leaves_pure _
    | fromProperty name schema required | fromParameter name schema required =>
      exact (frame_run _).bind fun _ => leaves_pure _
    | setName name => exact hhere.bind fun _ => (frame_run _).bind fun _ => leaves_pure _
    | setType type =>
      exact (leaves_nodeAt _).bind fun _ => hhere.bind fun _ => (frame_run _).bind fun _ => leaves_pure _
    | addArgument argument => exact hhere.bind fun i => frame_addArgument i argument
    | add child =>
      exact hhere.bind fun _ => (leaves_nodeAt _).bind fun _ => (frame_run _).bind fun _ =>
        leaves_graph.bind fun _ => leaves_pure _
    | put child =>
      exact hhere.bind fun _ => (leaves_someNodeAt _).bind fun _ => (frame_run _).bind fun _ =>
        leaves_graph.bind fun _ => leaves_pure _
    | visit => exact hhere.bind fun _ => (frame_run _).bind fun _ => leaves_pure _
    | collect =>
      exact hhere.bind fun _ => (frame_run _).bind fun _ => leaves_graph.bind fun _ => leaves_pure _
    | selectProperties candidates => exact frame_selectProperties node candidates
    | enter => exact Leaves.bind (fun _ => rfl) fun _ => leaves_pure _
    | leave => exact frame_leave
    | store name => cases node <;> exact (frame_run _).bind fun _ => leaves_pure _
    | definitions roots query =>
      refine leaves_writing ?_ fun _ => frame_writeDefinitions _ _
      dsimp only
      split
      · exact (leaves_get_bind fun _ => leaves_pure _).bind fun _ => (leaves_nodeAt _).bind fun _ =>
          leaves_pure _
      · exact (leaves_nodesAt _).bind fun _ => (leaves_nodeAt _).bind fun _ => leaves_pure _
    | generate => exact hhere.bind fun _ => (frame_drafting _).bind fun _ => leaves_pure _
    | select roots => exact leaves_writing (leaves_nodesAt _) frame_writeSelections
    | typeExpr => exact (frame_drafting _).bind fun _ => leaves_pure _
    | field owner => exact hhere.bind fun _ => (frame_drafting _).bind fun _ => leaves_pure _
    | argument => exact hhere.bind fun _ => (frame_drafting _).bind fun _ => leaves_pure _
    | _ => exact absurd rfl hlooks

theorem leaves_reportOn_of_looks {c : Command} (h : c.action.looks = true) : Leaves f (reportOn c) :=
  (leaves_nodeAt _).bind fun _ => (leaves_nodeAt _).bind fun _ => leaves_perform_of_looks h _ _

theorem frame_reportOn (c : Command) : Leaves Session.frame (reportOn c) :=
  (leaves_nodeAt _).bind fun _ => (leaves_nodeAt _).bind fun _ => frame_perform _ _ _

/-- At most the handle of a command is bound, to the node that it reports. -/
theorem bindHandle_cases (c : Command) (report : Report) (s : Session) :
    bindHandle c report s = .ok () s ∨ ∃ handle i, c.handle = some handle ∧ c.action.binds = true ∧
      report = .node i ∧
      bindHandle c report s = .ok () { s with handles := OrderedMap.insert handle i s.handles } := by
  cases report with
  | node i =>
    unfold bindHandle
    cases hhandle : c.handle with
    | none => exact .inl rfl
    | some handle =>
      by_cases hbinds : c.action.binds = true
      · exact .inr ⟨handle, i, rfl, hbinds, rfl, by simp only [hbinds, if_true]; rfl⟩
      · exact .inl (by simp only [hbinds]; rfl)
  | _ => exact .inl rfl

end

end Inspecting

/-! ## Sessions -/

namespace Session

open Inspecting

/-- The session before a command, which is the first that the transcript tells of. -/
def fresh (s : Session) : Session := { s with context := { s.context with transcript := [] } }

variable {s s' t : Session} {c : Command}

theorem perform_of_ok {report : Report} (hreport : reportOn c s.fresh = .ok report s')
    (hbind : bindHandle c report s' = .ok () t) : s.perform c = (.ok report, t) := by
  have hcommand : command c s.fresh = .ok report t := by
    show EStateM.bind (reportOn c) _ s.fresh = _
    rw [EStateM.bind, hreport]
    show EStateM.bind (bindHandle c report) _ s' = _
    rw [EStateM.bind, hbind]
    rfl
  rw [perform, ← fresh, hcommand]

theorem perform_of_error {refusal : Refusal} (hreport : reportOn c s.fresh = .error refusal s') :
    s.perform c = (.error refusal, s') := by
  have hcommand : command c s.fresh = .error refusal s' := by
    show EStateM.bind (reportOn c) _ s.fresh = _
    rw [EStateM.bind, hreport]
  rw [perform, ← fresh, hcommand]

/-- No command changes the document or the configuration, and none binds another handle than its own, which
it binds to the node that it reports. -/
theorem perform_frame (s : Session) (c : Command) :
    (s.perform c).2.document = s.document ∧ (s.perform c).2.config = s.config ∧
      ((s.perform c).2.handles = s.handles ∨ ∃ handle i, c.handle = some handle ∧ c.action.binds = true ∧
        (s.perform c).1 = .ok (.node i) ∧
        (s.perform c).2.handles = OrderedMap.insert handle i s.handles) := by
  have hframe : (stateOf (reportOn c s.fresh)).frame = s.frame := frame_reportOn c s.fresh
  simp only [frame, Prod.mk.injEq] at hframe
  obtain ⟨hdocument, hconfig, hhandles⟩ := hframe
  cases hreport : reportOn c s.fresh with
  | error refusal s' =>
    rw [hreport] at hdocument hconfig hhandles
    rw [perform_of_error hreport]
    exact ⟨hdocument, hconfig, .inl hhandles⟩
  | ok report s' =>
    rw [hreport] at hdocument hconfig hhandles
    rcases bindHandle_cases c report s' with hbind | ⟨handle, i, hhandle, hbinds, rfl, hbind⟩
    · rw [perform_of_ok hreport hbind]
      exact ⟨hdocument, hconfig, .inl hhandles⟩
    · rw [perform_of_ok hreport hbind]
      exact ⟨hdocument, hconfig, .inr ⟨handle, i, hhandle, hbinds, rfl,
        congrArg (OrderedMap.insert handle i) hhandles⟩⟩

/-- A command that only looks, and binds no handle, leaves the session as it is. -/
theorem perform_of_looks (s : Session) {c : Command} (hlooks : c.action.looks = true)
    (hhandle : c.handle = none) : (s.perform c).2 = s.fresh := by
  have hleaves : stateOf (reportOn c s.fresh) = s.fresh := leaves_reportOn_of_looks (f := id) hlooks _
  cases hreport : reportOn c s.fresh with
  | error refusal s' =>
    rw [hreport] at hleaves
    rw [perform_of_error hreport]
    exact hleaves
  | ok report s' =>
    rw [hreport] at hleaves
    rcases bindHandle_cases c report s' with hbind | ⟨handle, i, hsome, -⟩
    · rw [perform_of_ok hreport hbind]
      exact hleaves
    · rw [hhandle] at hsome
      cases hsome

/-- Does one command after the other. -/
def performAll (s : Session) (commands : List Command) : Session :=
  commands.foldl (fun s c => (s.perform c).2) s

/-- However often a session was only looked at, the next command does what it would have done at once. -/
theorem perform_after_looks (s : Session) {commands : List Command}
    (hlooks : ∀ c ∈ commands, c.action.looks = true ∧ c.handle = none) (next : Command) :
    (s.performAll commands).perform next = s.perform next := by
  induction commands generalizing s with
  | nil => rfl
  | cons c rest ih =>
    obtain ⟨⟨hc, hhandle⟩, hrest⟩ := List.forall_mem_cons.1 hlooks
    have hstep : s.performAll (c :: rest) = s.fresh.performAll rest := by
      rw [performAll, List.foldl_cons, s.perform_of_looks hc hhandle]
      rfl
    rw [hstep, ih s.fresh hrest]
    rfl

end Session

end ApiGraph
