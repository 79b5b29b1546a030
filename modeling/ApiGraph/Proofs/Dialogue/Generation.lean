import ApiGraph.Conversion
import ApiGraph.Proofs.Dialogue.Visit

/-!
# Conversions as dialogues

Definitions are drafted without a question, and a selection puts one for each operation. Together
with the visits, a whole conversion is a dialogue.

* `Drafting.silent_definitions` — drafting is silent;
* `Selecting.silent_select` — and so is selecting a visited value;
* `Conversion.isDialogue_run` — a conversion is a dialogue.
-/

namespace ApiGraph

open Attempt Contextual

/-! ## Drafts -/

instance : Contextual Draft where
  context := Draft.context
  withContext d c := { d with context := c }
  context_withContext _ _ := rfl
  withContext_withContext _ _ _ := rfl

namespace Drafting

variable {α : Type}

theorem run_eq_through (step : Run α) : run step = through Draft.context withContext step := by
  funext d
  simp only [run, through]
  cases step d.context <;> rfl

theorem silent_run {step : Run α} (h : Silent step) : Silent (run step) := by
  rw [run_eq_through]
  exact h.through passage_context

theorem silent_lift {a : Attempt α} (h : Fails Fault.OfWalk a) : Silent (lift a) :=
  silent_run (Run.silent_lift h)

theorem silent_lift_of_plain {a : Attempt α} (h : Fails Fault.Plain a) : Silent (lift a) :=
  silent_run (Run.silent_lift_of_plain h)

theorem silent_expect (a : Option α) : Silent (lift (expect a)) :=
  silent_run (Run.silent_expect a)

theorem within_eq_through (i : NodeId) (step : Drafting α) :
    within i step = through (fun d : Draft => { d with context := d.context.enter i })
      (fun _ d => { d with context := d.context.leave }) step := by
  funext d
  simp only [within, through]
  cases step { d with context := d.context.enter i } <;> rfl

theorem silent_within (i : NodeId) {step : Drafting α} (h : Silent step) :
    Silent (within i step) := by
  rw [within_eq_through]
  exact h.through (passage_enter (some i))

theorem silent_graph : Silent graph := silent_get_bind (fun _ => silent_pure _) fun _ => rfl

theorem silent_node (i : NodeId) : Silent (node i) := silent_graph.bind fun _ => silent_pure _

/-! ### Types -/

theorem silent_json (config : Config) : Silent (json config) := by
  refine Silent.bind (silent_modify (fun _ => rfl) (fun _ => ?_) (fun _ => rfl) fun _ => rfl) fun _ => silent_pure _
  rfl

theorem silent_typeName (config : Config) (i : NodeId) : Silent (typeName config i) := by
  refine (silent_node i).bind fun n => ?_
  split
  · exact (silent_lift_of_plain (Graph.fails_simpleName n)).bind fun _ => silent_pure _
  · refine silent_get_bind (fun d => ?_) fun _ => rfl
    split
    · exact silent_pure _
    · exact (silent_run (Run.silent_log _ _ _)).bind fun _ => silent_json config

theorem silent_typeExprWithin (config : Config) (depth : Nat) (seen : List NodeId)
    (i : Option NodeId) : Silent (typeExprWithin config depth seen i) := by
  have hjson : Silent (do return .named (← json config) : Drafting TypeExpr) :=
    (silent_json config).bind fun _ => silent_pure _
  induction depth generalizing seen i with
  | zero => exact silent_throw (by simp)
  | succ depth ih =>
    cases i with
    | none => exact hjson
    | some i =>
      simp only [typeExprWithin]
      split
      · exact hjson
      · refine silent_graph.bind fun g => ?_
        split
        · exact hjson
        · exact (silent_lift_of_plain (fails_scalarFor config _)).bind fun _ => silent_pure _
        · split
          · exact hjson
          · exact (silent_typeName config i).bind fun _ => silent_pure _
        · split
          · exact hjson
          · exact (silent_typeName config i).bind fun _ => silent_pure _
        · exact (ih _ _).bind fun _ => silent_pure _
        · exact ih _ _
        · exact (silent_lift_of_plain (g.fails_oneOfVariant i)).bind fun _ => ih _ _
        · exact (silent_lift_of_plain (g.fails_unionVariant i)).bind fun _ => ih _ _
        · exact ih _ _
        · exact ih _ _
        · exact silent_throw (by simp)

theorem silent_typeExpr (config : Config) (i : Option NodeId) : Silent (typeExpr config i) :=
  silent_graph.bind fun _ => silent_typeExprWithin config _ _ _

/-! ### Fields and arguments -/

theorem silent_argumentType (config : Config) (type : Option NodeId) :
    Silent (argumentType config type) := by
  refine silent_graph.bind fun g => (silent_lift (g.fails_isCompound type)).bind fun compound => ?_
  split
  · exact (silent_json config).bind fun _ => silent_pure _
  · exact silent_typeExpr config type

theorem silent_argument (config : Config) (i : NodeId) : Silent (argument config i) :=
  (silent_node i).bind fun _ => (silent_expect _).bind fun _ =>
    (silent_argumentType config _).bind fun _ =>
      (silent_lift_of_plain (fails_textOf _)).bind fun _ => (silent_expect _).bind fun _ =>
        silent_pure _

theorem silent_nameInline (value : Option NodeId) (name : String) :
    Silent (nameInline value name) := by
  refine silent_graph.bind fun g => (silent_lift (fails_inlineTarget g _ _)).bind fun target => ?_
  cases target with
  | none => exact silent_pure _
  | some i =>
    refine silent_get_bind (fun d => ?_) fun _ => rfl
    dsimp only
    split
    · exact silent_modify (fun _ => rfl) (fun _ => rfl) (fun _ => rfl) fun _ => rfl
    · exact silent_pure _

theorem silent_field (config : Config) (owner : Json) (i : NodeId) :
    Silent (field config owner i) := by
  refine (silent_node i).bind fun n => ?_
  split
  · next slot arguments _ _ =>
    refine (silent_lift_of_plain (fails_textOf _)).bind fun _ => ?_
    refine (silent_lift_of_plain (fails_wordsOf _)).bind fun _ => ?_
    refine (silent_nameInline _ _).bind fun _ => ?_
    refine (silent_lift_of_plain (fails_textOf _)).bind fun _ => ?_
    have hargument : ∀ a, Silent (do argument config (← lift (expect a))) := fun a =>
      (silent_expect a).bind fun _ => silent_argument config _
    refine (silent_mapM hargument arguments).bind fun _ => (silent_typeExpr config _).bind fun _ => ?_
    dsimp only
    split
    · exact (silent_throw (by simp)).bind fun _ => silent_pure _
    · exact silent_pure _
  · exact silent_throw (by simp)

/-! ### Definitions -/

theorem silent_writeType (config : Config) (i : NodeId) (name : Json) (props : List NodeId) :
    Silent (writeType config i name props) :=
  (silent_mapM (silent_field config name) props).bind fun _ =>
    silent_modify (fun _ => rfl) (fun _ => rfl) (fun _ => rfl) fun _ => rfl

theorem silent_writeObject (config : Config) (i : NodeId) : Silent (writeObject config i) := by
  refine (silent_node i).bind fun n => ?_
  split
  · exact silent_pure _
  · exact (silent_typeName config i).bind fun _ => silent_writeType config i _ _

theorem silent_traced (i : NodeId) {step : Drafting Unit} (h : Silent step) :
    Silent (traced i step) :=
  silent_within i ((silent_node i).bind fun _ =>
    (silent_run (Run.silent_trace _ _)).bind fun _ => h.bind fun _ =>
      silent_run (Run.silent_trace _ _))

theorem silent_nameVariant (i : NodeId) : Silent (nameVariant i) := by
  refine silent_graph.bind fun g => (silent_lift_of_plain (fails_variantOf g i)).bind fun variant => ?_
  cases variant with
  | none => exact silent_pure _
  | some variant =>
    dsimp only
    split
    · exact silent_pure _
    · refine (silent_lift_of_plain (Graph.fails_simpleName _)).bind fun name => ?_
      refine silent_get_bind (fun d => ?_) fun _ => rfl
      split
      · exact silent_pure _
      · refine Silent.bind (silent_modify (fun _ => rfl) (fun _ => ?_) (fun _ => rfl) fun _ => rfl) fun _ =>
          silent_pure _
        rfl

theorem silent_writeVariant (config : Config) (i : NodeId) (variant : Option NodeId) :
    Silent (writeVariant config i variant) := by
  cases variant with
  | none => exact silent_pure _
  | some variant =>
    refine (silent_nameVariant i).bind fun named => ?_
    split
    · refine silent_get_bind (fun d => ?_) fun _ => rfl
      split
      · refine Silent.bind (silent_modify (fun _ => rfl) (fun _ => ?_) (fun _ => rfl) fun _ => rfl) fun _ =>
          silent_traced variant (silent_writeObject config variant)
        rfl
      · exact silent_pure _
    · exact silent_pure _

theorem silent_generate (config : Config) (i : NodeId) : Silent (generate config i) := by
  refine silent_traced i (silent_graph.bind fun g => ?_)
  split
  · exact silent_writeObject config i
  · exact silent_writeObject config i
  · exact (silent_lift_of_plain (g.fails_oneOfVariant i)).bind fun _ => silent_writeVariant config i _
  · exact (silent_lift_of_plain (g.fails_unionVariant i)).bind fun _ => silent_writeVariant config i _
  · exact silent_pure _
  · exact silent_pure _
  · exact silent_pure _
  all_goals exact silent_throw (by simp)

theorem silent_flushWithin (config : Config) (steps : Nat) : Silent (flushWithin config steps) := by
  induction steps with
  | zero => exact silent_throw (by simp)
  | succ steps ih =>
    refine silent_get_bind (fun d => ?_) fun _ => rfl
    split
    · exact silent_pure _
    · refine Silent.bind (silent_modify (fun _ => rfl) (fun _ => ?_) (fun _ => rfl) fun _ => rfl) fun _ =>
        (silent_generate config _).bind fun _ => ih
      rfl

theorem silent_flush (config : Config) : Silent (flush config) :=
  silent_get_bind (fun _ => silent_flushWithin config _) fun _ => rfl

theorem silent_takeNames (roots : List NodeId) : Silent (takeNames roots) := by
  refine silent_graph.bind fun g => Silent.bind ?_ fun names => ?_
  · induction roots with
    | nil => exact silent_pure _
    | cons i roots ih =>
      rw [List.filterMapM_cons]
      refine Silent.bind (silent_lift_of_plain (Graph.fails_simpleName _)) fun name => ?_
      cases name with
      | none => exact ih
      | some name => exact ih.bind fun _ => silent_pure _
  · exact silent_modify (fun _ => rfl) (fun _ => rfl) (fun _ => rfl) fun _ => rfl

theorem silent_takeQueryName (config : Config) : Silent (takeQueryName config) := by
  refine (silent_expect _).bind fun _ => ?_
  split
  · exact silent_modify (fun _ => rfl) (fun _ => rfl) (fun _ => rfl) fun _ => rfl
  · exact silent_pure _

/-- Definitions are drafted without a question. -/
theorem silent_definitions (config : Config) (roots : List NodeId) (query : Option NodeId) :
    Silent (definitions config roots query) := by
  have hfinish : Silent (definitions.finish config) :=
    silent_get_bind (fun _ => silent_pure _) fun _ => rfl
  refine (silent_takeNames roots).bind fun _ => (silent_takeQueryName config).bind fun _ => ?_
  refine (silent_forM (fun i => (silent_nameVariant i).bind fun _ => silent_pure _) roots).bind
    fun _ => ?_
  refine (silent_forM (fun i => (silent_generate config i).bind fun _ => silent_flush config)
    roots).bind fun _ => ?_
  cases query with
  | none => exact hfinish.bind fun _ => silent_pure _
  | some q =>
    refine (silent_node q).bind fun n => ?_
    dsimp only
    split
    · exact hfinish
    · exact (silent_within q (silent_writeType config q _ _)).bind fun _ =>
        (silent_flush config).bind fun _ => hfinish

end Drafting

/-! ## Selections -/

instance : Contextual SelectionDraft where
  context := SelectionDraft.context
  withContext d c := { d with context := c }
  context_withContext _ _ := rfl
  withContext_withContext _ _ _ := rfl

namespace Selecting

variable {α : Type}

theorem run_eq_through (step : Run α) :
    run step = through SelectionDraft.context withContext step := by
  funext d
  simp only [run, through]
  cases step d.context <;> rfl

theorem silent_run {step : Run α} (h : Silent step) : Silent (run step) := by
  rw [run_eq_through]
  exact h.through passage_context

theorem isDialogue_run {step : Run α} (h : IsDialogue step) : IsDialogue (run step) := by
  rw [run_eq_through]
  exact h.through passage_context

theorem silent_lift {a : Attempt α} (h : Fails Fault.OfWalk a) : Silent (lift a) :=
  silent_run (Run.silent_lift h)

theorem silent_lift_of_plain {a : Attempt α} (h : Fails Fault.Plain a) : Silent (lift a) :=
  silent_run (Run.silent_lift_of_plain h)

theorem within_eq_through (i : NodeId) (step : Selecting α) :
    within i step = through (fun d : SelectionDraft => { d with context := d.context.enter i })
      (fun _ d => { d with context := d.context.leave }) step := by
  funext d
  simp only [within, through]
  cases step { d with context := d.context.enter i } <;> rfl

theorem silent_within (i : NodeId) {step : Selecting α} (h : Silent step) :
    Silent (within i step) := by
  rw [within_eq_through]
  exact h.through (passage_enter (some i))

theorem silent_write (line : SelectionLine) : Silent (write line) :=
  silent_modify (fun _ => rfl) (fun _ => rfl) (fun _ => rfl) fun _ => rfl

theorem silent_context_bind {f : Context → Selecting α} (hf : ∀ c, Silent (f c))
    (hwork : ∀ c : Context, f (work c) = f c) : Silent (context >>= f) := by
  show Silent (get >>= fun d : SelectionDraft => f d.context)
  exact silent_get_bind (fun d => hf d.context) fun d => hwork d.context

variable {s : Selector}

theorem silent_selectField (hs : ∀ value, Silent (s value)) (i : NodeId) (n : Node) :
    Silent (selectField s i n) := by
  refine silent_context_bind (fun c => ?_) fun _ => rfl
  refine (silent_lift (c.graph.fails_isCompound _)).bind fun compound => ?_
  split
  · refine (silent_lift (c.graph.fails_selectionTarget _)).bind fun target => ?_
    split
    · exact silent_throw (by simp)
    · split
      · exact (silent_lift (fails_mention _ _)).bind fun _ => silent_run (Run.silent_log _ _ _)
      · refine (silent_lift_of_plain (fails_nameOf n)).bind fun _ => (silent_write _).bind fun _ => ?_
        exact (hs _).bind fun _ => silent_write _
  · exact (silent_lift_of_plain (fails_nameOf n)).bind fun _ => silent_write _

theorem silent_selectMembers (hs : ∀ value, Silent (s value)) (i : NodeId) (n : Node) :
    Silent (selectMembers s i n) := by
  refine silent_context_bind (fun c => ?_) fun _ => rfl
  split
  · exact (silent_lift (fails_mention _ _)).bind fun _ => silent_run (Run.silent_log _ _ _)
  · refine silent_within i ((silent_run (Run.silent_trace _ _)).bind fun _ => ?_)
    extract_lets out
    have hout : ∀ u, Silent (out u) := fun _ => silent_run (Run.silent_trace _ _)
    split
    · refine (silent_lift_of_plain (c.graph.fails_unionOf i)).bind fun _ => ?_
      exact (hs _).bind hout
    · exact (silent_forM (fun prop => hs (some prop)) _).bind hout

theorem silent_step (hs : ∀ value, Silent (s value)) (value : Option NodeId) :
    Silent (step s value) := by
  refine silent_context_bind (fun c => ?_) fun _ => rfl
  refine (silent_lift (c.graph.fails_selectionTarget _)).bind fun target => ?_
  split
  · exact silent_throw (by simp)
  · dsimp only
    split
    · exact silent_selectField hs _ _
    · exact silent_selectMembers hs _ _
    · exact silent_selectMembers hs _ _
    · exact silent_throw (by simp)
    · exact silent_pure _

theorem silent_selectWithin (depth : Nat) (value : Option NodeId) :
    Silent (selectWithin depth value) := by
  induction depth generalizing value with
  | zero => exact silent_throw (by simp)
  | succ depth ih => exact silent_step ih value

/-- A visited value is selected without a question. -/
theorem silent_select (value : Option NodeId) : Silent (select value) :=
  silent_context_bind (fun _ => silent_selectWithin _ value) fun _ => rfl

end Selecting

/-! ## Conversions -/

namespace Conversion

open Run

variable {α : Type}

theorem drafting_eq_through (step : Drafting α) :
    drafting step = through (fun c => ({ context := c } : Draft)) (fun _ d => d.context) step := by
  funext c
  simp only [drafting, through]
  cases step { context := c } <;> rfl

theorem silent_drafting {step : Drafting α} (h : Silent step) : Silent (drafting step) := by
  rw [drafting_eq_through]
  refine h.through ⟨id, fun h => ?_, fun _ h => ?_, fun _ => rfl, fun _ => rfl, fun _ _ => rfl,
    fun _ _ => rfl⟩
  · exact congrArg (fun c : Context => ({ context := c } : Draft)) h
  · exact congrArg Draft.context h

theorem selecting_eq_through (step : Selecting Unit) :
    selecting step = through (fun c => ({ context := c } : SelectionDraft)) (fun _ d => d.context)
      (do step; return (← get).lines) := by
  funext c
  cases h : step { context := c } with
  | ok u d => simp only [selecting, through, bind_of_ok h, h]; rfl
  | error fault d => simp only [selecting, through, bind_of_error h, h]

theorem isDialogue_selecting {step : Selecting Unit} (h : IsDialogue step) :
    IsDialogue (selecting step) := by
  rw [selecting_eq_through]
  have hlines : IsDialogue (do step; return (← get).lines) :=
    h.bind fun _ => isDialogue_get_bind (fun _ => isDialogue_pure _) fun _ => rfl
  refine hlines.through ⟨id, fun h => ?_, fun _ h => ?_, fun _ => rfl, fun _ => rfl, fun _ _ => rfl,
    fun _ _ => rfl⟩
  · exact congrArg (fun c : Context => ({ context := c } : SelectionDraft)) h
  · exact congrArg SelectionDraft.context h

theorem silent_operationArgument (field : NodeId) (parameter : Json.Members) :
    Silent (operationArgument field parameter) :=
  (silent_expect _).bind fun _ => Build.silent_fromParameter _ _ _ _

theorem silent_operationField (query : NodeId) (op : Operation) :
    Silent (operationField query op) := by
  refine (silent_lift_of_plain (fails_fieldNameOf op)).bind fun name => ?_
  refine (Build.silent_fromProperty _ _ _ _).bind fun field => Silent.bind ?_ fun _ => silent_pure _
  refine silent_forM (fun parameter => ?_) _
  exact (silent_operationArgument field parameter).bind fun _ => silent_update _ _

theorem isDialogue_resolveSchemas (d : Document) : IsDialogue (resolveSchemas d) := by
  refine (silent_lift_of_plain d.fails_schemas).isDialogue.bind fun schemas => ?_
  exact isDialogue_forM (fun ref => (Visit.isDialogue_resolveRef d none _).bind fun _ =>
    isDialogue_pure _) _

theorem silent_buildQuery (config : Config) (operations : List Operation) :
    Silent (buildQuery config operations) := by
  refine (silent_alloc _).bind fun query => Silent.bind ?_ fun _ => silent_pure _
  exact silent_forM (fun op => (silent_operationField query op).bind fun _ => silent_put _ _) _

theorem isDialogue_visitAll (d : Document) (config : Config) : IsDialogue (visitAll d config) := by
  refine (isDialogue_resolveSchemas d).bind fun _ => ?_
  refine (silent_lift_of_plain (fails_wantedOperations d config)).isDialogue.bind fun operations => ?_
  refine (silent_buildQuery config operations).isDialogue.bind fun query => ?_
  exact (Visit.isDialogue_visit d query).bind fun _ => isDialogue_pure _

theorem isDialogue_definitions (d : Document) (config : Config) :
    IsDialogue (definitions d config) := by
  refine (isDialogue_visitAll d config).bind fun query => ?_
  refine isDialogue_get_bind (fun c => ?_) fun _ => rfl
  refine (silent_lift (Fails.mapM fails_expect_ofWalk _)).isDialogue.bind fun roots => ?_
  exact (silent_drafting (Drafting.silent_definitions config roots _)).isDialogue

theorem isDialogue_visitOperation (d : Document) (query : NodeId) (op : Operation) :
    IsDialogue (visitOperation d query op) := by
  refine (silent_operationField query op).isDialogue.bind fun field => ?_
  refine (silent_put query field).isDialogue.bind fun _ => ?_
  exact (Visit.isDialogue_visit d field).bind fun _ => isDialogue_pure _

theorem isDialogue_selectOperation (d : Document) (query : NodeId) (op : Operation) :
    IsDialogue (selectOperation d query op) := by
  refine (Selecting.isDialogue_run (isDialogue_askYesNo _)).bind fun wanted => ?_
  split
  · refine (Selecting.silent_run (silent_log _ _ _)).isDialogue.bind fun _ => ?_
    refine (Selecting.isDialogue_run (isDialogue_visitOperation d query op)).bind fun field => ?_
    exact (Selecting.silent_select (some field)).isDialogue
  · exact (Selecting.silent_run (silent_log _ _ _)).isDialogue

theorem isDialogue_selection (d : Document) (config : Config) : IsDialogue (selection d config) := by
  refine (silent_alloc _).isDialogue.bind fun query => ?_
  refine (silent_lift_of_plain (fails_wantedOperations d config)).isDialogue.bind fun operations => ?_
  exact isDialogue_selecting (isDialogue_forM (isDialogue_selectOperation d query) _)

/-- A conversion is a dialogue. -/
theorem isDialogue_run (mode : Mode) (d : Document) (config : Config) :
    IsDialogue (run mode d config) := by
  cases mode with
  | definitions => exact (isDialogue_definitions d config).bind fun _ => isDialogue_pure _
  | selection => exact (isDialogue_selection d config).bind fun _ => isDialogue_pure _

end Conversion

end ApiGraph
