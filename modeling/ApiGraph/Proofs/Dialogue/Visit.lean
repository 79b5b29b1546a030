import ApiGraph.Proofs.Dialogue.Computation
import ApiGraph.Proofs.Faults

/-!
# Visits as dialogues

Each step of a run is silent except for a question, and so every visit is a dialogue.

* `silent_store`, `silent_plant` and their like — the steps of a run;
* `isDialogue_ask` — a question;
* `isDialogue_visit`, `isDialogue_resolveRef` — visits.
-/

namespace ApiGraph

open Attempt

/-- A silent step leaves the oracle as it is. -/
theorem Silent.oracle_of_ok {α : Type} {m : Run α} {c c' : Context} {a : α} (hm : Silent m)
    (h : m c = .ok a c') : c'.oracle = c.oracle := by
  have horacle := hm.oracle_eq c
  rwa [after_of_ok h] at horacle

/-! ## Steps of a run -/

namespace Run

variable {α : Type}

theorem silent_lift {a : Attempt α} (h : Fails Fault.OfWalk a) : Silent (lift a) := by
  cases a with
  | ok a => exact silent_pure a
  | error fault => exact silent_throw (h fault rfl)

theorem silent_lift_of_plain {a : Attempt α} (h : Fails Fault.Plain a) : Silent (lift a) :=
  silent_lift (h.mono fun _ hf => hf.ofWalk)

theorem silent_expect (a : Option α) : Silent (lift (expect a)) :=
  silent_lift (fails_expect_ofWalk a)

theorem silent_onGraph {f : Graph → Attempt α} (h : ∀ g, Fails Fault.OfWalk (f g)) :
    Silent (onGraph f) :=
  silent_get_bind (fun c => silent_lift (h c.graph)) fun _ => rfl

theorem silent_node (i : NodeId) : Silent (node i) :=
  silent_get_bind (fun _ => silent_pure _) fun _ => rfl

theorem silent_update (i : NodeId) (f : Node → Node) : Silent (update i f) :=
  silent_modify (fun _ => rfl) (fun _ => rfl) (fun _ => rfl) fun _ => rfl

/-- A growth of the graph that gives a value. -/
theorem silent_grow (f : Graph → α × Graph) :
    Silent (modifyGet fun c => ((f c.graph).1, { c with graph := (f c.graph).2 }) : Run α) where
  balanced _ := rfl
  outcome_eq h := by
    have hvalue := congrArg (fun c : Context => (.ok (f c.graph).1 : Attempt α)) h
    exact hvalue
  work_eq h := by
    have hgrown := congrArg (fun c : Context => { c with graph := (f c.graph).2 }) h
    exact hgrown
  oracle_eq _ := rfl
  questions_eq _ := rfl
  not_ended _ h := by cases h

theorem silent_alloc (n : Node) : Silent (alloc n) := silent_grow fun g => g.alloc n

theorem silent_plant (parent : Option NodeId) (schema : Schema) : Silent (plant parent schema) :=
  silent_grow fun g => g.plant parent schema

theorem silent_say {e : Event} (h : e.question? = none) : Silent (say e) := by
  refine silent_modify (fun _ => rfl) (fun _ => rfl) (fun _ => rfl) fun c => ?_
  show (Transcript.questions (e :: c.transcript)) = c.transcript.questions
  simp [Transcript.questions, h]

theorem silent_log (level : Level) (channel : Channel) (text : String) :
    Silent (log level channel text) :=
  silent_say rfl

theorem silent_trace (tag text : String) : Silent (trace tag text) :=
  silent_get_bind (fun _ => silent_log _ _ _) fun _ => rfl

/-! ### The store -/

theorem silent_keyOf (name : Json) : Silent (keyOf name) := silent_expect _

theorem silent_stored? (name : Json) : Silent (stored? name) :=
  (silent_keyOf name).bind fun _ => silent_get_bind (fun _ => silent_pure _) fun _ => rfl

theorem silent_warnTaken (name : Json) (ignored : Option NodeId) :
    Silent (warnTaken name ignored) :=
  silent_get_bind (fun _ => silent_log _ _ _) fun _ => rfl

theorem silent_store (name : Json) (i : NodeId) : Silent (store name i) := by
  refine (silent_trace _ _).bind fun _ => (silent_keyOf name).bind fun key =>
    silent_get_bind (fun c => ?_) fun _ => rfl
  split
  · refine Silent.bind (silent_modify (fun _ => rfl) (fun _ => ?_) (fun _ => rfl) fun _ => rfl) fun _ => silent_pure _
    rfl
  · split
    · exact (silent_warnTaken _ _).bind fun _ => silent_pure _
    · exact silent_pure _

theorem silent_put (i prop : NodeId) : Silent (put i prop) :=
  (silent_node prop).bind fun _ => (silent_keyOf _).bind fun _ => silent_update _ _

theorem within_eq_through (i : NodeId) (step : Run α) :
    within i step = through (fun c : Context => c.enter (some i)) (fun _ c => c.leave) step := by
  funext c
  simp only [within, through]
  cases step (c.enter (some i)) <;> rfl

theorem silent_within (i : NodeId) {step : Run α} (h : Silent step) : Silent (within i step) := by
  rw [within_eq_through]
  exact h.through (passage_enter (some i))

theorem isDialogue_within (i : NodeId) {step : Run α} (h : IsDialogue step) :
    IsDialogue (within i step) := by
  rw [within_eq_through]
  exact h.through (passage_enter (some i))

/-! ### Questions -/

theorem ask_eq_ok {q : Question} {c : Context} {a : Answer}
    (h : (c.oracle.respond q).result = .ok a) :
    ask q c = .ok a { c with
      oracle := (c.oracle.respond q).oracle
      transcript := .answered a :: ((c.oracle.respond q).events.reverse ++ .asked q ::
        c.transcript) } := by
  show (lift (c.oracle.respond q).result >>= fun answer => do
    say (.answered answer)
    return answer : Run Answer) _ = _
  rw [h]
  rfl

theorem ask_eq_error {q : Question} {c : Context} {fault : Fault}
    (h : (c.oracle.respond q).result = .error fault) :
    ask q c = .error fault { c with
      oracle := (c.oracle.respond q).oracle
      transcript := (c.oracle.respond q).events.reverse ++ .asked q :: c.transcript } := by
  show (lift (c.oracle.respond q).result >>= fun answer => do
    say (.answered answer)
    return answer : Run Answer) _ = _
  rw [h]
  rfl

/-- What an oracle says besides its answer is no question. -/
theorem filterMap_question?_events (q : Question) (o : Oracle) :
    (o.respond q).events.filterMap Event.question? = [] := by
  refine List.filterMap_eq_nil_iff.2 fun e he => ?_
  obtain ⟨text, rfl⟩ | ⟨text, rfl⟩ := Oracle.shown_or_logged he <;> rfl

theorem questions_asked (q : Question) (o : Oracle) (t : Transcript) :
    Transcript.questions ((o.respond q).events.reverse ++ .asked q :: t) = t.questions ++ [q] := by
  simp [Transcript.questions, Event.question?, filterMap_question?_events]

theorem balanced_ask (q : Question) : Balanced (ask q) := by
  intro c
  cases hr : (c.oracle.respond q).result with
  | ok a =>
    rw [after_of_ok (ask_eq_ok hr)]
    rfl
  | error fault =>
    rw [after_of_error (ask_eq_error hr)]
    rfl

/-- A question is a dialogue with one question. -/
theorem isDialogue_ask (q : Question) : IsDialogue (ask q) := by
  refine ⟨balanced_ask q, fun c => .ask q fun a => .done (.ok a, work c), fun h => by simp only [h],
    fun _ _ => (by rintro ⟨⟩), fun c => ?_⟩
  show Enacts (ask q) c ((Dialogue.ask q fun a => .done (.ok a, work c)).play c.oracle)
  cases hr : (c.oracle.respond q).result with
  | ok a =>
    have hask := ask_eq_ok hr
    rw [Dialogue.play_ask_of_ok hr]
    refine ⟨outcome_of_ok hask, ?_, ?_, ?_⟩
    · rintro _ _ ⟨⟩
      rw [after_of_ok hask, work_work]
      rfl
    · rw [after_of_ok hask]
      rfl
    · rw [after_of_ok hask]
      refine Eq.trans ?_ (questions_asked q c.oracle c.transcript)
      show Transcript.questions (.answered a :: _) = _
      simp [Transcript.questions, Event.question?]
  | error fault =>
    have hask := ask_eq_error hr
    rw [Dialogue.play_ask_of_error hr]
    refine ⟨outcome_of_error hask, (by simp), ?_, ?_⟩
    · rw [after_of_error hask]
      rfl
    · rw [after_of_error hask]
      exact questions_asked q c.oracle c.transcript

theorem isDialogue_askYesNo (text : String) : IsDialogue (askYesNo text) :=
  (isDialogue_ask _).bind fun _ => isDialogue_pure _

end Run

/-! ## Building -/

namespace Build

open Run

theorem silent_fromSchema (parent : Option NodeId) (schema : Json) :
    Silent (fromSchema parent schema) :=
  (silent_onGraph fun _ => (Schema.fails_read _ _).mono fun _ h => h.ofWalk).bind fun _ =>
    (silent_plant _ _).bind fun _ => (silent_say rfl).bind fun _ => silent_pure _

theorem silent_fillSlot (i : NodeId) (schema : Json) (body : NodeId → Body) :
    Silent (fillSlot i schema body) :=
  (silent_fromSchema _ _).bind fun _ => silent_update _ _

theorem silent_fromProperty (parent : Option NodeId) (name schema required : Json) :
    Silent (fromProperty parent name schema required) := by
  unfold fromProperty
  dsimp only
  split
  · exact silent_alloc _
  · exact (silent_alloc _).bind fun _ => (silent_fillSlot _ _ _).bind fun _ => silent_pure _

theorem silent_fromParameter (parent : Option NodeId) (name schema required : Json) :
    Silent (fromParameter parent name schema required) :=
  (silent_expect _).bind fun _ => (silent_alloc _).bind fun _ =>
    (silent_fillSlot _ _ _).bind fun _ => silent_pure _

theorem silent_fromUnion (parent : Option NodeId) (members : Json) :
    Silent (fromUnion parent members) :=
  (silent_lift_of_plain (fails_elements _)).bind fun _ => silent_alloc _

end Build

/-! ## Visits -/

namespace Visit

open Run Build

variable {v : Visitor}

theorem isDialogue_resolve (hv : ∀ i, IsDialogue (v i)) (d : Document) (owner : Option NodeId)
    (ref : Json) : IsDialogue (resolve d v owner ref) := by
  refine (silent_say rfl).isDialogue.bind fun _ =>
    (silent_stored? ref).isDialogue.bind fun found => ?_
  cases found with
  | some found => exact ((silent_trace _ _).bind fun _ => silent_pure _).isDialogue
  | none =>
    refine (silent_trace _ _).isDialogue.bind fun _ => (silent_say rfl).isDialogue.bind fun _ => ?_
    refine (silent_lift_of_plain (d.fails_lookupValue ref)).isDialogue.bind fun declaration => ?_
    refine (silent_fromSchema _ _).isDialogue.bind fun i => (silent_say rfl).isDialogue.bind fun _ => ?_
    refine (silent_update _ _).isDialogue.bind fun _ => (silent_store _ _).isDialogue.bind fun live => ?_
    exact (hv live).bind fun _ => ((silent_trace _ _).bind fun _ => silent_pure _).isDialogue

theorem isDialogue_collectFrom (hv : ∀ i, IsDialogue (v i)) (i : NodeId)
    (collected : OrderedMap Key NodeId) (members : List Json) :
    IsDialogue (collectFrom v i collected members) := by
  induction members generalizing collected with
  | nil => exact isDialogue_pure _
  | cons schema rest ih =>
    refine (silent_fromSchema _ _).isDialogue.bind fun member => (hv member).bind fun _ => ?_
    exact (silent_onGraph fun g => g.fails_propertiesOf member).isDialogue.bind fun _ => ih _

theorem isDialogue_collect (hv : ∀ i, IsDialogue (v i)) (i : NodeId) : IsDialogue (collect v i) :=
  (silent_node i).isDialogue.bind fun _ => (silent_expect _).isDialogue.bind fun _ =>
    (silent_lift_of_plain (fails_elements _)).isDialogue.bind fun _ => isDialogue_collectFrom hv _ _ _

theorem isDialogue_selectEach (candidates : List NodeId) : IsDialogue (selectEach candidates) := by
  induction candidates with
  | nil => exact isDialogue_pure _
  | cons i rest ih =>
    refine (silent_onGraph fun g => (g.fails_describe i).mono fun _ h => h.ofWalk).isDialogue.bind
      fun words => (isDialogue_askYesNo _).bind fun wanted => ih.bind fun others => isDialogue_pure _

theorem isDialogue_select (i : NodeId) (candidates : OrderedMap Key NodeId) :
    IsDialogue (select i candidates) := by
  unfold select
  split
  · exact isDialogue_pure _
  · refine (silent_lift_of_plain (Graph.fails_joinNames _ _)).isDialogue.bind fun names => ?_
    refine isDialogue_get_bind (fun c => ?_) fun _ => rfl
    refine (isDialogue_ask _).bind fun answer => ?_
    cases answer with
    | yes => exact isDialogue_pure _
    | subset => exact isDialogue_selectEach _
    | no => exact isDialogue_pure _

theorem silent_storeNamed (i : NodeId) : Silent (storeNamed i) := by
  refine (silent_node i).bind fun n => ?_
  split
  · exact silent_pure _
  · exact (silent_store _ _).bind fun _ => silent_pure _

theorem isDialogue_visitAllOf (hv : ∀ i, IsDialogue (v i)) (i : NodeId) :
    IsDialogue (visitAllOf v i) := by
  refine (isDialogue_collect hv i).bind fun collected => ?_
  refine isDialogue_get_bind (fun c => ?_) fun _ => rfl
  extract_lets rest
  have hrest : ∀ kept, IsDialogue (rest kept) := fun kept =>
    (silent_forM (silent_put i) kept).isDialogue.bind fun _ => (silent_storeNamed i).isDialogue
  split
  · exact (isDialogue_pure _).bind hrest
  · exact (isDialogue_select i collected).bind hrest

theorem isDialogue_visitOneOf (hv : ∀ i, IsDialogue (v i)) (i : NodeId) (members : Option Json) :
    IsDialogue (visitOneOf v i members) :=
  (silent_expect _).isDialogue.bind fun _ => (silent_fromUnion _ _).isDialogue.bind fun union =>
    (silent_update _ _).isDialogue.bind fun _ => (hv union).bind fun _ =>
      (silent_storeNamed i).isDialogue

theorem isDialogue_visitShapes (hv : ∀ i, IsDialogue (v i)) (i : NodeId) (position : Nat)
    (shapes : List Json) : IsDialogue (visitShapes v i position shapes) := by
  induction shapes generalizing position with
  | nil => exact isDialogue_pure _
  | cons schema rest ih =>
    refine (silent_fromSchema _ _).isDialogue.bind fun member => (hv member).bind fun _ => ?_
    dsimp only
    split
    · exact (silent_update _ _).isDialogue.bind fun _ => ih _
    · exact (silent_trace _ _).isDialogue.bind fun _ => ih _

theorem isDialogue_visitObject (hv : ∀ i, IsDialogue (v i)) (n : Node) :
    IsDialogue (visitObject v n) :=
  (silent_trace _ _).isDialogue.bind fun _ => (isDialogue_forM hv _).bind fun _ =>
    (silent_trace _ _).isDialogue

theorem isDialogue_visitComposed (hv : ∀ i, IsDialogue (v i)) (i : NodeId) (n : Node)
    (kind : Composition) (members : Option Json) :
    IsDialogue (visitComposed v i n kind members) := by
  refine (silent_trace _ _).isDialogue.bind fun _ => ?_
  refine isDialogue_get_bind (fun c => ?_) fun _ => rfl
  extract_lets out rest
  have hout : ∀ u, IsDialogue (out u) := fun _ => (silent_trace _ _).isDialogue
  have hrest : ∀ u, IsDialogue (rest u) := by
    intro u
    cases kind with
    | allOf => exact (isDialogue_visitAllOf hv i).bind hout
    | oneOf => exact (isDialogue_visitOneOf hv i members).bind hout
  split
  · exact hrest ()
  · exact (silent_log _ _ _).isDialogue.bind hrest

theorem isDialogue_body (hv : ∀ i, IsDialogue (v i)) (d : Document) (i : NodeId) (n : Node) :
    IsDialogue (body d v i n) := by
  unfold body
  split
  · exact Silent.isDialogue (silent_throw (by simp))
  · exact isDialogue_pure _
  · exact isDialogue_visitObject hv n
  · exact (silent_expect _).isDialogue.bind hv
  · exact (isDialogue_resolve hv d _ _).bind fun _ => (silent_update _ _).isDialogue
  · exact (isDialogue_resolve hv d _ _).bind fun _ => (silent_update _ _).isDialogue
  · refine (isDialogue_forM (fun a => ?_) _).bind fun _ => (silent_expect _).isDialogue.bind hv
    exact (silent_expect a).isDialogue.bind hv
  · exact (silent_expect _).isDialogue.bind hv
  · exact isDialogue_visitComposed hv i n _ _
  · extract_lets rest
    have hrest : ∀ u, IsDialogue (rest u) := fun _ => isDialogue_visitShapes hv i 0 _
    split
    · refine isDialogue_get_bind (fun c => ?_) fun _ => rfl
      exact IsDialogue.bind (Silent.isDialogue (silent_throw (by simp))) hrest
    · exact hrest ()

theorem isDialogue_step (hv : ∀ i, IsDialogue (v i)) (d : Document) (i : NodeId) :
    IsDialogue (step d v i) := by
  refine (silent_node i).isDialogue.bind fun n => ?_
  split
  · exact isDialogue_pure _
  · refine isDialogue_within i ((isDialogue_body hv d i n).bind fun _ => ?_)
    exact (silent_update _ _).isDialogue

theorem isDialogue_visitWithin (d : Document) (depth : Nat) (i : NodeId) :
    IsDialogue (visitWithin d depth i) := by
  induction depth generalizing i with
  | zero => exact Silent.isDialogue (silent_throw (by simp))
  | succ depth ih => exact isDialogue_step ih d i

/-- A visit is a dialogue. -/
theorem isDialogue_visit (d : Document) (i : NodeId) : IsDialogue (visit d i) :=
  isDialogue_get_bind (fun _ => isDialogue_visitWithin d _ i) fun _ => rfl

theorem isDialogue_resolveRef (d : Document) (owner : Option NodeId) (ref : Json) :
    IsDialogue (resolveRef d owner ref) :=
  isDialogue_get_bind (fun _ => isDialogue_resolve (isDialogue_visitWithin d _) d owner ref)
    fun _ => rfl

end Visit

end ApiGraph
