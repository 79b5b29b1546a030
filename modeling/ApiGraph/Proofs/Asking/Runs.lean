import ApiGraph.Proofs.Asking.Visits
import ApiGraph.Proofs.Restoring.Conversions

/-!
# Questions of a run

The questions of a conversion come in whole rounds, each about one `allOf`, and for a selection each
operation has a turn: the question whether to select it, and the rounds of its visit if it is wanted.

* `Turn` — what is asked for an operation;
* `Context.About` — all that was asked is about certain topics;
* `Sowing` — steps that make new nodes and leave those before a bound alone;
* `Conversion.asks_visitAll`, `Conversion.turn_selectOperation` — everything that definitions speak of,
  and one operation of a selection;
* `Conversion.about_run` — all questions of a run, finished or failed.
-/

namespace ApiGraph

open OrderedMap Context Contextual

/-! ## Turns -/

/-- What is asked for an operation: whether to select it, and in rounds what its visit takes over.
Nothing but the first is asked when it is not wanted. -/
structure Turn where
  op : Operation
  answer : Answer
  rounds : List Round
  unwanted : answer ≠ .yes → rounds = []

/-- What a turn is about. -/
def Turn.topics (t : Turn) : List Topic := .path t.op t.answer :: t.rounds.map .round

variable {α β : Type} {A : NodeId → Prop} {d : Document} {q : Option NodeId} {c c' : Context}
  {query i : NodeId} {topics : List Topic} {top : Nat} {op : Operation} {config : Config}

namespace Context

/-- All that was asked is about certain topics: either nothing is left to ask about any, or it broke off
in the midst of the last one. -/
def About (d : Document) (topics : List Topic) (c : Context) : Prop :=
  c.Discussed d topics ∨ ∃ before last, topics = before ++ [last] ∧ c.BrokenOff d before last

/-- A run between visits: it is inside of no node, and properties are under their names. -/
structure Paused (c : Context) : Prop extends Level c where
  inStep : c.InStep
  tidy : c.graph.Tidy

theorem Paused.back (h : c.Paused) (hback : c.Back c') : c'.Paused :=
  ⟨h.toLevel.back hback, hback.inStep h.inStep, hback.tidy h.tidy⟩

theorem paused_start (oracle : Oracle) : (Conversion.start oracle).Paused :=
  ⟨level_start oracle, rfl, Graph.tidy_empty⟩

theorem Paused.conversing (h : c.Paused) (hs : c.Sound d q) (hheard : c.Heard d topics) :
    ∃ rounds : List Round, c.Conversing d q (topics ++ rounds.map .round) := by
  obtain ⟨rounds, hdiscussed⟩ := hheard
  exact ⟨rounds, hs, h.orderly.toCounted, h.inStep, h.tidy, hdiscussed⟩

theorem discussed_start (d : Document) (oracle : Oracle) :
    (Conversion.start oracle).Discussed d [] :=
  ⟨⟨by rintro _ ⟨⟩, by rintro _ ⟨⟩, by rintro _ ⟨⟩, List.nodup_nil⟩, rfl, rfl, by rintro _ ⟨⟩⟩

theorem Returned.quiet (h : c.Returned c') : c.Quiet c' := h.told

theorem Beside.quiet (h : c.Beside c') : c.Quiet c' := by
  obtain ⟨new, hnew, hmute⟩ := h.told
  refine ⟨new, hnew, fun e he => ?_⟩
  have := hmute e he
  cases e <;> first | rfl | cases this

/-- Outside of all nodes it is asked whether to select an operation. -/
theorem Discussed.surveyed_path {text : String} {as : List Answer} (h : c.Discussed d topics)
    (hp : c.Paused) (hsaid : c.Says c' [⟨.yesNo, text⟩] as) (answer : Answer) :
    c'.Surveyed d (topics ++ [.path op answer]) ∧ c'.posed = c.posed ++ [(⟨.yesNo, text⟩, [])] := by
  have hrounds : ∀ r, .round r ∈ topics ++ [.path op answer] → .round r ∈ topics := by
    intro r hr
    rcases List.mem_append.1 hr with hr | hr
    · exact hr
    · cases List.mem_singleton.1 hr
  have hasked := hsaid.asked
  rw [hp.stack] at hasked
  refine ⟨⟨fun p hmem j hj => ?_, fun r hr => ?_, fun r hr => ?_, ?_⟩, ?_⟩
  · rw [hsaid.graph]
    rw [hasked] at hmem
    rcases List.mem_append.1 hmem with hmem | hmem
    · exact h.inside_lt p hmem j hj
    · cases List.mem_singleton.1 hmem
      cases hj
  · exact (h.isOf r (hrounds r hr)).later (Graph.grown_of_eq hsaid.graph) hsaid.told_suffix
  · exact mem_entered_of_told hsaid.told_suffix (h.entered r (hrounds r hr))
  · rw [List.filterMap_append]
    exact (List.append_nil _).symm ▸ h.nodup
  · rw [Context.posed, hasked, hsaid.graph, List.map_append]
    rfl

theorem Discussed.path {answer : Answer} (h : c.Discussed d topics) (hp : c.Paused)
    (hsaid : c.Says c' [⟨.yesNo, "Visit path " ++ op.text ++ "?"⟩] [answer]) :
    c'.Discussed d (topics ++ [.path op answer]) := by
  obtain ⟨hsurveyed, hposed⟩ := h.surveyed_path hp hsaid answer
  refine ⟨hsurveyed, ?_, ?_, fun r hr => ?_⟩
  · rw [hposed, h.posed, inquiriesOf_append, List.map_append]
    rfl
  · rw [hsaid.answered, h.answers, inquiriesOf_append, List.map_append]
    rfl
  · rw [Round.Settled, hsaid.graph]
    rcases List.mem_append.1 hr with hr | hr
    · exact h.settled r hr
    · cases List.mem_singleton.1 hr

/-- The question is put and not answered. -/
theorem Discussed.path_unanswered (h : c.Discussed d topics) (hp : c.Paused)
    (hsaid : c.Says c' [⟨.yesNo, "Visit path " ++ op.text ++ "?"⟩] []) (answer : Answer) :
    c'.BrokenOff d topics (.path op answer) := by
  obtain ⟨hsurveyed, hposed⟩ := h.surveyed_path hp hsaid answer
  have hanswers : c'.answers = (inquiriesOf topics).map Inquiry.answer := by
    rw [hsaid.answered, h.answers, List.append_nil]
  refine ⟨hsurveyed, ?_, ?_, ?_, ?_, fun r hr => ?_⟩
  · rw [hposed, h.posed, inquiriesOf_append, List.map_append]
    exact List.prefix_rfl
  · rw [hanswers, inquiriesOf_append, List.map_append]
    exact List.prefix_append _ _
  · rw [hanswers, hposed, h.posed]
    simp
  · rw [hanswers, inquiriesOf_append]
    simp [inquiriesOf, Topic.inquiries]
  · rw [Round.Settled, hsaid.graph]
    exact h.settled r hr

end Context

theorem Asks.about {σ : Type} [Contextual σ] {m : EStateM Fault σ α} {s : σ} (h : Asks d topics m s) :
    ∃ rounds : List Round, (context (after m s)).About d (topics ++ rounds.map .round) ∧
      ∀ a s', m s = .ok a s' → (context s').Discussed d (topics ++ rounds.map .round) := by
  rcases h with ⟨rounds, hafter⟩ | ⟨fault, s', he, rounds, last, hbroken⟩
  · refine ⟨rounds, .inl hafter, fun a s' hm => ?_⟩
    rwa [after_of_ok hm] at hafter
  · refine ⟨rounds ++ [last], .inr ⟨topics ++ rounds.map .round, .round last, ?_, ?_⟩, fun a s' hm => ?_⟩
    · simp
    · rwa [after_of_error he]
    · rw [he] at hm
      cases hm

theorem Asks.selecting {m : Run α} {s : SelectionDraft} (h : Asks d topics m s.context) :
    Asks d topics (Selecting.run m) s := by
  rcases h with h | ⟨fault, c', he, h⟩
  · refine .inl ?_
    rw [Selecting.run_eq_through, after_through, context_withContext]
    exact h
  · refine .inr ⟨fault, { s with context := c' }, ?_, h⟩
    rw [Selecting.run, he]

/-- What returns without a question asks nothing. -/
theorem Returning.asks {σ : Type} [Contextual σ] {m : EStateM Fault σ α} {s : σ} (hm : Returning m)
    (h : (context s).Heard d topics) : Asks d topics m s :=
  .inl (h.way (hm s).graph (hm s).quiet)

/-! ## Steps between visits -/

/-- A step that makes new nodes, and leaves those before a bound alone. -/
def Sowing (n : Nat) (m : Run α) : Prop := ∀ c : Context, n ≤ c.graph.size →
  c.graph.size ≤ (after m c).graph.size ∧ ∀ j, j.index < n → (after m c).graph.node j = c.graph.node j

section

variable {n : Nat}

theorem Sowing.bind {m : Run α} {f : α → Run β} (hm : Sowing n m)
    (hf : ∀ a c c', n ≤ c.graph.size → m c = .ok a c' → Sowing n (f a)) : Sowing n (m >>= f) := by
  intro c hn
  obtain ⟨hsize, hsame⟩ := hm c hn
  cases hmc : m c with
  | ok a c₁ =>
    rw [after_of_ok hmc] at hsize hsame
    obtain ⟨hsize', hsame'⟩ := hf a c c₁ hn hmc c₁ (hn.trans hsize)
    rw [after, bind_of_ok hmc]
    exact ⟨hsize.trans hsize', fun j hj => (hsame' j hj).trans (hsame j hj)⟩
  | error fault c₁ =>
    rw [after_of_error hmc] at hsize hsame
    rw [after_of_error (bind_of_error hmc)]
    exact ⟨hsize, hsame⟩

theorem Moving.sowing {m : Run α} (hm : Moving (fun _ => False) m) : Sowing n m := fun c hn =>
  ⟨(hm c).size_le, fun j hj => (hm c).spared j (hj.trans_le hn) not_false⟩

theorem sowing_alloc (node : Node) : Sowing n (Run.alloc node) := by
  intro c hn
  refine ⟨?_, fun j hj => Graph.node_alloc_of_lt c.graph node (hj.trans_le hn)⟩
  exact (Nat.le_succ _).trans (Graph.size_alloc c.graph node).ge

theorem sowing_update {f : Node → Node} (hi : n ≤ i.index) : Sowing n (Run.update i f) := fun c _ =>
  ⟨(Graph.size_update c.graph i f).ge,
    fun j hj => Graph.node_update_of_ne c.graph (by rintro rfl; omega) f⟩

theorem sowing_forM {f : α → Run Unit} (hf : ∀ a, Sowing n (f a)) (xs : List α) :
    Sowing n (xs.forM f) := by
  induction xs with
  | nil => exact (moving_pure ()).sowing
  | cons x xs ih =>
    show Sowing n (f x >>= fun _ => xs.forM f)
    exact (hf x).bind fun _ _ _ _ _ => ih

namespace Build

/-- A new node gets a type. -/
theorem sowing_alloc_fillSlot (node : Node) (schema : Json) (body : NodeId → Body) :
    Sowing n (do
      let i ← Run.alloc node
      fillSlot i schema body
      return i) := by
  refine (sowing_alloc node).bind fun i c c' hn halloc => ?_
  cases halloc
  refine Sowing.bind ?_ fun _ _ _ _ _ => (moving_pure _).sowing
  exact (moving_fromSchema _ _).sowing.bind fun _ _ _ _ _ => sowing_update hn

theorem sowing_fromProperty (parent : Option NodeId) (name schema required : Json) :
    Sowing n (fromProperty parent name schema required) := by
  unfold fromProperty
  dsimp only
  split
  · exact sowing_alloc _
  · exact sowing_alloc_fillSlot _ _ _

theorem sowing_fromParameter (parent : Option NodeId) (name schema required : Json) :
    Sowing n (fromParameter parent name schema required) :=
  (Run.moving_lift _).sowing.bind fun _ _ _ _ _ => sowing_alloc_fillSlot _ _ _

end Build

end

namespace Conversion

theorem sowing_operationField {n : Nat} (query : NodeId) (op : Operation) :
    Sowing n (operationField query op) := by
  refine (Run.moving_lift _).sowing.bind fun name _ _ _ _ =>
    (Build.sowing_fromProperty _ _ _ _).bind fun field c c' hn hfield => ?_
  obtain ⟨-, hplanted, -⟩ := planted_fromProperty hfield
  have hbound : n ≤ field.index := hplanted.index.symm ▸ hn
  refine Sowing.bind (sowing_forM (fun parameter => ?_) _) fun _ _ _ _ _ => (moving_pure _).sowing
  refine Sowing.bind ?_ fun _ _ _ _ _ => sowing_update hbound
  exact (Run.moving_lift _).sowing.bind fun _ _ _ _ _ => Build.sowing_fromParameter _ _ _ _

/-- New nodes are made, and nothing is asked. -/
theorem discussed_of_sowing {m : Run α} (hm : Sowing c.graph.size m) (hbesides : Besides m)
    (h : c.Discussed d topics) : (after m c).Discussed d topics := by
  obtain ⟨hsize, hsame⟩ := hm c le_rfl
  refine h.later (Graph.grown_of_kept hsize fun j hj => ?_) (hbesides c).quiet fun r hr => ?_
  · rw [hsame j hj]
    exact .refl _
  · rw [hsame _ (h.isOf r hr).lt_size]

theorem heard_of_sowing {m : Run α} (hm : Sowing c.graph.size m) (hbesides : Besides m)
    (h : c.Heard d topics) : (after m c).Heard d topics := by
  obtain ⟨rounds, h⟩ := h
  exact ⟨rounds, discussed_of_sowing hm hbesides h⟩

/-- A field becomes a property of the query object, which is no composition. -/
theorem heard_put (h : c.Heard d topics) (hquery : (c.graph.node query).body = .object) (i : NodeId) :
    (after (Run.put query i) c).Heard d topics := by
  cases hkey : (c.graph.node i).name.key? with
  | none =>
    rw [after_of_error (put_of_key_eq_none hkey query)]
    exact h
  | some key =>
    rw [after_of_ok (put_of_key_eq_some hkey query)]
    have hbody : ∀ j, ((c.graph.update query fun n => n.putProperty key i).node j).body =
        (c.graph.node j).body := by
      intro j
      rw [Graph.node_update_eq]
      split
      · next hj => rw [Node.body_putProperty, hj.1]
      · rfl
    refine h.later ⟨(Graph.size_update _ _ _).ge, fun j _ => ?_, fun j _ => by rw [hbody],
      fun j _ _ => hbody j⟩ ⟨[], rfl, nofun⟩ fun j _ ⟨members, hcomposed⟩ => ?_
    · rw [Graph.node_update_eq]
      split
      · next hj => rw [Node.name_putProperty, hj.1]
      · rfl
    · have hne : j ≠ query := by
        rintro rfl
        rw [hquery] at hcomposed
        cases hcomposed
      rw [Graph.node_update_of_ne c.graph hne]

/-! ## Visits -/

theorem asks_visit (hs : c.Sound d q) (hb : c.Budding i top) (hp : c.Paused) (h : c.Heard d topics) :
    Asks d topics (Visit.visit d i) c := by
  obtain ⟨rounds, hconversing⟩ := hp.conversing hs h
  exact Asks.congr (Visit.questioning_visitWithin (Visit.depthBound d c.graph) hconversing hb).append rfl

theorem asks_resolveRef (hs : c.Sound d q) (hp : c.Paused) (h : c.Heard d topics)
    (owner : Option NodeId) (ref : Json) : Asks d topics (Visit.resolveRef d owner ref) c := by
  obtain ⟨rounds, hconversing⟩ := hp.conversing hs h
  exact Asks.congr (Visit.asks_resolve (Visit.depthBound d c.graph) hconversing owner ref).append rfl

theorem asks_resolveEach (hs : c.Sound d q) (hp : c.Paused) (h : c.Heard d topics)
    (refs : List String) :
    Asks d topics (refs.forM fun ref => do
      let _ ← Visit.resolveRef d none (.str ref) : Run Unit) c := by
  induction refs generalizing c with
  | nil => exact .inl h
  | cons ref rest ih =>
    have hone : Asks d topics (do let _ ← Visit.resolveRef d none (.str ref) : Run Unit) c :=
      (asks_resolveRef hs hp h none _).bind fun _ _ _ h₁ => .inl h₁
    refine hone.bind fun u c₁ hrun h₁ => ?_
    obtain ⟨i, c₂, hresolve, hrun⟩ := bind_eq_ok_iff.1 hrun
    cases hrun
    have hs₁ := (Visit.works_resolveRef hs none (.str ref)).sound
    rw [after_of_ok hresolve] at hs₁
    exact ih hs₁ (hp.back ((Visit.backing_resolveRef d none _).of_ok hresolve)) h₁

/-- The query object is built without a question. -/
theorem asks_addEach (hrooted : c.Rooted A d query) (h : c.Heard d topics)
    (operations : List Operation) :
    Asks d topics (operations.forM fun op => do
      Run.put query (← operationField query op) : Run Unit) c := by
  induction operations generalizing c A with
  | nil => exact .inl h
  | cons op rest ih =>
    have hone : Asks d topics (do Run.put query (← operationField query op) : Run Unit) c := by
      refine Asks.bind (.inl (heard_of_sowing (sowing_operationField query op)
        (besides_operationField query op) h)) fun field c₁ hfield h₁ => .inl (heard_put h₁ ?_ field)
      obtain ⟨hsown, -⟩ := sown_operationField hfield
      exact ((hsown.sound hrooted.rest.sound).handmade query rfl).2
    refine hone.bind fun u c₁ hop h₁ => ?_
    obtain ⟨B, hB⟩ := hrooted.add hop
    exact ih hB h₁

theorem asks_buildQuery (hrest : c.AtRest (fun _ => False) d none) (h : c.Heard d topics)
    (operations : List Operation) : Asks d topics (buildQuery config operations) c := by
  refine Asks.bind (.inl (heard_of_sowing (sowing_alloc _) (besides_newQuery config) h))
    fun query c₁ hnew h₁ => ?_
  exact (asks_addEach (hrest.newQuery hnew) h₁ operations).bind fun _ _ _ h₂ => .inl h₂

/-- Everything that definitions speak of is visited in rounds of questions. -/
theorem asks_visitAll (d : Document) (config : Config) (oracle : Oracle) :
    Asks d [] (visitAll d config) (start oracle) := by
  have hstart := atRest_start d oracle
  have hheard := (discussed_start d oracle).heard
  have hschemas : Asks d [] (resolveSchemas d) (start oracle) := by
    refine ((Run.moving_lift _).asks hheard).bind fun schemas c₁ hlift h₁ => ?_
    obtain ⟨-, rfl⟩ := Visit.eq_ok_of_lift hlift
    exact asks_resolveEach hstart.sound (paused_start oracle) h₁ _
  refine hschemas.bind fun u c₁ hresolve h₁ => ?_
  obtain ⟨schemas, c₀, hlift, hresolve⟩ := bind_eq_ok_iff.1 hresolve
  obtain ⟨-, rfl⟩ := Visit.eq_ok_of_lift hlift
  have hrest := atRest_resolveEach hstart hresolve
  have hpaused : c₁.Paused := by
    refine (paused_start oracle).back (Backing.of_ok ?_ hresolve)
    exact backing_forM (fun ref => (Visit.backing_resolveRef d none _).bind fun _ =>
      (returning_pure ()).backing) _
  refine ((Run.moving_lift _).asks h₁).bind fun operations c₂ hwanted h₂ => ?_
  obtain ⟨-, rfl⟩ := Visit.eq_ok_of_lift hwanted
  refine (asks_buildQuery hrest h₂ operations).bind fun query c₃ hbuild h₃ => ?_
  obtain ⟨B, hrooted⟩ := rooted_buildQuery hrest hbuild
  refine Asks.bind ?_ fun _ _ _ h₄ => .inl h₄
  exact asks_visit hrooted.rest.sound hrooted.budding
    (hpaused.back ((besides_buildQuery _ _).backing.of_ok hbuild)) h₃

theorem heard_drafting {step : Drafting α} (hstep : Returning step) (h : c.Heard d topics) :
    Asks d topics (drafting step) c := by
  have hreturned := hstep { context := c }
  refine .inl (Heard.way h ?_ ?_)
  all_goals
    have hafter : after (drafting step) c = (after step { context := c }).context := by
      rw [after, drafting, after]
      cases step { context := c } <;> rfl
  · exact (congrArg graph hafter).trans hreturned.graph
  · show c.Quiet (after (drafting step) c)
    rw [hafter]
    exact hreturned.quiet

theorem asks_definitions (d : Document) (config : Config) (oracle : Oracle) :
    Asks d [] (definitions d config) (start oracle) := by
  refine (asks_visitAll d config oracle).bind fun query c₁ _ h₁ => ?_
  refine Asks.bind (s := c₁) (m := get) (.inl h₁) fun c₂ c₃ hget h₂ => ?_
  refine ((Run.moving_lift _).asks h₂).bind fun roots c₄ _ h₄ => ?_
  exact heard_drafting (Drafting.returning_definitions config roots (some query)) h₄

/-! ## Turns of a selection -/

theorem asks_visitOperation (hrest : c.AtRest A d (some query)) (hp : c.Paused) (h : c.Heard d topics)
    (op : Operation) : Asks d topics (visitOperation d query op) c := by
  refine Asks.bind (.inl (heard_of_sowing (sowing_operationField query op)
    (besides_operationField query op) h)) fun field c₁ hfield h₁ => ?_
  have hobject : (c₁.graph.node query).body = .object := by
    obtain ⟨hsown, -⟩ := sown_operationField hfield
    exact ((hsown.sound hrest.sound).handmade query rfl).2
  refine Asks.bind (.inl (heard_put h₁ hobject field)) fun u c₂ hput h₂ => ?_
  obtain ⟨hs, top, hb⟩ := budding_of_field hrest hfield hput
  refine Asks.bind (asks_visit hs hb ?_ h₂) fun _ _ _ h₃ => .inl h₃
  exact (hp.back ((besides_operationField _ _).backing.of_ok hfield)).back
    ((besides_put _ _).backing.of_ok hput)

/-- An operation has its turn, in which the answer says whether it is wanted. -/
theorem turn_selectOperation {s : SelectionDraft} (hrest : s.context.AtRest A d (some query))
    (hp : s.context.Paused) (h : s.context.Discussed d topics) (op : Operation) :
    ∃ t : Turn, t.op = op ∧
      (after (selectOperation d query op) s).context.About d (topics ++ t.topics) ∧
      ∀ u s', selectOperation d query op s = .ok u s' →
        s'.context.Discussed d (topics ++ t.topics) ∧
          ∃ s₁, Selecting.run (Run.askYesNo ("Visit path " ++ op.text ++ "?")) s =
            .ok (t.answer == .yes) s₁ := by
  let question : Question := ⟨.yesNo, "Visit path " ++ op.text ++ "?"⟩
  rcases ask_cases question hp.inStep with ⟨answer, c₁, hask, hsaid, -⟩ | ⟨fault, c₁, hask, hsaid, -⟩
  · have hyesNo : Selecting.run (Run.askYesNo question.text) s =
        .ok (answer == .yes) { s with context := c₁ } := by
      have hone : Run.askYesNo question.text s.context = .ok (answer == .yes) c₁ := bind_of_ok hask
      rw [Selecting.run, hone]
    have hstill := (Run.idle_ask question).of_ok hask
    have hp₁ := hp.back hsaid.toSpoke.retained.back
    have h₁ : c₁.Discussed d (topics ++ [.path op answer]) := h.path hp hsaid
    by_cases hwanted : answer = .yes
    · subst hwanted
      have hasks : Asks d (topics ++ [.path op .yes]) (do
          Selecting.run (Run.log .info .conversion ("Visiting path " ++ op.text))
          let field ← Selecting.run (visitOperation d query op)
          Selecting.select (some field) : Selecting Unit) { s with context := c₁ } := by
        refine ((Run.moving_log _ _ _).asks h₁.heard).selecting.bind fun u s₂ hlog h₂ => ?_
        have hroams := (Selecting.roaming_run (Run.idle_log _ _ _)).of_ok hlog
        have hrest₂ := (hrest.still hstill).roams hroams
        have hp₂ := hp₁.back ((Selecting.returning_run (Run.returning_log _ _ _)).backing.of_ok hlog)
        refine (asks_visitOperation hrest₂ hp₂ h₂ op).selecting.bind fun field s₃ _ h₃ => ?_
        exact (Selecting.returning_select (some field)).asks h₃
      obtain ⟨rounds, habout, hok⟩ := hasks.about
      rw [List.append_assoc] at habout hok
      have hrun := bind_of_ok hyesNo (f := fun wanted => (if wanted then do
          Selecting.run (Run.log .info .conversion ("Visiting path " ++ op.text))
          let field ← Selecting.run (visitOperation d query op)
          Selecting.select (some field)
        else Selecting.run (Run.log .info .conversion ("Skipping path " ++ op.text)) : Selecting Unit))
      refine ⟨⟨op, .yes, rounds, absurd rfl⟩, rfl, ?_, fun u s' hselect => ?_⟩
      · rw [after, show selectOperation d query op s = _ from hrun]
        exact habout
      · exact ⟨hok u s' (hrun.symm.trans hselect), _, hyesNo⟩
    · have hnot : (answer == .yes) = false := by simpa using hwanted
      rw [hnot] at hyesNo
      have hrun : selectOperation d query op s =
          Selecting.run (Run.log .info .conversion ("Skipping path " ++ op.text))
            { s with context := c₁ } := bind_of_ok hyesNo
      have hreturned := Selecting.returning_run
        (Run.returning_log .info .conversion ("Skipping path " ++ op.text)) { s with context := c₁ }
      have hdiscussed := h₁.of_graph_eq hreturned.graph hreturned.quiet
      refine ⟨⟨op, answer, [], fun _ => rfl⟩, rfl, .inl ?_, fun u s' hselect => ?_⟩
      · rw [after, hrun]
        exact hdiscussed
      · rw [after_of_ok (hrun.symm.trans hselect)] at hdiscussed
        exact ⟨hdiscussed, _, by rw [hnot]; exact hyesNo⟩
  · have hyesNo : Selecting.run (Run.askYesNo question.text) s = .error fault { s with context := c₁ } := by
      have hone : Run.askYesNo question.text s.context = .error fault c₁ := bind_of_error hask
      rw [Selecting.run, hone]
    have hrun : selectOperation d query op s = .error fault { s with context := c₁ } :=
      bind_of_error hyesNo
    refine ⟨⟨op, .no, [], fun _ => rfl⟩, rfl, .inr ⟨topics, .path op .no, rfl, ?_⟩, fun u s' hselect => ?_⟩
    · rw [after_of_error hrun]
      exact h.path_unanswered hp hsaid .no
    · rw [hrun] at hselect
      cases hselect

/-- Operations have their turns one after the other. -/
theorem turns_selectEach {s : SelectionDraft} (hrest : s.context.AtRest A d (some query))
    (hq : ¬s.context.Visited query) (hp : s.context.Paused) (h : s.context.Discussed d topics)
    (operations : List Operation) :
    ∃ turns : List Turn, turns.map Turn.op <+: operations ∧
      (after (operations.forM (selectOperation d query)) s).context.About d
        (topics ++ turns.flatMap Turn.topics) ∧
      ∀ u s', operations.forM (selectOperation d query) s = .ok u s' →
        s'.context.Discussed d (topics ++ turns.flatMap Turn.topics) ∧ turns.map Turn.op = operations := by
  induction operations generalizing s A topics with
  | nil =>
    rw [← List.append_nil topics] at h
    refine ⟨[], List.prefix_rfl, .inl h, fun u s' hselect => ?_⟩
    cases hselect
    exact ⟨h, rfl⟩
  | cons op rest ih =>
    obtain ⟨t, rfl, habout, hok⟩ := turn_selectOperation hrest hp h op
    have hone : ∀ more : List Turn, topics ++ (t :: more).flatMap Turn.topics =
        topics ++ t.topics ++ more.flatMap Turn.topics := fun more => by
      rw [List.flatMap_cons, List.append_assoc]
    cases hop : selectOperation d query t.op s with
    | error fault s₁ =>
      have hrun : (t.op :: rest).forM (selectOperation d query) s = .error fault s₁ := bind_of_error hop
      rw [after_of_error hop] at habout
      refine ⟨[t], ⟨rest, rfl⟩, ?_, fun u s' hselect => ?_⟩
      · rw [after_of_error hrun, hone, List.flatMap_nil, List.append_nil]
        exact habout
      · rw [hrun] at hselect
        cases hselect
    | ok u s₁ =>
      have hrun : (t.op :: rest).forM (selectOperation d query) s =
          rest.forM (selectOperation d query) s₁ := bind_of_ok hop
      obtain ⟨B, hrest₁, hq₁⟩ := Selecting.atRest_selectOperation hrest hq hop
      have hp₁ := hp.back ((backing_selectOperation d query t.op).of_ok hop)
      obtain ⟨turns, hturns, habout', hok'⟩ := ih hrest₁ hq₁ hp₁ (hok u s₁ hop).1
      refine ⟨t :: turns, List.prefix_cons_inj t.op |>.2 hturns, ?_, fun u' s' hselect => ?_⟩
      · rw [hone, after, hrun]
        exact habout'
      · obtain ⟨hdiscussed, hall⟩ := hok' u' s' (hrun.symm.trans hselect)
        rw [hone, List.map_cons, hall]
        exact ⟨hdiscussed, rfl⟩

theorem turns_selection (d : Document) (config : Config) (oracle : Oracle) :
    ∃ turns : List Turn,
      (after (selection d config) (start oracle)).About d (turns.flatMap Turn.topics) ∧
      turns.map Turn.op <+: (wantedOperations d config).toOption.getD [] ∧
      ∀ lines c, selection d config (start oracle) = .ok lines c →
        c.Discussed d (turns.flatMap Turn.topics) ∧
          wantedOperations d config = .ok (turns.map Turn.op) := by
  obtain ⟨query, c₁, hnew⟩ : ∃ query c₁, newQuery config (start oracle) = .ok query c₁ := ⟨_, _, rfl⟩
  have hrooted := (atRest_start d oracle).newQuery hnew
  have hq : ¬c₁.Visited query := by
    rw [Visited, hrooted.budding.sprout.bud.unvisited]
    exact Bool.false_ne_true
  have hp : c₁.Paused := (paused_start oracle).back ((besides_newQuery config).backing.of_ok hnew)
  have h₁ := discussed_of_sowing (m := newQuery config) (sowing_alloc _) (besides_newQuery config)
    (discussed_start d oracle)
  rw [after_of_ok hnew] at h₁
  cases hwanted : wantedOperations d config with
  | error fault =>
    have hrun : selection d config (start oracle) = .error fault c₁ := by
      rw [selection, bind_of_ok hnew, hwanted]
      rfl
    refine ⟨[], .inl ?_, List.nil_prefix, fun lines c hselection => ?_⟩
    · rw [after_of_error hrun]
      exact h₁
    · rw [hrun] at hselection
      cases hselection
  | ok operations =>
    have hrun : selection d config (start oracle) =
        selecting (operations.forM (selectOperation d query)) c₁ := by
      rw [selection, bind_of_ok hnew, hwanted]
      rfl
    obtain ⟨turns, hturns, habout, hok⟩ :=
      turns_selectEach (s := { context := c₁ }) hrooted.rest hq hp h₁ operations
    refine ⟨turns, ?_, hturns, fun lines c hselection => ?_⟩
    · have hafter : after (selection d config) (start oracle) =
          (after (operations.forM (selectOperation d query) : Selecting Unit)
            { context := c₁ }).context := by
        rw [after, hrun, selecting, after]
        cases (operations.forM (selectOperation d query) : Selecting Unit) { context := c₁ } <;> rfl
      rwa [hafter]
    · rw [hrun, selecting] at hselection
      cases heach : (operations.forM (selectOperation d query) : Selecting Unit) { context := c₁ } with
      | error fault s =>
        rw [heach] at hselection
        cases hselection
      | ok u s =>
        rw [heach] at hselection
        cases hselection
        obtain ⟨hdiscussed, hall⟩ := hok u s heach
        exact ⟨hdiscussed, by rw [hall]⟩

/-! ## Runs -/

/-- The questions and answers of a run, finished or failed, are those about certain topics, or begin them
and end in the midst of the last one. For definitions these are rounds: one question that lists what the
members of an `allOf` bring in, followed, just if the answer is to choose one by one, by the questions
about each in that order. For selections the operations have their turns in the order of the document:
the question whether to select one, followed by rounds if it is wanted. A round is put inside of its
`allOf` and no other composition, no two are about the same one, and it ends up with what is wanted, in
that order. A run that succeeds leaves nothing to ask. -/
theorem about_run (d : Document) (config : Config) (oracle : Oracle) :
    (∃ rounds : List Round,
      (after (run .definitions d config) (start oracle)).About d (rounds.map .round) ∧
      ∀ text c, run .definitions d config (start oracle) = .ok text c →
        c.Discussed d (rounds.map .round)) ∧
    ∃ turns : List Turn,
      (after (run .selection d config) (start oracle)).About d (turns.flatMap Turn.topics) ∧
      turns.map Turn.op <+: (wantedOperations d config).toOption.getD [] ∧
      ∀ text c, run .selection d config (start oracle) = .ok text c →
        c.Discussed d (turns.flatMap Turn.topics) ∧
          wantedOperations d config = .ok (turns.map Turn.op) := by
  constructor
  · have hasks : Asks d [] (run .definitions d config) (start oracle) :=
      (asks_definitions d config oracle).bind fun _ _ _ h => .inl h
    exact hasks.about
  · obtain ⟨turns, habout, hturns, hok⟩ := turns_selection d config oracle
    refine ⟨turns, ?_, hturns, fun text c hrun => ?_⟩
    · have hafter : after (run .selection d config) (start oracle) =
          after (selection d config) (start oracle) := by
        rw [run]
        cases hselection : selection d config (start oracle) with
        | ok lines c => rw [after, bind_of_ok hselection, after_of_ok hselection]; rfl
        | error fault c => rw [after, bind_of_error hselection, after_of_error hselection]
      rwa [hafter]
    · obtain ⟨lines, c₁, hselection, hrun⟩ := bind_eq_ok_iff.1 hrun
      cases hrun
      exact hok lines c hselection

/-- A round in which the candidates are chosen one by one. -/
example : (after (run .definitions oneComposition {})
    (start (.ofRecording [.subset, .yes]))).posed =
      [(⟨.yesNoSubset, " -> Add all properties from #/components/schemas/Pet?: \n - name\n"⟩, [⟨0⟩]),
        (⟨.yesNo, "Add field 'name: string'?"⟩, [⟨0⟩])] := by
  decide +kernel

end Conversion

end ApiGraph
