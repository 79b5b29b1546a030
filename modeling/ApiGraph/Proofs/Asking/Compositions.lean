import ApiGraph.Proofs.Asking.Quiet
import ApiGraph.Proofs.Asking.Speaking
import ApiGraph.Proofs.Restoring.Watching

/-!
# The round of one composition

An `allOf` outside of all other compositions asks one round, after all of its members were visited, and
takes over what is wanted. It ends in the midst of the round only when it fails there.

* `Asks` — a computation asks in rounds;
* `Context.Alone` — the run has gone into an `allOf` outside of all other compositions;
* `Context.Poised` — the properties for its round are collected, and nothing was asked about them;
* `Visit.asks_visitAllOf`, `Visit.asks_visitComposed` — the round.
-/

namespace ApiGraph

open OrderedMap Context Contextual

variable {α β : Type} {d : Document} {q : Option NodeId} {c c' : Context} {i : NodeId} {top : Nat}
  {topics : List Topic} {r : Round}

/-! ## Computations that ask in rounds -/

namespace Context

/-- Whole rounds were asked after certain topics. -/
def Heard (d : Document) (topics : List Topic) (c : Context) : Prop :=
  ∃ rounds : List Round, c.Discussed d (topics ++ rounds.map .round)

/-- After certain topics and whole rounds, one more round broke off. -/
def Interrupted (d : Document) (topics : List Topic) (c : Context) : Prop :=
  ∃ (rounds : List Round) (last : Round),
    c.BrokenOff d (topics ++ rounds.map .round) (.round last)

theorem Discussed.heard (h : c.Discussed d topics) : c.Heard d topics := ⟨[], by simpa using h⟩

theorem Heard.append {rounds : List Round} (h : c.Heard d (topics ++ rounds.map .round)) :
    c.Heard d topics := by
  obtain ⟨more, h⟩ := h
  rw [List.append_assoc, ← List.map_append] at h
  exact ⟨rounds ++ more, h⟩

theorem Interrupted.append {rounds : List Round}
    (h : c.Interrupted d (topics ++ rounds.map .round)) : c.Interrupted d topics := by
  obtain ⟨more, last, h⟩ := h
  rw [List.append_assoc, ← List.map_append] at h
  exact ⟨rounds ++ more, last, h⟩

theorem Heard.later (h : c.Heard d topics) (hgrown : c.graph.Grown c'.graph)
    (hquiet : c.Quiet c')
    (hprops : ∀ j, j.index < c.graph.size → (∃ members, (c.graph.node j).body = .composed .allOf members) →
      (c'.graph.node j).props = (c.graph.node j).props) : c'.Heard d topics := by
  obtain ⟨rounds, h⟩ := h
  exact ⟨rounds, h.later hgrown hquiet fun r hr => hprops _ (h.isOf r hr).lt_size (h.isOf r hr).allOf⟩

theorem Heard.moves {X : NodeId → Prop} (h : c.Heard d topics) (hmoves : c.Moves X c')
    (hX : ∀ j, X j → ∀ members, (c.graph.node j).body ≠ .composed .allOf members) : c'.Heard d topics := by
  refine h.later hmoves.grown hmoves.quiet fun j hj ⟨members, hbody⟩ => ?_
  rw [hmoves.spared j hj fun hXj => hX j hXj members hbody]

/-- A step into a node or out of one. -/
theorem Heard.way (h : c.Heard d topics) (hgraph : c'.graph = c.graph) (hquiet : c.Quiet c') :
    c'.Heard d topics := by
  obtain ⟨rounds, h⟩ := h
  exact ⟨rounds, h.of_graph_eq hgraph hquiet⟩

theorem Interrupted.way (h : c.Interrupted d topics) (hgraph : c'.graph = c.graph)
    (hquiet : c.Quiet c') : c'.Interrupted d topics := by
  obtain ⟨rounds, last, h⟩ := h
  exact ⟨rounds, last, h.later (Graph.grown_of_eq hgraph) hquiet fun _ _ => by rw [hgraph]⟩

theorem graph_leave (c : Context) : c.leave.graph = c.graph := by
  unfold leave
  split <;> rfl

end Context

section

variable {σ : Type} [Contextual σ] {s s' : σ}

/-- A computation asks in rounds. If it ends in the midst of one, it fails. -/
def Asks (d : Document) (topics : List Topic) (m : EStateM Fault σ α) (s : σ) : Prop :=
  (context (after m s)).Heard d topics ∨
    ∃ fault s', m s = .error fault s' ∧ (context s').Interrupted d topics

theorem Asks.bind {m : EStateM Fault σ α} {f : α → EStateM Fault σ β} (hm : Asks d topics m s)
    (hf : ∀ a s', m s = .ok a s' → (context s').Heard d topics → Asks d topics (f a) s') :
    Asks d topics (m >>= f) s := by
  cases hms : m s with
  | ok a s₁ =>
    rcases hm with hm | ⟨fault, s', he, -⟩
    · rw [after_of_ok hms] at hm
      rcases hf a s₁ hms hm with h | ⟨fault, s', he, h⟩
      · refine .inl ?_
        rwa [after, bind_of_ok hms]
      · exact .inr ⟨fault, s', (bind_of_ok hms).trans he, h⟩
    · rw [hms] at he
      cases he
  | error fault s₁ =>
    rcases hm with hm | ⟨fault', s', he, h⟩
    · rw [after_of_error hms] at hm
      refine .inl ?_
      rwa [after_of_error (bind_of_error hms)]
    · rw [hms] at he
      cases he
      exact .inr ⟨fault, s₁, bind_of_error hms, h⟩

theorem Asks.congr {m m' : EStateM Fault σ α} (h : Asks d topics m' s) (he : m s = m' s) :
    Asks d topics m s := by
  rwa [Asks, after, he]

/-- What is asked after some rounds is asked in rounds. -/
theorem Asks.append {m : EStateM Fault σ α} {rounds : List Round}
    (h : Asks d (topics ++ rounds.map .round) m s) : Asks d topics m s :=
  h.imp Heard.append fun ⟨fault, s', he, h⟩ => ⟨fault, s', he, h.append⟩

end

/-- A step that asks nothing and leaves all compositions alone. -/
theorem Moving.asks {m : Run α} (hm : Moving (fun _ => False) m) (h : c.Heard d topics) :
    Asks d topics m c :=
  .inl (h.moves (hm c) nofun)

/-- A node is gone into and left again. -/
theorem Asks.within {m : Run Unit} (h : Asks d topics m (c.enter (some i))) :
    Asks d topics (Run.within i m) c := by
  rcases h with h | ⟨fault, c', he, h⟩
  · refine .inl ?_
    rw [after_within]
    exact h.way (graph_leave _) (quiet_leave _)
  · refine .inr ⟨fault, c'.leave, ?_, h.way (graph_leave c') (quiet_leave c')⟩
    rw [Run.within, he]

/-! ## One round -/

namespace Context

/-- Properties for the round of an `allOf` are collected, which no other composition is around, and
nothing was asked about them. -/
structure Poised (d : Document) (topics : List Topic) (i : NodeId) (collected : OrderedMap Key NodeId)
    (c : Context) : Prop where
  discussed : c.Discussed d topics
  counted : c.Counted
  inStep : c.InStep
  alone : c.compositions = [i]
  allOf : ∃ members, (c.graph.node i).body = .composed .allOf members
  entered : i ∈ c.entered
  fresh : ∀ r, .round r ∈ topics → r.node ≠ i
  untouched : (c.graph.node i).props = []
  called : ∀ e ∈ collected, c.graph.Called e
  distinct : Distinct (keys collected)
  collected : ∃ depth before, Visit.collect (Visit.visitWithin d depth) i before = .ok collected c

variable {collected : OrderedMap Key NodeId} {qs : List Question} {as : List Answer}

theorem Poised.posed (h : c.Poised d topics r.node collected) (hsaid : c.Says c' qs as) :
    c'.posed = c.posed ++ qs.map fun q => (q, [r.node]) := by
  have halone := h.alone
  rw [Context.compositions] at halone
  rw [Context.posed, Context.posed, hsaid.asked, hsaid.graph, List.map_append, List.map_map]
  simp only [Function.comp_def, halone]

/-- Whatever of the round is put, it is about the composition. -/
theorem Poised.surveyed (h : c.Poised d topics r.node collected) (hcovers : r.Covers c collected)
    (hsaid : c.Says c' qs as) (htold : .asked r.question :: c.transcript <:+ c'.transcript) :
    c'.Surveyed d (topics ++ [.round r]) := by
  have hrounds : ∀ s, .round s ∈ topics ++ [.round r] → .round s ∈ topics ∨ s = r := by
    intro s hs
    rcases List.mem_append.1 hs with hs | hs
    · exact .inl hs
    · cases List.mem_singleton.1 hs
      exact .inr rfl
  have hnames : (r.candidates.map Candidate.name).Nodup := by
    have hdistinct := h.distinct
    rw [← hcovers.entries, keys, List.map_map, Distinct] at hdistinct
    refine List.pairwise_map.2 ((List.pairwise_map.1 hdistinct).imp fun {a b} hab heq => ?_)
    simp only [Function.comp_def, Candidate.entry, heq, beq_self_eq_true] at hab
    cases hab
  have hsuffix : c.transcript <:+ c'.transcript := hsaid.told_suffix
  refine ⟨fun p hp j hj => ?_, fun s hs => ?_, fun s hs => ?_, ?_⟩
  · rw [hsaid.graph]
    rw [hsaid.asked] at hp
    rcases List.mem_append.1 hp with hp | hp
    · exact h.discussed.inside_lt p hp j hj
    · obtain ⟨_, -, rfl⟩ := List.mem_map.1 hp
      exact h.counted.lt_size j hj
  · rcases hrounds s hs with hs | rfl
    · exact (h.discussed.isOf s hs).later (Graph.grown_of_eq hsaid.graph) hsuffix
    · obtain ⟨depth, before, hcollect⟩ := h.collected
      refine ⟨?_, hcovers.nonempty, hnames, ?_, depth, before, c, ?_, htold⟩
      · rw [hsaid.graph]
        exact h.allOf
      · rw [hsaid.graph]
        exact hcovers.called
      · rw [hcovers.entries]
        exact hcollect
  · rcases hrounds s hs with hs | rfl
    · exact mem_entered_of_told hsuffix (h.discussed.entered s hs)
    · exact mem_entered_of_told hsuffix h.entered
  · rw [List.filterMap_append]
    refine List.nodup_append.2 ⟨h.discussed.nodup, List.nodup_singleton _, fun j hj k hk hjk => ?_⟩
    obtain ⟨topic, htopic, hnode⟩ := List.mem_filterMap.1 hj
    cases List.mem_singleton.1 hk
    cases topic with
    | path op answer => cases hnode
    | round s =>
      cases hnode
      exact h.fresh s htopic hjk

theorem inquiriesOf_append (topics more : List Topic) :
    inquiriesOf (topics ++ more) = inquiriesOf topics ++ inquiriesOf more := List.flatMap_append

theorem inquiriesOf_round (r : Round) : inquiriesOf [.round r] = r.inquiries :=
  List.append_nil _

theorem Round.posed_inquiries (r : Round) :
    r.inquiries.map Inquiry.posed = (r.inquiries.map Inquiry.question).map fun q => (q, [r.node]) := by
  rw [List.map_map]
  refine List.map_congr_left fun x hx => ?_
  have hx : x.compositions = [r.node] := by
    rcases List.mem_cons.1 hx with rfl | hx
    · rfl
    · split at hx
      · obtain ⟨a, -, rfl⟩ := List.mem_map.1 hx
        rfl
      · cases hx
  rw [Inquiry.posed, hx]
  rfl

/-- When the round breaks off, nothing was taken over yet. -/
theorem Poised.brokenOff (h : c.Poised d topics r.node collected) (hcovers : r.Covers c collected)
    (hbreaks : c.Breaks c' r.inquiries) (htold : .asked r.question :: c.transcript <:+ c'.transcript) :
    c'.BrokenOff d topics (.round r) := by
  obtain ⟨qs, as, hsaid, hqs, has, hlength, hleft⟩ := hbreaks
  have hposed : c'.posed = (inquiriesOf topics).map Inquiry.posed ++ qs.map fun q => (q, [r.node]) := by
    rw [h.posed hsaid, h.discussed.posed]
  have hanswers : c'.answers = (inquiriesOf topics).map Inquiry.answer ++ as := by
    rw [hsaid.answered, h.discussed.answers]
  have hall : inquiriesOf (topics ++ [.round r]) = inquiriesOf topics ++ r.inquiries := by
    rw [inquiriesOf_append, inquiriesOf_round]
  refine ⟨h.surveyed hcovers hsaid htold, ?_, ?_, ?_, ?_, fun s hs => ?_⟩
  · rw [hposed, hall, List.map_append, Round.posed_inquiries]
    exact (List.prefix_append_right_inj _).2 (hqs.map _)
  · rw [hanswers, hall, List.map_append]
    exact (List.prefix_append_right_inj _).2 has
  · rw [hposed, hanswers]
    simp only [List.length_append, List.length_map]
    omega
  · rw [hanswers, hall]
    simp only [List.length_append, List.length_map]
    omega
  · rw [Round.Settled, hsaid.graph]
    exact h.discussed.settled s hs

/-- When all questions of the round are answered, the composition takes over what is wanted. -/
theorem Poised.discussed_gather (h : c.Poised d topics r.node collected) (hcovers : r.Covers c collected)
    (hspeaks : c.Speaks c' r.inquiries)
    (htold : .asked r.question :: c.transcript <:+ c'.transcript) :
    ({ c' with graph := c'.graph.gather r.node (r.kept.map Candidate.entry) } : Context).Discussed d
      (topics ++ [.round r]) := by
  have hgraph : c'.graph = c.graph := hspeaks.graph
  have hsurveyed := h.surveyed hcovers hspeaks htold
  obtain ⟨members, hbody⟩ := h.allOf
  have hcomposed : (c'.graph.node r.node).body.isComposed = true := by
    rw [hgraph, hbody]
    rfl
  have hgrown : c'.graph.Grown (c'.graph.gather r.node (r.kept.map Candidate.entry)) :=
    Graph.grown_of_kept (Graph.size_gather _ _ _).ge fun j _ => Graph.kept_gather hcomposed _ j
  have hquiet : c'.Quiet { c' with graph := c'.graph.gather r.node (r.kept.map Candidate.entry) } :=
    ⟨[], rfl, nofun⟩
  refine ⟨hsurveyed.later hgrown hquiet, ?_, ?_, fun s hs => ?_⟩
  · rw [posed_eq hsurveyed hgrown hquiet, h.posed hspeaks, h.discussed.posed, inquiriesOf_append,
      inquiriesOf_round, List.map_append, Round.posed_inquiries]
  · rw [hquiet.answers, hspeaks.answered, h.discussed.answers, inquiriesOf_append, inquiriesOf_round,
      List.map_append]
  · rw [Round.Settled]
    rcases List.mem_append.1 hs with hs | hs
    · rw [Graph.node_gather_of_ne (h.fresh s hs), hgraph]
      exact h.discussed.settled s hs
    · cases List.mem_singleton.1 hs
      have hlt := (h.surveyed hcovers hspeaks htold).isOf r (by simp) |>.lt_size
      rw [Graph.props_gather hlt, hgraph, h.untouched]
      exact insertAll_of_distinct (m := []) (hcovers.distinct_kept h.distinct)

/-! ## Inside an `allOf` -/

/-- What a conversation goes on from: all that was asked was about topics of which nothing is left to
ask. -/
structure Conversing (d : Document) (q : Option NodeId) (topics : List Topic) (c : Context) : Prop where
  sound : c.Sound d q
  counted : c.Counted
  inStep : c.InStep
  tidy : c.graph.Tidy
  discussed : c.Discussed d topics

/-- The run has gone into an `allOf`, which no other composition is around. -/
structure Alone (d : Document) (q : Option NodeId) (topics : List Topic) (i : NodeId) (c : Context) :
    Prop extends Conversing d q topics c where
  innermost : c.stack.head? = some (some i)
  composeDepth : c.composeDepth = 1
  lt_size : i.index < c.graph.size
  allOf : ∃ members, (c.graph.node i).body = .composed .allOf members
  entered : i ∈ c.entered
  fresh : ∀ r, .round r ∈ topics → r.node ≠ i
  untouched : (c.graph.node i).props = []

/-- Nothing has happened but steps that ask nothing and leave all compositions alone. -/
theorem Conversing.later (h : c.Conversing d q topics) (hs : c'.Sound d q)
    (hmoves : c.Moves (fun _ => False) c') : c'.Conversing d q topics := by
  refine ⟨hs, h.counted.restored hmoves.restored, hmoves.restored.inStep h.inStep, hmoves.tidy h.tidy,
    h.discussed.later hmoves.grown hmoves.quiet fun r hr => ?_⟩
  rw [hmoves.spared _ (h.discussed.isOf r hr).lt_size not_false]

theorem Alone.later (h : c.Alone d q topics i) (hstill : c.Still c')
    (hmoves : c.Moves (fun _ => False) c') : c'.Alone d q topics i := by
  have hgraph := hstill.graph
  refine ⟨h.toConversing.later (hstill.sound h.sound) hmoves, ?_, ?_, ?_, ?_, ?_, h.fresh, ?_⟩
  · rw [hmoves.stack]
    exact h.innermost
  · rw [hmoves.composeDepth]
    exact h.composeDepth
  · rw [hgraph]
    exact h.lt_size
  · rw [hgraph]
    exact h.allOf
  · rw [hstill.entered]
    exact h.entered
  · rw [hgraph]
    exact h.untouched

theorem Alone.isComposed (h : c.Alone d q topics i) : (c.graph.node i).body.isComposed = true := by
  obtain ⟨members, hbody⟩ := h.allOf
  rw [hbody]
  rfl

/-- The only composition that the run is inside of is counted once. -/
theorem compositions_eq_of_composeDepth (h : c.Counted) (hinnermost : c.stack.head? = some (some i))
    (hdepth : c.composeDepth = 1) (hi : (c.graph.node i).body.isComposed = true) :
    c.compositions = [i] := by
  obtain ⟨rest, hstack⟩ := List.head?_eq_some_iff.1 hinnermost
  have hcount := h.composeDepth
  have hothers : rest.countP c.isComposition = 0 := by
    have hcomposed : c.isComposition (some i) = true := hi
    rw [hdepth, hstack, List.countP_cons, if_pos hcomposed] at hcount
    omega
  have hnone : ((rest.filterMap id).filter fun j => (c.graph.node j).body.isComposed) = [] := by
    refine List.filter_eq_nil_iff.2 fun j hj => ?_
    obtain ⟨k, hk, hkj⟩ := List.mem_filterMap.1 hj
    cases hkj
    exact List.countP_eq_zero.1 hothers (some j) hk
  rw [Context.compositions, Graph.compositions, hstack]
  show List.filter _ (i :: rest.filterMap id) = [i]
  rw [List.filter_cons, if_pos hi, hnone]

theorem Alone.not_inComposition (h : c.Alone d q topics i) : c.inComposition (some i) = false := by
  have hmem : c.stack.contains (some i) = true :=
    List.contains_iff_mem.2 (List.mem_of_mem_head? h.innermost)
  have hcomposed : c.isComposition (some i) = true := h.isComposed
  simp only [inComposition, hcomposed, hmem, h.composeDepth]
  rfl

/-- While the members are visited, nothing is asked, and nothing that was there is touched. -/
theorem Alone.later_of_collect {depth : Nat} (h : c.Alone d q topics i)
    (hc' : c' = after (Visit.collect (Visit.visitWithin d depth) i) c) :
    c'.Alone d q topics i ∧ c.Hushed c' := by
  have hhushed := Visit.hushed_collect d depth i c (by rw [h.composeDepth]; exact Nat.one_pos)
  have hworks := works_collect (visits_visitWithin depth) h.sound i
  rw [← hc'] at hhushed
  have hgrows := hworks.grows
  have hs := hworks.sound
  rw [← hc'] at hgrows hs
  have hsame : ∀ j, j.index < c.graph.size → c'.graph.node j = c.graph.node j := fun j hj =>
    (hgrows.spared j hj).1
  refine ⟨⟨⟨hs, h.counted.restored hhushed.toRestored, hhushed.inStep h.inStep, hhushed.tidy h.tidy,
    h.discussed.later hhushed.grown hhushed.quiet fun r hr => ?_⟩, ?_, ?_, ?_, ?_, ?_,
    h.fresh, ?_⟩, hhushed⟩
  · rw [hsame _ (h.discussed.isOf r hr).lt_size]
  · rw [hhushed.stack]
    exact h.innermost
  · rw [hhushed.composeDepth]
    exact h.composeDepth
  · exact h.lt_size.trans_le hhushed.size_le
  · rw [hsame i h.lt_size]
    exact h.allOf
  · exact mem_entered_of_told hhushed.told h.entered
  · rw [hsame i h.lt_size]
    exact h.untouched

theorem Alone.poised {depth : Nat} (h : c.Alone d q topics i)
    (hcollect : Visit.collect (Visit.visitWithin d depth) i c = .ok collected c') :
    c'.Poised d topics i collected := by
  obtain ⟨h', -⟩ := h.later_of_collect (after_of_ok hcollect).symm
  obtain ⟨hcalled, hdistinct⟩ := Visit.called_collect h.tidy hcollect
  exact ⟨h'.discussed, h'.counted, h'.inStep,
    compositions_eq_of_composeDepth h'.counted h'.innermost h'.composeDepth h'.isComposed,
    h'.allOf, h'.entered, h'.fresh, h'.untouched, hcalled, hdistinct, depth, c, hcollect⟩

end Context

namespace Visit

/-- An `allOf` outside of all other compositions takes over what is selected. -/
theorem visitAllOf_of_not_inComposition {v : Visitor} {collected : OrderedMap Key NodeId}
    (hcollect : collect v i c = .ok collected c') (hinside : c'.inComposition (some i) = false) :
    visitAllOf v i c = (do
      let kept ← select i collected
      kept.forM (Run.put i)
      storeNamed i : Run Unit) c' := by
  have hnot : ¬c'.inComposition (some i) = true := by
    rw [hinside]
    exact Bool.false_ne_true
  rw [visitAllOf, bind_of_ok hcollect, bind_of_ok (m := get) rfl]
  dsimp only
  rw [if_neg hnot]

/-- It asks one round, unless there is nothing to choose, and then takes over what is wanted. -/
theorem asks_visitAllOf {depth : Nat} (h : c.Alone d q topics i) :
    Asks d topics (visitAllOf (visitWithin d depth) i) c := by
  cases hcollect : collect (visitWithin d depth) i c with
  | error fault c₁ =>
    obtain ⟨h₁, -⟩ := h.later_of_collect (after_of_error hcollect).symm
    refine .inl ?_
    rw [visitAllOf, after_of_error (bind_of_error hcollect)]
    exact h₁.discussed.heard
  | ok collected c₁ =>
    obtain ⟨h₁, -⟩ := h.later_of_collect (after_of_ok hcollect).symm
    have hpoised := h.poised hcollect
    have hvisit := visitAllOf_of_not_inComposition hcollect h₁.not_inComposition
    have hstore : ∀ {c : Context}, c.Heard d topics → (after (storeNamed i) c).Heard d topics :=
      fun hc => hc.moves (moving_storeNamed (X := fun _ => False) i _) nofun
    rcases select_cases (i := i) hpoised.inStep hpoised.called with
      ⟨rfl, hselect⟩ | ⟨fault, hselect⟩ | ⟨r, rfl, hcovers, c₂, htold, hcases⟩
    · -- there is nothing to choose
      refine .inl ?_
      rw [after, hvisit, bind_of_ok hselect]
      exact hstore hpoised.discussed.heard
    · -- something has no name
      refine .inl ?_
      rw [after, hvisit, bind_of_error hselect]
      exact hpoised.discussed.heard
    rcases hcases with ⟨hselect, hspeaks⟩ | ⟨fault, hselect, hbreaks⟩
    · have hlt : r.node.index < c₂.graph.size := by
        rw [hspeaks.graph]
        exact h₁.lt_size
      have hnames : ∀ e ∈ r.kept.map Candidate.entry,
          ∃ s, e.1 = .text s ∧ (c₂.graph.node e.2).name = .str s := by
        intro e he
        obtain ⟨a, ha, rfl⟩ := List.mem_map.1 he
        refine ⟨a.name, rfl, ?_⟩
        rw [hspeaks.graph]
        exact hcovers.called a (r.kept_sublist.subset ha)
      have hput := putEach_eq hlt hnames
      have hvalues : values (r.kept.map Candidate.entry) = r.kept.map Candidate.property := by
        rw [values, List.map_map]
        rfl
      rw [hvalues] at hput
      have hheard : Heard d (topics ++ [r].map .round) _ :=
        (hpoised.discussed_gather hcovers hspeaks htold).heard
      refine .inl ?_
      rw [after, hvisit, bind_of_ok hselect, bind_of_ok hput]
      exact hstore hheard.append
    · refine .inr ⟨fault, c₂, hvisit.trans (bind_of_error hselect), [], r, ?_⟩
      rw [List.map_nil, List.append_nil]
      exact hpoised.brokenOff hcovers hbreaks htold

theorem asks_visitComposed {depth : Nat} (h : c.Alone d q topics i) (n : Node) (members : Option Json) :
    Asks d topics (visitComposed (visitWithin d depth) i n .allOf members) c := by
  -- the last trace comes after what the composition does
  have hout : ∀ c : Context, c.Alone d q topics i →
      Asks d topics (do
        visitAllOf (visitWithin d depth) i
        Run.trace "<- [composed]" ("out: " ++ n.nameOr "[object]")) c := fun c h =>
    (asks_visitAllOf h).bind fun _ _ _ hheard => (Run.moving_trace _ _).asks hheard
  refine ((Run.moving_trace _ _).asks h.discussed.heard).bind fun _ c₁ htrace _ => ?_
  have hmoves := Run.moving_trace (X := fun _ => False) "-> [composed]" ("in: " ++ n.nameOr "[object]") c
  rw [after_of_ok htrace] at hmoves
  have h₁ := h.later ((Run.idle_trace _ _).of_ok htrace) hmoves
  show Asks d topics (do
    unless c₁.inComposition (some i) do
      Run.log .info .visit ("In composed schema: " ++ n.nameOr (c₁.graph.inlineOwner i))
    visitAllOf (visitWithin d depth) i
    Run.trace "<- [composed]" ("out: " ++ n.nameOr "[object]") : Run Unit) c₁
  rw [h₁.not_inComposition]
  refine ((Run.moving_log _ _ _).asks h₁.discussed.heard).bind fun _ c₂ hlog _ => hout c₂ ?_
  have hmoves₂ := Run.moving_log (X := fun _ => False) .info .visit
    ("In composed schema: " ++ n.nameOr (c₁.graph.inlineOwner i)) c₁
  rw [after_of_ok hlog] at hmoves₂
  exact h₁.later ((Run.idle_log _ _ _).of_ok hlog) hmoves₂

end Visit

end ApiGraph
