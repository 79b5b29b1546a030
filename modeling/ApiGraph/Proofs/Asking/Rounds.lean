import ApiGraph.Proofs.Restoring.Visits

/-!
# Rounds of questions

What is asked during a run, where, and what is answered: which operations to select, and in rounds
which properties a composition by `allOf` takes over.

* `Transcript.posed`, `Context.posed` — the questions that were put, each with the compositions that
  the run was inside of;
* `Candidate`, `Round` — the candidates of a composition, the questions about them and the answers;
* `Topic` — what is asked about: an operation, or the candidates of a composition;
* `Round.IsOf` — a round is about the properties that a composition by `allOf` gathered;
* `Context.Discussed` — all that was asked in a run was about certain topics, of which nothing is left
  to ask.
-/

namespace ApiGraph

open OrderedMap Visit

/-! ## Questions that were put -/

/-- The questions that were put, each with the nodes that the run was inside of, the innermost first. -/
def Transcript.posed : Transcript → List (Question × List (Option NodeId))
  | [] => []
  | .asked q :: t => posed t ++ [(q, inside t)]
  | _ :: t => posed t

/-- The compositions among nodes. -/
def Graph.compositions (g : Graph) (nodes : List (Option NodeId)) : List NodeId :=
  (nodes.filterMap id).filter fun i => (g.node i).body.isComposed

namespace Context

/-- The compositions that the run is inside of, the innermost first. -/
def compositions (c : Context) : List NodeId := c.graph.compositions c.stack

/-- The questions that were put, each with the compositions that the run was inside of. -/
def posed (c : Context) : List (Question × List NodeId) :=
  c.transcript.posed.map fun p => (p.1, c.graph.compositions p.2)

/-- The answers that were given. -/
def answers (c : Context) : List Answer := c.transcript.answers

end Context

/-! ## Topics -/

/-- A question with the compositions that the run is inside of when it is put, and the answer. -/
structure Inquiry where
  question : Question
  compositions : List NodeId
  answer : Answer

/-- The question, and where it is put. -/
def Inquiry.posed (x : Inquiry) : Question × List NodeId := (x.question, x.compositions)

/-- A property that a composition may take over. -/
structure Candidate where
  name : String
  /-- The type of the property in words. -/
  type : String
  property : NodeId
  /-- The answer to the question about this candidate, if it is put. -/
  reply : Answer

namespace Candidate

/-- The question about one candidate. -/
def question (a : Candidate) : Question := ⟨.yesNo, "Add field '" ++ (a.name ++ ": " ++ a.type) ++ "'?"⟩

/-- The question about one candidate of a composition, inside of which it is put, and its answer. -/
def inquiry (node : NodeId) (a : Candidate) : Inquiry := ⟨a.question, [node], a.reply⟩

/-- The candidate as a property under its name. -/
def entry (a : Candidate) : Key × NodeId := (.text a.name, a.property)

end Candidate

/-- The questions about the candidates of a composition, and their answers. -/
structure Round where
  node : NodeId
  /-- The composition in words. -/
  owner : String
  candidates : List Candidate
  /-- The answer to the question about all candidates. -/
  answer : Answer

namespace Round

/-- The question about all candidates, which lists their names. -/
def question (r : Round) : Question :=
  ⟨.yesNoSubset, allQuestion r.owner (",\n - ".intercalate (r.candidates.map Candidate.name))⟩

/-- First the question about all candidates, and then just if the answer is to choose one by one, the
questions about each. All are put inside of the composition and no other one. -/
def inquiries (r : Round) : List Inquiry :=
  ⟨r.question, [r.node], r.answer⟩ ::
    if r.answer = .subset then r.candidates.map (Candidate.inquiry r.node) else []

/-- The candidates that are wanted: all, none, or those wanted one by one. -/
def kept (r : Round) : List Candidate :=
  match r.answer with
  | .yes => r.candidates
  | .no => []
  | .subset => r.candidates.filter fun a => a.reply == .yes

/-- A round is about what the members of an `allOf` bring in, under different names, of which there is
at least one. -/
structure IsOf (d : Document) (c : Context) (r : Round) : Prop where
  allOf : ∃ members, (c.graph.node r.node).body = .composed .allOf members
  nonempty : r.candidates ≠ []
  distinct : (r.candidates.map Candidate.name).Nodup
  called : ∀ a ∈ r.candidates, (c.graph.node a.property).name = .str a.name
  /-- The question is put right after the properties of the members were collected. -/
  collected : ∃ depth before after, collect (visitWithin d depth) r.node before =
    .ok (r.candidates.map Candidate.entry) after ∧ .asked r.question :: after.transcript <:+ c.transcript

/-- The composition has taken over what is wanted, in the order of the candidates. -/
def Settled (c : Context) (r : Round) : Prop :=
  (c.graph.node r.node).props = r.kept.map Candidate.entry

end Round

/-- What is asked about. -/
inductive Topic where
  /-- An operation, with the answer to the question about it. -/
  | path (op : Operation) (answer : Answer)
  | round (r : Round)

namespace Topic

/-- The questions about a topic. That about an operation is put outside of all compositions. -/
def inquiries : Topic → List Inquiry
  | path op answer => [⟨⟨.yesNo, "Visit path " ++ op.text ++ "?"⟩, [], answer⟩]
  | round r => r.inquiries

/-- The composition that a topic is about. -/
def node? : Topic → Option NodeId
  | path _ _ => none
  | round r => some r.node

end Topic

/-- What is asked about topics, one after the other. -/
def inquiriesOf (topics : List Topic) : List Inquiry := topics.flatMap Topic.inquiries

/-! ## What was discussed -/

variable {d : Document} {c c' c'' : Context} {topics : List Topic} {r : Round}

namespace Context

/-- Nothing was asked or answered. -/
def Quiet (c c' : Context) : Prop :=
  ∃ new, c'.transcript = new ++ c.transcript ∧ ∀ e ∈ new, e.isSpoken = false

/-- All rounds among topics were about compositions that were gone into, each of them once. -/
structure Surveyed (d : Document) (topics : List Topic) (c : Context) : Prop where
  inside_lt : ∀ p ∈ c.transcript.posed, ∀ i, some i ∈ p.2 → i.index < c.graph.size
  isOf : ∀ r, .round r ∈ topics → r.IsOf d c
  entered : ∀ r, .round r ∈ topics → r.node ∈ c.entered
  nodup : (topics.filterMap Topic.node?).Nodup

/-- All that was asked was about certain topics, of which nothing is left to ask. -/
structure Discussed (d : Document) (topics : List Topic) (c : Context) : Prop
    extends Surveyed d topics c where
  posed : c.posed = (inquiriesOf topics).map Inquiry.posed
  answers : c.answers = (inquiriesOf topics).map Inquiry.answer
  settled : ∀ r, .round r ∈ topics → r.Settled c

/-- All that was asked was about certain topics, and it ended in the midst of the last one. -/
structure BrokenOff (d : Document) (topics : List Topic) (last : Topic) (c : Context) : Prop
    extends Surveyed d (topics ++ [last]) c where
  posed : c.posed <+: (inquiriesOf (topics ++ [last])).map Inquiry.posed
  answers : c.answers <+: (inquiriesOf (topics ++ [last])).map Inquiry.answer
  unanswered : c.posed.length = c.answers.length ∨ c.posed.length = c.answers.length + 1
  left : c.answers.length < (inquiriesOf (topics ++ [last])).length
  settled : ∀ r, .round r ∈ topics → r.Settled c

end Context

/-! ## Transcripts -/

namespace Transcript

theorem posed_append {new : Transcript} (h : ∀ e ∈ new, e.isSpoken = false) (t : Transcript) :
    posed (new ++ t) = posed t := by
  induction new with
  | nil => rfl
  | cons e new ih =>
    obtain ⟨he, hnew⟩ := List.forall_mem_cons.1 h
    cases e <;> first | exact ih hnew | cases he

theorem answers_append {new : Transcript} (h : ∀ e ∈ new, e.isSpoken = false) (t : Transcript) :
    answers (new ++ t) = answers t :=
  filterMap_reverse_of_none (fun e he => by
    have := h e he
    cases e <;> first | rfl | cases this) t

end Transcript

namespace Context

theorem Quiet.refl (c : Context) : c.Quiet c := ⟨[], rfl, nofun⟩

theorem Quiet.trans (h : c.Quiet c') (h' : c'.Quiet c'') : c.Quiet c'' := by
  obtain ⟨new, hnew, hsilent⟩ := h
  obtain ⟨new', hnew', hsilent'⟩ := h'
  refine ⟨new' ++ new, by rw [hnew', hnew, List.append_assoc], fun e he => ?_⟩
  rcases List.mem_append.1 he with he | he
  · exact hsilent' e he
  · exact hsilent e he

theorem Quiet.told (h : c.Quiet c') : c.transcript <:+ c'.transcript := by
  obtain ⟨new, hnew, -⟩ := h
  exact ⟨new, hnew.symm⟩

theorem Quiet.posed (h : c.Quiet c') : c'.transcript.posed = c.transcript.posed := by
  obtain ⟨new, hnew, hsilent⟩ := h
  rw [hnew, Transcript.posed_append hsilent]

theorem Quiet.answers (h : c.Quiet c') : c'.answers = c.answers := by
  obtain ⟨new, hnew, hsilent⟩ := h
  rw [Context.answers, hnew, Transcript.answers_append hsilent]
  rfl

theorem quiet_enter (c : Context) (i : Option NodeId) : c.Quiet (c.enter i) :=
  ⟨[.entered i], rfl, fun e he => by rw [List.mem_singleton.1 he]; rfl⟩

theorem quiet_leave (c : Context) : c.Quiet c.leave := by
  unfold leave
  split
  · exact .refl c
  · exact ⟨[.left _], rfl, fun e he => by rw [List.mem_singleton.1 he]; rfl⟩

theorem Moves.quiet {X : NodeId → Prop} (h : c.Moves X c') : c.Quiet c' := by
  obtain ⟨new, hnew, hmute⟩ := h.told
  refine ⟨new, hnew, fun e he => ?_⟩
  have := hmute e he
  cases e <;> first | rfl | cases this

theorem mem_entered_of_told (h : c.transcript <:+ c'.transcript) {i : NodeId} (hi : i ∈ c.entered) :
    i ∈ c'.entered := by
  obtain ⟨new, hnew⟩ := h
  rw [entered, ← hnew, Transcript.enteredNodes, Transcript.filterMap_reverse_append]
  exact List.mem_append_left _ hi

end Context

/-! ## What stays -/

namespace Graph

variable {g g' : Graph}

/-- Nodes that are there keep their names, and stay the compositions that they are or stay none. -/
structure Grown (g g' : Graph) : Prop where
  size_le : g.size ≤ g'.size
  name : ∀ j, j.index < g.size → (g'.node j).name = (g.node j).name
  isComposed : ∀ j, j.index < g.size → (g'.node j).body.isComposed = (g.node j).body.isComposed
  body : ∀ j, j.index < g.size → (g.node j).body.isComposed = true → (g'.node j).body = (g.node j).body

theorem grown_of_kept (hsize : g.size ≤ g'.size)
    (hkept : ∀ j, j.index < g.size → (g.node j).Kept (g'.node j)) : g.Grown g' := by
  refine ⟨hsize, fun j hj => (hkept j hj).name, fun j hj => (hkept j hj).isComposed, fun j hj hi => ?_⟩
  refine (hkept j hj).body_eq ?_
  cases hbody : (g.node j).body <;> rw [hbody] at hi <;> first | rfl | cases hi

theorem grown_of_eq (h : g' = g) : g.Grown g' := by
  rw [h]
  exact grown_of_kept le_rfl fun _ _ => .refl _

/-- The compositions among nodes that are there are the same later. -/
theorem compositions_congr {nodes : List (Option NodeId)} (hlt : ∀ i, some i ∈ nodes → i.index < g.size)
    (h : g.Grown g') : g'.compositions nodes = g.compositions nodes := by
  refine List.filter_congr fun i hi => ?_
  obtain ⟨j, hj, hji⟩ := List.mem_filterMap.1 hi
  cases hji
  exact h.isComposed i (hlt i hj)

end Graph

namespace Round

theorem kept_sublist (r : Round) : r.kept.Sublist r.candidates := by
  rw [kept]
  split
  · exact .refl _
  · exact List.nil_sublist _
  · exact List.filter_sublist

theorem IsOf.lt_size (h : r.IsOf d c) : r.node.index < c.graph.size := by
  refine Nat.lt_of_not_le fun hle => ?_
  obtain ⟨members, hbody⟩ := h.allOf
  rw [Graph.node_of_size_le hle] at hbody
  cases hbody

theorem IsOf.later (h : r.IsOf d c) (hgrown : c.graph.Grown c'.graph)
    (htold : c.transcript <:+ c'.transcript) : r.IsOf d c' := by
  obtain ⟨members, hbody⟩ := h.allOf
  obtain ⟨depth, before, after, hcollect, hasked⟩ := h.collected
  refine ⟨⟨members, ?_⟩, h.nonempty, h.distinct, fun a ha => ?_,
    ⟨depth, before, after, hcollect, hasked.trans htold⟩⟩
  · rw [hgrown.body _ h.lt_size (by rw [hbody]; rfl), hbody]
  · have hname := h.called a ha
    rw [hgrown.name _ (Graph.lt_size_of_name hname), hname]

end Round

namespace Context

theorem Retained.grown (h : c.Retained c') : c.graph.Grown c'.graph :=
  Graph.grown_of_kept h.size_le h.kept

theorem Moves.grown {X : NodeId → Prop} (h : c.Moves X c') : c.graph.Grown c'.graph := h.retained.grown

theorem Grows.grown {P : NodeId → Prop} (h : c.Grows P c') : c.graph.Grown c'.graph :=
  Graph.grown_of_kept h.size_le h.kept

theorem posed_eq (h : c.Surveyed d topics) (hgrown : c.graph.Grown c'.graph) (hquiet : c.Quiet c') :
    c'.posed = c.posed := by
  rw [Context.posed, hquiet.posed]
  refine List.map_congr_left fun p hp => ?_
  rw [Graph.compositions_congr (h.inside_lt p hp) hgrown]

theorem Surveyed.later (h : c.Surveyed d topics) (hgrown : c.graph.Grown c'.graph)
    (hquiet : c.Quiet c') : c'.Surveyed d topics := by
  refine ⟨fun p hp i hi => ?_, fun r hr => (h.isOf r hr).later hgrown hquiet.told,
    fun r hr => mem_entered_of_told hquiet.told (h.entered r hr), h.nodup⟩
  rw [hquiet.posed] at hp
  exact (h.inside_lt p hp i hi).trans_le hgrown.size_le

/-- Where nothing is asked and settled compositions keep their properties, what was discussed stays. -/
theorem Discussed.later (h : c.Discussed d topics) (hgrown : c.graph.Grown c'.graph)
    (hquiet : c.Quiet c')
    (hprops : ∀ r, .round r ∈ topics → (c'.graph.node r.node).props = (c.graph.node r.node).props) :
    c'.Discussed d topics := by
  refine ⟨h.toSurveyed.later hgrown hquiet, ?_, ?_, fun r hr => ?_⟩
  · rw [posed_eq h.toSurveyed hgrown hquiet, h.posed]
  · rw [hquiet.answers, h.answers]
  · rw [Round.Settled, hprops r hr]
    exact h.settled r hr

/-- Nor does a step change that which leaves the graph alone. -/
theorem Discussed.of_graph_eq (h : c.Discussed d topics) (hgraph : c'.graph = c.graph)
    (hquiet : c.Quiet c') : c'.Discussed d topics :=
  h.later (Graph.grown_of_eq hgraph) hquiet fun _ _ => by rw [hgraph]

theorem BrokenOff.later {last : Topic} (h : c.BrokenOff d topics last)
    (hgrown : c.graph.Grown c'.graph)
    (hquiet : c.Quiet c')
    (hprops : ∀ r, .round r ∈ topics → (c'.graph.node r.node).props = (c.graph.node r.node).props) :
    c'.BrokenOff d topics last := by
  have hposed := posed_eq h.toSurveyed hgrown hquiet
  refine ⟨h.toSurveyed.later hgrown hquiet, ?_, ?_, ?_, ?_, fun r hr => ?_⟩
  · rw [hposed]
    exact h.posed
  · rw [hquiet.answers]
    exact h.answers
  · rw [hposed, hquiet.answers]
    exact h.unanswered
  · rw [hquiet.answers]
    exact h.left
  · rw [Round.Settled, hprops r hr]
    exact h.settled r hr

end Context

end ApiGraph
