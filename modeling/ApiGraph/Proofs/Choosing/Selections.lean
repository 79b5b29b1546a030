import ApiGraph.Proofs.Choosing.Operations
import ApiGraph.Proofs.Choosing.Places
import ApiGraph.Proofs.Selecting.Runs

/-!
# Operations that some runs refuse

Two runs go through the same operations, under oracles that decide by the question alone. An operation
that is refused changes nothing but the transcript. One that was selected in the first run is selected
in the second one as well, and writes the same lines, whatever else the two have visited before.

* `IsDialogue.oracle_of_policy` — an oracle that decides by the question alone stays the same;
* `Selecting.Resting` — a selection between two operations;
* `Selecting.Resting.exists_refuse`, `Selecting.Resting.selected` — an operation that is refused, and one
  that is wanted;
* `Context.Between.exists_select` — a field is selected in one run as in another one;
* `Selecting.Resting.exists_selected` — so is the operation.
-/

namespace ApiGraph

open OrderedMap Context Contextual

/-! ## Oracles that decide by the question alone -/

section

variable {σ α β : Type} [Contextual σ] {decide : Question → Answer}

theorem Dialogue.oracle_play_policy (t : Dialogue β) (decide : Question → Answer) :
    (t.play (.policy decide)).oracle = .policy decide := by
  induction t with
  | done result => rfl
  | ask q next ih =>
    rw [play_ask_of_ok (a := decide q) rfl]
    exact ih (decide q)

/-- An oracle that decides by the question alone stays the same. -/
theorem IsDialogue.oracle_of_policy {m : EStateM Fault σ α} {s s' : σ} {a : α} (hm : IsDialogue m)
    (hs : (context s).oracle = .policy decide) (h : m s = .ok a s') :
    (context s').oracle = .policy decide := by
  obtain ⟨-, t, -, -, hplay⟩ := hm
  have horacle := (hplay s).oracle_eq
  rwa [after_of_ok h, hs, Dialogue.oracle_play_policy] at horacle

end

variable {A : NodeId → Prop} {d : Document} {query query' p i : NodeId} {op : Operation} {α : Type}
  {decide decide' : Question → Answer} {s s' t t' : SelectionDraft} {c c' : Context}

theorem exists_askYesNo (h : c.oracle = .policy decide) (text : String) :
    ∃ c', Run.askYesNo text c = .ok (decide ⟨.yesNo, text⟩ == .yes) c' := by
  obtain ⟨graph, types, stack, composeDepth, oracle, transcript⟩ := c
  cases h
  exact ⟨_, rfl⟩

/-! ## Between two operations -/

/-- The question whether to visit an operation. -/
def Conversion.pathQuestion (op : Operation) : Question := ⟨.yesNo, "Visit path " ++ op.text ++ "?"⟩

theorem Context.Roams.faithful (h : c.Roams c') (horacle : c'.oracle = c.oracle) (hc : c.Faithful d) :
    c'.Faithful d := by
  have hstored : ∀ ref, c'.stored? ref = c.stored? ref := fun ref => by
    rw [Context.stored?, h.types, Context.stored?]
  refine ⟨horacle ▸ hc.oracle, fun ref j hj => ?_, fun j hj => ?_⟩
  · rw [hstored] at hj
    rw [h.graph]
    exact hc.stored ref j hj
  · rw [Visited, h.graph] at hj
    rw [h.graph]
    exact hc.drawn j hj

theorem Context.Between.roams (h : c.Between d query) (hroams : c.Roams c')
    (horacle : c'.oracle = c.oracle) : c'.Between d query := by
  obtain ⟨A, hrest⟩ := h.rest
  refine ⟨⟨A, hrest.roams hroams⟩, ?_, hroams.faithful horacle h.faithful, ?_⟩
  · rw [Visited, hroams.graph]
    exact h.unvisited
  · rw [hroams.graph]
    exact h.unled

namespace Selecting

open Conversion (pathQuestion)

/-- A selection between two operations, under an oracle that decides by the question alone. -/
structure Resting (d : Document) (query : NodeId) (decide : Question → Answer) (s : SelectionDraft) :
    Prop where
  between : s.context.Between d query
  stack : s.context.stack = []
  oracle : s.context.oracle = .policy decide

namespace Resting

theorem roams (h : Resting d query decide s) {m : Selecting α} {a : α} (hm : Roaming m s)
    (hdialogue : IsDialogue m) (hrun : m s = .ok a s') : Resting d query decide s' := by
  have horacle : s'.context.oracle = .policy decide := hdialogue.oracle_of_policy h.oracle hrun
  have hstack : s'.context.stack = s.context.stack := hdialogue.1.of_ok hrun
  exact ⟨h.between.roams (hm.of_ok hrun) (horacle.trans h.oracle.symm), hstack.trans h.stack, horacle⟩

/-- A step that visits nothing and writes nothing. -/
theorem run (h : Resting d query decide s) {step : Run α} {a : α} (hidle : Idle step)
    (hdialogue : IsDialogue step) (hrun : Selecting.run step s = .ok a s') :
    Resting d query decide s' ∧ s'.lines = s.lines ∧ s'.context.graph = s.context.graph :=
  ⟨h.roams (roaming_run hidle) (isDialogue_run hdialogue) hrun, lines_of_run hrun,
    ((roaming_run hidle).of_ok hrun).graph⟩

theorem exists_ask (h : Resting d query decide s) (op : Operation) :
    ∃ s₁, Selecting.run (Run.askYesNo ("Visit path " ++ op.text ++ "?")) s =
        .ok (decide (pathQuestion op) == .yes) s₁ ∧
      Resting d query decide s₁ ∧ s₁.lines = s.lines ∧ s₁.context.graph = s.context.graph := by
  obtain ⟨c₁, hask⟩ := exists_askYesNo h.oracle ("Visit path " ++ op.text ++ "?")
  have hrun : Selecting.run (Run.askYesNo ("Visit path " ++ op.text ++ "?")) s =
      .ok (decide (pathQuestion op) == .yes) { s with context := c₁ } := by
    rw [Selecting.run, hask]
    rfl
  exact ⟨_, hrun, h.run (Run.idle_askYesNo _) (Run.isDialogue_askYesNo _) hrun⟩

theorem exists_log (h : Resting d query decide s) (level : Level) (channel : Channel) (text : String) :
    ∃ s₁, Selecting.run (Run.log level channel text) s = .ok () s₁ ∧
      Resting d query decide s₁ ∧ s₁.lines = s.lines ∧ s₁.context.graph = s.context.graph := by
  have hrun : Selecting.run (Run.log level channel text) s = .ok () _ := rfl
  exact ⟨_, hrun, h.run (Run.idle_log _ _ _) (Run.silent_log _ _ _).isDialogue hrun⟩

/-- An operation that is refused writes nothing. -/
theorem exists_refuse (h : Resting d query decide s)
    (hno : decide (pathQuestion op) ≠ .yes) :
    ∃ s', Conversion.selectOperation d query op s = .ok () s' ∧ Resting d query decide s' ∧
      s'.lines = s.lines := by
  obtain ⟨s₁, hask, h₁, hlines₁, -⟩ := h.exists_ask op
  obtain ⟨s₂, hlog, h₂, hlines₂, -⟩ := h₁.exists_log .info .conversion ("Skipping path " ++ op.text)
  rw [beq_false_of_ne hno] at hask
  exact ⟨s₂, (bind_of_ok hask).trans hlog, h₂, hlines₂.trans hlines₁⟩

/-- The visit of an operation. -/
theorem visit (h : Resting d query decide s) (hd : d.Layered)
    (hvisit : Selecting.run (Conversion.visitOperation d query op) s = .ok i s') :
    Resting d query decide s' ∧ s'.context.Served query op i ∧ s'.lines = s.lines ∧
      s.context.Outlives query s'.context := by
  have hrun := eq_ok_of_run hvisit
  have hdialogue := Conversion.isDialogue_visitOperation d query op
  obtain ⟨hbetween, hserved⟩ := h.between.visitOperation hd hrun
  have hstack : s'.context.stack = s.context.stack := hdialogue.1.of_ok hrun
  exact ⟨⟨hbetween, hstack.trans h.stack, hdialogue.oracle_of_policy h.oracle hrun⟩, hserved,
    lines_of_run hvisit, h.between.outlives hrun⟩

theorem select (h : Resting d query decide s) (hselect : Selecting.select (some i) s = .ok () s') :
    Resting d query decide s' :=
  h.roams (roaming_select _) (silent_select _).isDialogue hselect

end Resting

/-- An operation was selected: its field was visited, and what was written is what the graph says of it. -/
structure Selected (query : NodeId) (op : Operation) (p : NodeId) (ls : List SelectionLine)
    (s s' : SelectionDraft) : Prop where
  served : s'.context.Served query op p
  selects : s'.context.graph.Selects [] (.field p) ls
  lines : s'.lines = s.lines ++ ls
  outlives : s.context.Outlives query s'.context

namespace Resting

/-- An operation that is wanted is selected. -/
theorem selected (h : Resting d query decide s) (hd : d.Layered)
    (hyes : decide (pathQuestion op) = .yes)
    (hselect : Conversion.selectOperation d query op s = .ok () s') :
    Resting d query decide s' ∧ ∃ p ls, Selected query op p ls s s' := by
  obtain ⟨s₁, hask, h₁, hlines₁, hgraph₁⟩ := h.exists_ask op
  obtain ⟨s₂, hlog, h₂, hlines₂, hgraph₂⟩ := h₁.exists_log .info .conversion ("Visiting path " ++ op.text)
  rw [hyes, beq_self_eq_true] at hask
  have hrest := ((bind_of_ok hask).trans (bind_of_ok hlog)).symm.trans hselect
  obtain ⟨p, s₃, hvisit, hfield⟩ := bind_eq_ok_iff.1 hrest
  obtain ⟨h₃, hserved, hlines₃, houtlives⟩ := h₂.visit hd hvisit
  obtain ⟨A, hrest⟩ := h₃.between.rest
  obtain ⟨ls, hselects, hwritten⟩ :=
    writes_select hrest.whole rfl (fun j hj => Option.some.inj hj ▸ hserved.visited) hfield
  have hgraph := hwritten.graph
  rw [h₃.stack] at hselects
  have hbefore := hgraph₂.trans hgraph₁
  refine ⟨h₃.select hfield, p, ls, ⟨?_, ?_, ?_⟩, ?_, ?_, houtlives.congr hbefore.symm hgraph⟩
  · rw [Visited, hgraph]
    exact hserved.visited
  · rw [hgraph]
    exact hserved.serves
  · rw [hgraph]
    exact hserved.parent
  · rw [hgraph]
    exact hselects.field hserved.serves.isField
  · rw [hwritten.lines, hlines₃, hlines₂, hlines₁]

end Resting

end Selecting

/-! ## The same operation in two runs -/

/-- Between operations, the graph of a run can be seen from a field that was visited. -/
theorem Context.Between.exists_view (h : c.Between d query) (hp : c.Served query op p) :
    ∃ A held, View.Settled A d query ⟨c, p, held⟩ := by
  obtain ⟨A, hrest⟩ := h.rest
  have hheld : ∀ j, ∃ held, ∀ members, c.Visited j → (c.graph.node j).body = .composed .allOf members →
      ∃ parts elements, members = some parts ∧ parts.elements = .ok elements ∧
        c.graph.Gathered j elements held ∧ (c.graph.node j).props = mergeAll (held.map Prod.snd) := by
    intro j
    by_cases hj : c.Visited j ∧ ∃ members, (c.graph.node j).body = .composed .allOf members
    · obtain ⟨hj, members, hbody⟩ := hj
      obtain ⟨parts, elements, held, hparts, helements, hgathered, hprops⟩ :=
        (h.faithful.drawn j hj).merged members hbody
      refine ⟨held, fun members' _ hbody' => ⟨parts, elements, ?_, helements, hgathered, hprops⟩⟩
      rw [hbody] at hbody'
      cases hbody'
      exact hparts
    · exact ⟨[], fun members hvisited hbody => absurd ⟨hvisited, members, hbody⟩ hj⟩
  choose held hheld using hheld
  exact ⟨A, held, hrest, h.unvisited, h.faithful, hp.visited, hp.serves.isField, hp.parent, hheld⟩

/-- A node that was visited can be mentioned. -/
theorem Whole.exists_mention (hw : Whole A (fun _ => False) c) (hi : c.Visited i) :
    ∃ words, Selecting.mention c.graph i = .ok words := by
  rw [Selecting.mention]
  split
  · exact ⟨_, rfl⟩
  · exact hw.exists_identityWithin hi (by omega)

/-- The field of an operation is selected in one run as it is in another one. -/
theorem Context.Between.exists_select (h : c.Between d query) (hp : c.Served query op p)
    {ls : List SelectionLine} (hselects : c.graph.Selects [] (.field p) ls)
    (h' : s.context.Between d query') (hp' : s.context.Served query' op i) (hstack : s.context.stack = []) :
    ∃ s' ls', Selecting.select (some i) s = .ok () s' ∧ s'.lines = s.lines ++ ls' ∧
      ls'.map SelectionLine.render = ls.map SelectionLine.render := by
  obtain ⟨A, held, hv⟩ := h.exists_view hp
  obtain ⟨A', held', hv'⟩ := h'.exists_view hp'
  have hfield := hp.serves.alike hp'.serves
  have hmirrors := View.mirrors hv hv' hfield
  have hsame := View.Placed.sameField hv hv' hfield .field hp.serves.isField
    (hp.serves.name_eq hp'.serves)
  have hmention : ∀ {j j'}, View.Counterpart ⟨c, p, held⟩ ⟨s.context, i, held'⟩ j j' →
      ∃ words, Selecting.mention s.context.graph j' = .ok words := by
    intro j j' hj
    exact hv'.rest.whole.exists_mention (hj.1.alike hv hv' hfield).2.1
  obtain ⟨s', ls', hselect, hwritten, hrender⟩ := hmirrors.exists_select hmention hsame hselects rfl hstack
  exact ⟨s', ls', hselect, hwritten.lines, hrender⟩

namespace Selecting.Resting

open Conversion (pathQuestion)

/-- An operation that one run has selected is selected by every run that wants it, with the same text. -/
theorem exists_selected (hc : c.Between d query) (hp : c.Served query op p) {ls : List SelectionLine}
    (hselects : c.graph.Selects [] (.field p) ls) (h : Resting d query' decide s) (hd : d.Layered)
    (hyes : decide (pathQuestion op) = .yes) :
    ∃ s' ls', Conversion.selectOperation d query' op s = .ok () s' ∧ Resting d query' decide s' ∧
      s'.lines = s.lines ++ ls' ∧ ls'.map SelectionLine.render = ls.map SelectionLine.render := by
  obtain ⟨s₁, hask, h₁, hlines₁, -⟩ := h.exists_ask op
  obtain ⟨s₂, hlog, h₂, hlines₂, -⟩ := h₁.exists_log .info .conversion ("Visiting path " ++ op.text)
  rw [hyes, beq_self_eq_true] at hask
  -- what the other run has read can be read
  obtain ⟨A, hrest⟩ := hc.rest
  have hexact : c.Exact A d := ⟨hrest.whole, hc.faithful⟩
  obtain ⟨i, c₃, hvisit⟩ := Conversion.delivers_visitOperation h₂.between hd hexact.readable
    (hexact.readable_of_serves hp.visited hp.serves)
  have hrun : Selecting.run (Conversion.visitOperation d query' op) s₂ =
      .ok i { s₂ with context := c₃ } := by
    rw [Selecting.run, hvisit]
  obtain ⟨h₃, hi, hlines₃, -⟩ := h₂.visit hd hrun
  obtain ⟨s', ls', hselect, hlines, hrender⟩ := hc.exists_select hp hselects h₃.between hi h₃.stack
  refine ⟨s', ls', ?_, h₃.select hselect, ?_, hrender⟩
  · exact (bind_of_ok hask).trans ((bind_of_ok hlog).trans ((bind_of_ok hrun).trans hselect))
  · rw [hlines, hlines₃, hlines₂, hlines₁]

end Selecting.Resting

end ApiGraph
