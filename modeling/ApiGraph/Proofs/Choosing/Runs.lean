import ApiGraph.Proofs.Choosing.Paths
import ApiGraph.Proofs.Choosing.Selections
import ApiGraph.Proofs.Depicting.Independence

/-!
# Refusing operations

An operator who refuses some of the operations of a layered document gets the selection of the others,
each as it would have been without a refusal.

* `Conversion.refusing` — an oracle that refuses some operations and agrees to everything else;
* `Conversion.operationTexts` — the texts that the operations of a run write;
* `Selecting.Resting.exists_kept` — the operations that are kept write the same;
* `Conversion.run_refusing` — so it is with a whole run.
-/

namespace ApiGraph

open OrderedMap Context

variable {d : Document} {query query' : NodeId} {op : Operation} {decide decide' : Question → Answer}
  {s s' t : SelectionDraft} {c : Context}

/-! ## The texts of operations -/

theorem SelectionLine.renderAll_append (ls ls' : List SelectionLine) :
    renderAll (ls ++ ls') = renderAll ls ++ renderAll ls' := by
  apply String.toList_injective
  simp [renderAll]

namespace Conversion

/-- The answer of an oracle that refuses some operations and agrees to everything else. -/
def refusal (operations : List Operation) (q : Question) : Answer :=
  if (operations.map pathQuestion).contains q then .no else .yes

/-- An oracle that refuses some operations and agrees to everything else. -/
def refusing (operations : List Operation) : Oracle := .policy (refusal operations)

/-- The texts that operations write, one after the other, as long as none fails. -/
def textsFrom (d : Document) (query : NodeId) : List Operation → SelectionDraft → List String
  | [], _ => []
  | op :: rest, s =>
    match selectOperation d query op s with
    | .ok _ s' => SelectionLine.renderAll (s'.lines.drop s.lines.length) :: textsFrom d query rest s'
    | .error _ _ => []

/-- The texts that the operations of a run write, in order. -/
def operationTexts (d : Document) (config : Config) (oracle : Oracle) (operations : List Operation) :
    List String :=
  match newQuery config (start oracle) with
  | .ok query c => textsFrom d query operations { context := c }
  | .error _ _ => []

/-- What is left of some texts when those of the operations are taken away that are not kept. -/
def keptTexts (kept : Operation → Bool) (operations : List Operation) (texts : List String) :
    List String :=
  List.zipWith (fun op text => if kept op then text else "") operations texts

theorem textsFrom_cons {ls : List SelectionLine} (rest : List Operation)
    (hop : selectOperation d query op s = .ok () s') (hlines : s'.lines = s.lines ++ ls) :
    textsFrom d query (op :: rest) s = SelectionLine.renderAll ls :: textsFrom d query rest s' := by
  simp only [textsFrom, hop, hlines, List.drop_left]

end Conversion

namespace Selecting.Resting

open Conversion

variable {operations : List Operation} {kept : Operation → Bool}

/-- An operation adds lines to those that are there. -/
theorem selectOperation (h : Resting d query decide s) (hd : d.Layered)
    (hselect : Conversion.selectOperation d query op s = .ok () s') :
    Resting d query decide s' ∧ ∃ ls, s'.lines = s.lines ++ ls := by
  by_cases hyes : decide (pathQuestion op) = .yes
  · obtain ⟨h', p, ls, hselected⟩ := h.selected hd hyes hselect
    exact ⟨h', ls, hselected.lines⟩
  · obtain ⟨s₁, hrefuse, h₁, hlines⟩ := h.exists_refuse hyes
    rw [hrefuse] at hselect
    cases hselect
    exact ⟨h₁, [], by rw [hlines, List.append_nil]⟩

/-- The lines of a run are the texts of its operations, one after the other. -/
theorem renderAll_lines (h : Resting d query decide s) (hd : d.Layered)
    (hrun : (operations.forM (Conversion.selectOperation d query) : Selecting Unit) s = .ok () t) :
    (textsFrom d query operations s).length = operations.length ∧
      SelectionLine.renderAll t.lines =
        SelectionLine.renderAll s.lines ++ String.join (textsFrom d query operations s) := by
  induction operations generalizing s with
  | nil =>
    cases hrun
    exact ⟨rfl, by simp [textsFrom]⟩
  | cons op rest ih =>
    obtain ⟨u, s₁, hop, hrest⟩ := bind_eq_ok_iff.1 hrun
    obtain ⟨h₁, ls, hlines⟩ := h.selectOperation hd hop
    obtain ⟨hlength, htext⟩ := ih h₁ hrest
    rw [textsFrom_cons rest hop hlines]
    refine ⟨congrArg (· + 1) hlength, ?_⟩
    rw [htext, hlines, SelectionLine.renderAll_append]
    apply String.toList_injective
    simp

/-- A run that keeps some of the operations that another run has selected succeeds as well. The
operations that are kept write the same, and the others write nothing. -/
theorem exists_kept (h : Resting d query decide s) (h' : Resting d query' decide' s') (hd : d.Layered)
    (hyes : ∀ op ∈ operations, decide (pathQuestion op) = .yes)
    (hkept : ∀ op ∈ operations, decide' (pathQuestion op) = if kept op then .yes else .no)
    (hrun : (operations.forM (Conversion.selectOperation d query) : Selecting Unit) s = .ok () t) :
    ∃ t', (operations.forM (Conversion.selectOperation d query') : Selecting Unit) s' = .ok () t' ∧
      textsFrom d query' operations s' =
        keptTexts kept operations (textsFrom d query operations s) := by
  induction operations generalizing s s' with
  | nil => exact ⟨s', rfl, rfl⟩
  | cons op rest ih =>
    obtain ⟨hyesFirst, hyesRest⟩ := List.forall_mem_cons.1 hyes
    obtain ⟨hkeptFirst, hkeptRest⟩ := List.forall_mem_cons.1 hkept
    obtain ⟨u, s₁, hop, hrest⟩ := bind_eq_ok_iff.1 hrun
    obtain ⟨h₁, p, ls, hselected⟩ := h.selected hd hyesFirst hop
    have hfirst := textsFrom_cons rest hop hselected.lines
    by_cases hop' : kept op
    · rw [if_pos hop'] at hkeptFirst
      obtain ⟨s₁', ls', hselect, h₁', hlines, hrender⟩ :=
        exists_selected h₁.between hselected.served hselected.selects h' hd hkeptFirst
      obtain ⟨t', hrun', htexts⟩ := ih h₁ h₁' hyesRest hkeptRest hrest
      refine ⟨t', (bind_of_ok hselect).trans hrun', ?_⟩
      rw [hfirst, textsFrom_cons rest hselect hlines, htexts, keptTexts, keptTexts, List.zipWith_cons_cons,
        if_pos hop', SelectionLine.renderAll, hrender, ← SelectionLine.renderAll]
    · rw [if_neg hop'] at hkeptFirst
      have hno : decide' (pathQuestion op) ≠ .yes := by simp [hkeptFirst]
      obtain ⟨s₁', hrefuse, h₁', hlines⟩ := h'.exists_refuse hno
      obtain ⟨t', hrun', htexts⟩ := ih h₁ h₁' hyesRest hkeptRest hrest
      refine ⟨t', (bind_of_ok hrefuse).trans hrun', ?_⟩
      rw [hfirst, textsFrom_cons rest hrefuse (hlines.trans (List.append_nil _).symm), htexts, keptTexts,
        keptTexts, List.zipWith_cons_cons, if_neg hop']
      rfl

end Selecting.Resting

namespace Conversion

/-! ## Whole runs -/

variable {config : Config} {operations : List Operation} {kept : Operation → Bool} {text : String}

/-- Before the first operation. -/
theorem resting_newQuery (hyes : ∀ text, decide ⟨.yesNoSubset, text⟩ = .yes)
    (h : newQuery config (start (.policy decide)) = .ok query c) :
    Selecting.Resting d query decide { context := c } := by
  have hrooted := (atRest_start d (.policy decide)).newQuery h
  have hfurnished := furnished_newQuery h
  have horacle : c.oracle = .policy decide := (Run.silent_alloc _).oracle_of_ok h
  refine ⟨⟨⟨_, hrooted.rest⟩, ?_, ?_, fun j hj hk => ?_⟩, (Run.silent_alloc _).balanced.of_ok h, horacle⟩
  · rw [Visited, hrooted.budding.sprout.bud.unvisited]
    exact Bool.false_ne_true
  · exact hfurnished.faithful horacle (faithful_start d ⟨decide, rfl, hyes⟩)
  · -- the query object is the only node
    have hsize : c.graph.size = 1 := by
      cases h
      exact Graph.size_alloc _ _
    have hlater : c.graph.size ≤ j.index := by
      refine Nat.le_of_not_lt fun hlt => hj (Graph.eq_of_index_eq ?_)
      rw [hfurnished.index]
      exact Nat.lt_one_iff.1 (hsize ▸ hlt)
    rw [Graph.node_of_size_le hlater] at hk
    cases hk

theorem run_selection {oracle : Oracle} (hnew : newQuery config (start oracle) = .ok query c)
    (hwanted : wantedOperations d config = .ok operations)
    (hrun : (operations.forM (selectOperation d query) : Selecting Unit) { context := c } = .ok () t) :
    run .selection d config (start oracle) = .ok (SelectionLine.renderAll t.lines) t.context := by
  have hlift : Run.lift (wantedOperations d config) c = .ok operations c := by
    rw [hwanted]
    rfl
  have hselecting : selecting (operations.forM (selectOperation d query)) c = .ok t.lines t.context := by
    rw [selecting, hrun]
  have hselection : selection d config (start oracle) = .ok t.lines t.context :=
    (bind_of_ok hnew).trans ((bind_of_ok hlift).trans hselecting)
  exact bind_of_ok hselection

theorem pathQuestion_injective {op op' : Operation} (h : pathQuestion op = pathQuestion op') :
    op.text = op'.text := by
  have htext := congrArg String.toList (Question.mk.inj h).2
  apply String.toList_injective
  simpa only [String.toList_append, List.append_cancel_left_eq, List.append_cancel_right_eq] using htext

/-- Of operations with different texts those are refused that are not kept. -/
theorem refusal_pathQuestion (hnodup : (operations.map Operation.text).Nodup) (hop : op ∈ operations) :
    refusal (operations.filter fun op => !kept op) (pathQuestion op) = if kept op then .yes else .no := by
  have hcontains : ((operations.filter fun op => !kept op).map pathQuestion).contains (pathQuestion op) =
      !kept op := by
    rw [Bool.eq_iff_iff, List.contains_iff_mem, List.mem_map]
    constructor
    · rintro ⟨op', hop', heq⟩
      obtain ⟨hmem, hrefused⟩ := List.mem_filter.1 hop'
      rwa [← List.inj_on_of_nodup_map hnodup hmem hop (pathQuestion_injective heq)]
    · exact fun hrefused => ⟨op, List.mem_filter.2 ⟨hop, hrefused⟩, rfl⟩
  rw [refusal, hcontains]
  cases kept op <;> rfl

/-- Nothing is refused but operations. -/
theorem refusal_yesNoSubset (operations : List Operation) (text : String) :
    refusal operations ⟨.yesNoSubset, text⟩ = .yes := by
  refine if_neg fun hmem => ?_
  obtain ⟨op, -, hop⟩ := List.mem_map.1 (List.contains_iff_mem.1 hmem)
  cases hop

/-- The lines that are written after the first operation are the texts of all. -/
theorem renderAll_of_newQuery (hd : d.Layered)
    (hyes : ∀ text, decide ⟨.yesNoSubset, text⟩ = .yes)
    (hnew : newQuery config (start (.policy decide)) = .ok query c)
    (hrun : (operations.forM (selectOperation d query) : Selecting Unit) { context := c } = .ok () t) :
    (operationTexts d config (.policy decide) operations).length = operations.length ∧
      SelectionLine.renderAll t.lines =
        String.join (operationTexts d config (.policy decide) operations) := by
  obtain ⟨hlength, hlines⟩ := (resting_newQuery hyes hnew).renderAll_lines hd hrun
  rw [operationTexts, hnew]
  exact ⟨hlength, hlines.trans String.empty_append⟩

/-- Operations that are refused take what they write out of a selection, and nothing else: what an
oracle that agrees to everything has selected without a fault is the texts of the operations, one after
the other, and with an oracle that refuses some of them the run succeeds as well, and the others write
the same. -/
theorem run_refusing (hraw : d.raw.Proper) (hd : d.Layered)
    (hrun : run .selection d config (start Oracle.always) = .ok text c) :
    ∃ operations, wantedOperations d config = .ok operations ∧
      (operationTexts d config Oracle.always operations).length = operations.length ∧
      text = String.join (operationTexts d config Oracle.always operations) ∧
      ∀ kept : Operation → Bool,
        let oracle := refusing (operations.filter fun op => !kept op)
        let texts := keptTexts kept operations (operationTexts d config Oracle.always operations)
        operationTexts d config oracle operations = texts ∧
          ∃ c', run .selection d config (start oracle) = .ok (String.join texts) c' := by
  obtain ⟨lines, c₁, hselection, hreturn⟩ := bind_eq_ok_iff.1 hrun
  cases hreturn
  obtain ⟨query, c₀, operations, t, hnew, hwanted, heach, rfl, rfl⟩ := exists_selectEach hselection
  have hyes : ∀ text, (fun _ : Question => Answer.yes) ⟨.yesNoSubset, text⟩ = .yes := fun _ => rfl
  obtain ⟨hlength, hlines⟩ := renderAll_of_newQuery hd hyes hnew heach
  refine ⟨operations, hwanted, hlength, hlines, fun kept => ?_⟩
  intro oracle texts
  obtain ⟨query', c₀', hnew'⟩ : ∃ query' c₀', newQuery config (start oracle) = .ok query' c₀' := ⟨_, _, rfl⟩
  have hyes' := refusal_yesNoSubset (operations.filter fun op => !kept op)
  have hkept : ∀ op ∈ operations, refusal (operations.filter fun op => !kept op) (pathQuestion op) =
      if kept op then .yes else .no := by
    intro op hop
    obtain ⟨methods, -, hoperations⟩ := Attempt.bind_eq_ok_iff.1 hwanted
    exact refusal_pathQuestion (Document.nodup_texts hraw hoperations) hop
  obtain ⟨t', heach', hsame⟩ := (resting_newQuery hyes hnew).exists_kept (resting_newQuery hyes' hnew') hd
    (fun _ _ => rfl) hkept heach
  have htexts : operationTexts d config oracle operations = texts := by
    simp only [texts, operationTexts, hnew, hnew']
    exact hsame
  have hlines' : SelectionLine.renderAll t'.lines = String.join (operationTexts d config oracle operations) :=
    (renderAll_of_newQuery hd hyes' hnew' heach').2
  refine ⟨htexts, t'.context, ?_⟩
  rw [← htexts, ← hlines']
  exact run_selection hnew' hwanted heach'

/-- A path with an operation that answers with a reference. -/
def answering (ref : Json) : Json :=
  .obj [("get", .obj [("responses", .obj [("200", .obj [("content", .obj [("application/json",
    .obj [("schema", .obj [("$ref", ref)])])])])])])]

/-- A document with an operation for animals and one for pets. -/
def animalsThenPets : Document :=
  ⟨.obj [
    ("paths", .obj [("/animal", answering (.str "#/components/schemas/Animal")),
      ("/pet", answering (.str "#/components/schemas/Pet"))]),
    ("components", .obj [("schemas", .obj [("Animal", Visit.animal),
      ("Pet", .obj [("allOf", Visit.petParts)])])])]⟩

theorem layered_animalsThenPets : animalsThenPets.Layered := by
  refine Visit.OfPets.layered ⟨fun ref href => ?_, ⟨_, rfl, "", rfl⟩, ⟨_, rfl, "", rfl⟩⟩
  have hrefs : animalsThenPets.raw.references =
      [.str "#/components/schemas/Animal", .str "#/components/schemas/Pet",
        .str "#/components/schemas/Animal", .str "#/components/schemas/Pet"] := rfl
  rw [hrefs] at href
  simp only [List.mem_cons, List.not_mem_nil, or_false] at href
  tauto

theorem proper_animalsThenPets : animalsThenPets.raw.Proper := by
  have hparts : Visit.petParts.Proper := by
    refine .arr ?_
    simp [Json.proper_obj_iff, Json.proper_str, Distinct, keys]
  simp [animalsThenPets, answering, Visit.animal, hparts, Json.proper_obj_iff, Json.proper_str, Distinct,
    keys]

/-- Without the operation for animals, pets have the same selection. -/
theorem run_refusing_animals :
    (∃ c, run .selection animalsThenPets {} (start Oracle.always) =
      .ok "getAnimal \x7b\n name\n\x7d\ngetPet \x7b\n name\n\x7d\n" c) ∧
    ∃ operations c', wantedOperations animalsThenPets {} = .ok operations ∧
      run .selection animalsThenPets {} (start (refusing (operations.filter fun op => !op.path == "/pet"))) =
        .ok "getPet \x7b\n name\n\x7d\n" c' := by
  obtain ⟨text, hrun, htext⟩ : ∃ text,
      run .selection animalsThenPets {} (start Oracle.always) = .ok text _ ∧
        text = "getAnimal \x7b\n name\n\x7d\ngetPet \x7b\n name\n\x7d\n" :=
    exists_eq_ok_of_map_outcome (by decide +kernel)
  obtain ⟨operations, hwanted, -, -, hkept⟩ :=
    run_refusing proper_animalsThenPets layered_animalsThenPets hrun
  obtain ⟨-, c', hrun'⟩ := hkept fun op => op.path == "/pet"
  have hoperations : operations = (wantedOperations animalsThenPets {}).toOption.getD [] := by
    rw [hwanted]
    rfl
  have hjoin : String.join (keptTexts (fun op => op.path == "/pet") operations
      (operationTexts animalsThenPets {} Oracle.always operations)) = "getPet \x7b\n name\n\x7d\n" := by
    rw [hoperations]
    decide +kernel
  rw [hjoin] at hrun'
  exact ⟨⟨_, htext ▸ hrun⟩, operations, c', hwanted, hrun'⟩

end Conversion

end ApiGraph
