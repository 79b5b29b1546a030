import ApiGraph.Proofs.Asking.Runs
import ApiGraph.Proofs.Declaring.Queries
import ApiGraph.Proofs.Declaring.Spellings
import ApiGraph.Proofs.Selecting.Runs
import ApiGraph.Proofs.Succeeding.Values

/-!
# Texts of selections

A selection is a text of complete lines in which braces match, and what stands in braces is indented
more deeply than they are. Each operation that was wanted has a field in it that is not indented.

* `SelectionText.Indented` — lines with legal names and matching braces, indented by some blanks at least;
* `SelectionText.Root` — the lines of a field that is not indented;
* `Graph.Selects.indented` — what the graph says is written so;
* `Selecting.Recital` — between two operations, the lines so far are those of the operations that were
  wanted;
* `Conversion.rooted_run` — the text of a whole run.
-/

namespace ApiGraph

open OrderedMap Context

namespace SelectionLine

/-- A line without its end. -/
def text : SelectionLine → String
  | .leaf _ indent name => blanks indent ++ name
  | .opening _ indent name => blanks indent ++ name ++ " \x7b"
  | .closing _ indent => blanks indent ++ "\x7d"

theorem render_eq (line : SelectionLine) : line.render = line.text ++ "\n" := by
  cases line <;> simp [render, text, String.append_assoc]

end SelectionLine

open SelectionLine

namespace SelectionText

/-- Lines that are indented by some blanks at least. A line is a legal name, or a legal name with an
opening brace, which has its closing brace in the same column. Lines between the two are indented more
deeply. -/
inductive Indented : Nat → List String → Prop
  | nil {k : Nat} : Indented k []
  | leaf {k m : Nat} {name : String} {rest : List String} (deep : k ≤ m)
      (legal : isLegalName name.toList = true) (others : Indented k rest) :
      Indented k ((blanks m ++ name) :: rest)
  | braces {k m : Nat} {name : String} {inner rest : List String} (deep : k ≤ m)
      (legal : isLegalName name.toList = true) (inside : Indented (m + 1) inner)
      (others : Indented k rest) :
      Indented k ((blanks m ++ name ++ " \x7b") :: (inner ++ (blanks m ++ "\x7d") :: rest))

/-- The lines of a field that is not indented. -/
inductive Root (name : String) : List String → Prop
  | leaf : Root name [name]
  | braces {inner : List String} (inside : Indented 1 inner) :
      Root name ((name ++ " \x7b") :: (inner ++ ["\x7d"]))

variable {k m : Nat} {name : String} {lines more : List String}

theorem Indented.append (h : Indented k lines) (h' : Indented k more) : Indented k (lines ++ more) := by
  induction h with
  | nil => exact h'
  | leaf deep legal _ ih => exact .leaf deep legal (ih h')
  | braces deep legal inside _ _ ih =>
    rw [List.cons_append, List.append_assoc]
    exact .braces deep legal inside (ih h')

theorem Indented.mono (h : Indented k lines) (hk : m ≤ k) : Indented m lines := by
  induction h with
  | nil => exact .nil
  | leaf deep legal _ ih => exact .leaf (hk.trans deep) legal (ih hk)
  | braces deep legal inside _ _ ih => exact .braces (hk.trans deep) legal inside (ih hk)

end SelectionText

open SelectionText

/-! ## Names -/

/-- A legal name is selected as it is. -/
theorem selectedName_of_isLegalName {s : String} (h : isLegalName s.toList = true) :
    selectedName s = s := by
  have hall := isNameChar_of_isLegalName h
  have hmarked : ¬IsMarked s := by
    rintro ⟨c, rest, hs, -⟩
    have hat := hall '@' (by rw [← characters_of_isNameChar hall, hs]; exact List.mem_cons_self)
    exact absurd hat (by decide)
  rw [← fieldName_eq_selectedName hmarked]
  exact legalName_of_isLegalName h

theorem isLegalName_fieldNameOf {op : Operation} {s : String} (h : Conversion.fieldNameOf op = .ok s) :
    isLegalName s.toList = true := by
  rw [← fieldName_of_fieldNameOf h]
  exact Sdl.mem_name_iff.1 (fieldName_mem_name s)

/-! ## Lines of a graph -/

namespace Graph

variable {g : Graph} {stack : List (Option NodeId)} {value : Option NodeId} {p t : NodeId}
  {task : SelectionTask} {ls : List SelectionLine}

theorem peeled?_of_targets (h : g.Targets value t) : g.peeled? t = none := by
  obtain ⟨n, hway⟩ := h
  induction hway with
  | last hlast => exact hlast
  | step _ _ ih => exact ih

/-- A value with a selection of its own is selected as a type. -/
theorem IsCompound.isType (h : g.IsCompound value) (ht : g.Targets value t) : (g.node t).body.IsType := by
  obtain ⟨e, hvalue, hfields⟩ := h
  have hbody := body_of_hasFields hfields
  have hplain : (g.node e).body.isChoice = false := by
    rcases hbody with hbody | ⟨parts, hbody⟩ <;> rw [hbody] <;> rfl
  obtain ⟨n, hway⟩ := ht.unwraps hvalue hplain
  cases hway with
  | last => exact hbody.imp_right fun ⟨parts, hbody⟩ => ⟨_, parts, hbody⟩
  | step hnext _ =>
    -- a selection ends before a way does at a choice only
    have hpeeled := peeled?_of_targets ht
    rcases hb : (g.node t).body with _ | _ | _ | _ | _ | ⟨_ | _, parts⟩ | _ | _ | _ <;>
      simp [inner?, peeled?, hb] at hnext hpeeled
    exact .inr ⟨_, _, rfl⟩

theorem isLegalName_of_nameOf {n : Node} {name : String} (h : Selecting.nameOf n = .ok name) :
    isLegalName name.toList = true := by
  obtain ⟨s, -, rfl⟩ := Selecting.eq_of_nameOf h
  exact Sdl.mem_name_iff.1 (selectedName_mem_name s)

/-- Lines are indented by as many blanks as there are nodes around them. In a type they are indented
more deeply. -/
theorem Selects.indented (h : g.Selects stack task ls) :
    Indented stack.length (ls.map SelectionLine.text) ∧
      ∀ value, task = .value value → (∀ t, g.Targets value t → (g.node t).body.IsType) →
        Indented (stack.length + 1) (ls.map SelectionLine.text) := by
  induction h with
  | leaf plain name_eq => exact ⟨.leaf le_rfl (isLegalName_of_nameOf name_eq) .nil, by simp⟩
  | skipped => exact ⟨.nil, by simp⟩
  | braces compound target outside name_eq value ih =>
    refine ⟨?_, by simp⟩
    have hinside := ih.2 _ rfl fun t ht => compound.isType ht
    rw [List.map_cons, List.map_append]
    exact .braces le_rfl (isLegalName_of_nameOf name_eq) hinside .nil
  | property target property _ ih =>
    refine ⟨ih.1, ?_⟩
    rintro _ ⟨⟩ htype
    exact absurd (htype _ target) property.not_isType
  | inside => exact ⟨.nil, fun _ _ _ => .nil⟩
  | choice target body outside union variant ih =>
    exact ⟨ih.1.mono (Nat.le_succ _), fun _ _ _ => ih.1⟩
  | members target body outside fields ih =>
    exact ⟨ih.1.mono (Nat.le_succ _), fun _ _ _ => ih.1⟩
  | nothing => exact ⟨.nil, fun _ _ _ => .nil⟩
  | nil => exact ⟨.nil, by simp⟩
  | cons _ _ ih ih' =>
    refine ⟨?_, by simp⟩
    rw [List.map_append]
    exact ih.1.append ih'.1

/-- Outside of all nodes the lines of a field are those of a root. -/
theorem Selects.root {name : String} (h : g.Selects [] (.field p) ls)
    (hname : (g.node p).name = .str name) (hlegal : isLegalName name.toList = true) :
    Root name (ls.map SelectionLine.text) := by
  have hblanks : ∀ s : String, blanks 0 ++ s = s := fun s => by
    apply String.toList_injective
    simp [blanks]
  have hwritten : ∀ {written}, Selecting.nameOf (g.node p) = .ok written → written = name := by
    intro written hwritten
    rw [Selecting.nameOf, hname] at hwritten
    cases hwritten
    exact selectedName_of_isLegalName hlegal
  cases h with
  | leaf plain name_eq =>
    obtain rfl := hwritten name_eq
    simpa [SelectionLine.text, hblanks] using Root.leaf
  | skipped compound target inside => cases inside
  | braces compound target outside name_eq value =>
    obtain rfl := hwritten name_eq
    have hinside := value.indented.2 _ rfl fun t ht => compound.isType ht
    simpa [SelectionLine.text, hblanks] using Root.braces hinside

end Graph

/-! ## Runs -/

variable {d : Document} {query : NodeId} {s s' : SelectionDraft} {fields : List NodeId}
  {turns : List Turn} {config : Config} {oracle : Oracle} {text : String} {c : Context}

/-- A node is the field of an operation that had its turn. -/
def Turn.NamedAs (g : Graph) (t : Turn) (p : NodeId) : Prop :=
  ∃ name, Conversion.fieldNameOf t.op = .ok name ∧ (g.node p).name = .str name

/-- The turns of the operations that were wanted. -/
def Turn.wanted (turns : List Turn) : List Turn := turns.filter fun t => t.answer == .yes

namespace Selecting

/-- Between two operations, the lines are those of the operations that were wanted. -/
structure Recital (d : Document) (query : NodeId) (s : SelectionDraft) (turns : List Turn)
    (fields : List NodeId) : Prop where
  progress : Progress d query s fields
  paused : s.context.Paused
  discussed : s.context.Discussed d (turns.flatMap Turn.topics)
  named : List.Forall₂ (Turn.NamedAs s.context.graph) (Turn.wanted turns) fields

/-- The field of an operation keeps its name. -/
theorem Recital.named_later (h : Recital d query s turns fields)
    (hspares : s.context.Spares s'.context.graph) :
    List.Forall₂ (Turn.NamedAs s'.context.graph) (Turn.wanted turns) fields := by
  have hall : ∀ {ts : List Turn} {ps : List NodeId}, (∀ p ∈ ps, s.context.Visited p) →
      List.Forall₂ (Turn.NamedAs s.context.graph) ts ps →
        List.Forall₂ (Turn.NamedAs s'.context.graph) ts ps := by
    intro ts ps hvisited hnamed
    induction hnamed with
    | nil => exact .nil
    | cons hone _ ih =>
      obtain ⟨hp, hps⟩ := List.forall_mem_cons.1 hvisited
      obtain ⟨name, hname, hnode⟩ := hone
      exact .cons ⟨name, hname, by rw [hspares _ hp, hnode]⟩ (ih hps)
  exact hall h.progress.visited h.named

/-- One more operation has its turn. -/
theorem Recital.selectOperation {op : Operation} (h : Recital d query s turns fields)
    (hselect : Conversion.selectOperation d query op s = .ok () s') :
    ∃ t fields', t.op = op ∧ Recital d query s' (turns ++ [t]) fields' := by
  obtain ⟨A, hrest⟩ := h.progress.rest
  obtain ⟨t, rfl, -, hok⟩ := Conversion.turn_selectOperation hrest h.paused h.discussed op
  obtain ⟨hdiscussed, s₁, hask⟩ := hok _ _ hselect
  obtain ⟨hspares, wanted, s₂, hask', hwanted⟩ := h.progress.selectOperation hselect
  rw [hask] at hask'
  cases hask'
  have hpaused := h.paused.back ((Conversion.backing_selectOperation d query t.op).of_ok hselect)
  have hnamed := h.named_later hspares
  have hdiscussed' : s'.context.Discussed d ((turns ++ [t]).flatMap Turn.topics) := by
    rw [List.flatMap_append, List.flatMap_singleton]
    exact hdiscussed
  obtain ⟨hyes, i, hserves, hprogress⟩ | ⟨hno, hprogress⟩ := hwanted
  · refine ⟨t, fields ++ [i], rfl, hprogress, hpaused, hdiscussed', ?_⟩
    have hone : Turn.wanted (turns ++ [t]) = Turn.wanted turns ++ [t] := by
      simp [Turn.wanted, eq_of_beq hyes]
    rw [hone]
    exact List.rel_append hnamed (.cons hserves.name .nil)
  · refine ⟨t, fields, rfl, hprogress, hpaused, hdiscussed', ?_⟩
    have hnone : Turn.wanted (turns ++ [t]) = Turn.wanted turns := by
      simpa [Turn.wanted] using hno
    rwa [hnone]

/-- All operations have their turns, one after the other. -/
theorem Recital.selectEach {operations : List Operation} (h : Recital d query s turns fields)
    (hselect : operations.forM (Conversion.selectOperation d query) s = .ok () s') :
    ∃ more fields', more.map Turn.op = operations ∧ Recital d query s' (turns ++ more) fields' := by
  induction operations generalizing s turns fields with
  | nil =>
    cases hselect
    exact ⟨[], fields, rfl, by rwa [List.append_nil]⟩
  | cons op rest ih =>
    obtain ⟨u, s₁, hop, hrest⟩ := bind_eq_ok_iff.1 hselect
    obtain ⟨t, fields₁, rfl, h₁⟩ := h.selectOperation hop
    obtain ⟨more, fields', rfl, h'⟩ := ih h₁ hrest
    exact ⟨t :: more, fields', rfl, by rwa [List.append_assoc] at h'⟩

end Selecting

/-- The lines of several fields are put together from those of each. -/
theorem Graph.Selects.roots {g : Graph} {ts : List Turn} {ls : List SelectionLine}
    (hnamed : List.Forall₂ (Turn.NamedAs g) ts fields) (h : g.Selects [] (.fields fields) ls) :
    ∃ parts : List (List String), ls.map SelectionLine.text = parts.flatten ∧
      List.Forall₂ (fun t part => ∃ name, Conversion.fieldNameOf t.op = .ok name ∧ Root name part) ts
        parts := by
  induction hnamed generalizing ls with
  | nil =>
    cases h
    exact ⟨[], rfl, .nil⟩
  | cons hone _ ih =>
    cases h with
    | cons field others =>
      obtain ⟨name, hname, hnode⟩ := hone
      obtain ⟨parts, hparts, hroots⟩ := ih others
      refine ⟨_ :: parts, ?_, .cons ⟨name, hname, field.root hnode (isLegalName_fieldNameOf hname)⟩ hroots⟩
      rw [List.map_append, hparts, List.flatten_cons]

namespace Conversion

theorem recital_newQuery {c₀ : Context} (hnew : newQuery config (start oracle) = .ok query c₀) :
    Selecting.Recital d query { context := c₀ } [] [] := by
  refine ⟨progress_newQuery hnew, ?_, ?_, .nil⟩
  · exact (paused_start oracle).back ((besides_newQuery config).backing.of_ok hnew)
  · have hdiscussed := discussed_of_sowing (m := newQuery config) (sowing_alloc _) (besides_newQuery config)
      (discussed_start d oracle)
    rwa [after_of_ok hnew] at hdiscussed

/-- The text of a selection is made of complete lines in which braces match, each a legal name, a legal
name with an opening brace, or a closing brace in the column of its opening one, with more deeply
indented lines between the two. The operations have their turns in the order of the document, and to each
that was answered with yes there is one field that is not indented, which has the name of the
operation. -/
theorem rooted_run (h : run .selection d config (start oracle) = .ok text c) :
    ∃ (turns : List Turn) (parts : List (List String)),
      wantedOperations d config = .ok (turns.map Turn.op) ∧ c.Discussed d (turns.flatMap Turn.topics) ∧
      text = String.join (parts.flatten.map (· ++ "\n")) ∧ Indented 0 parts.flatten ∧
      List.Forall₂ (fun t part => ∃ name, fieldNameOf t.op = .ok name ∧ Root name part)
        (turns.filter fun t => t.answer == .yes) parts := by
  obtain ⟨lines, c', hselection, hrun⟩ := bind_eq_ok_iff.1 h
  cases hrun
  obtain ⟨query, c₀, operations, s, hnew, hwanted, heach, rfl, rfl⟩ := exists_selectEach hselection
  obtain ⟨turns, fields, rfl, hrecital⟩ := (recital_newQuery (d := d) hnew).selectEach heach
  rw [List.nil_append] at hrecital
  obtain ⟨parts, hparts, hroots⟩ := Graph.Selects.roots hrecital.named hrecital.progress.lines
  refine ⟨turns, parts, hwanted, hrecital.discussed, ?_, ?_, hroots⟩
  · rw [← hparts, renderAll, List.map_map]
    exact congrArg String.join (List.map_congr_left fun line _ => line.render_eq)
  · rw [← hparts]
    exact hrecital.progress.lines.indented.1

/-- A document with a schema that has a property with an at sign in front. -/
def typedPets : Document :=
  ⟨.obj [
    ("paths", .obj [("/pet", .obj [("get", .obj [
      ("operationId", .str "getPet"),
      ("responses", .obj [("200", .obj [("content", .obj [("application/json", .obj [
        ("schema", .obj [("$ref", .str "#/components/schemas/Pet")])])])])])])])]),
    ("components", .obj [("schemas", .obj [("Pet", .obj [("type", .str "object"),
      ("properties", .obj [
        ("@type", .obj [("type", .str "string")]),
        ("pet name", .obj [("type", .str "string")])])])])])]⟩

/-- The selection of the one operation of this document. -/
theorem rooted_run_typedPets : ∃ text c,
    run .selection typedPets {} (start Oracle.always) = .ok text c ∧
      text = "getPet \x7b\n type\n pet_name\n\x7d\n" ∧
      ∃ (turns : List Turn) (parts : List (List String)),
        wantedOperations typedPets {} = .ok (turns.map Turn.op) ∧
        c.Discussed typedPets (turns.flatMap Turn.topics) ∧
        text = String.join (parts.flatten.map (· ++ "\n")) ∧ Indented 0 parts.flatten ∧
        List.Forall₂ (fun t part => ∃ name, fieldNameOf t.op = .ok name ∧ Root name part)
          (turns.filter fun t => t.answer == .yes) parts := by
  obtain ⟨text, hrun, htext⟩ : ∃ text, run .selection typedPets {} (start Oracle.always) = .ok text _ ∧
      text = "getPet \x7b\n type\n pet_name\n\x7d\n" := exists_eq_ok_of_map_outcome (by decide +kernel)
  exact ⟨text, _, hrun, htext, rooted_run hrun⟩

end Conversion

end ApiGraph
