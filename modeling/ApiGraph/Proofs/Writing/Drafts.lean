import ApiGraph.Conversion
import ApiGraph.Proofs.Drafting.Steps
import ApiGraph.Proofs.Writing.Lines
import ApiGraph.Proofs.Writing.Names

/-!
# Legible drafts

Whatever a document says, its definitions are legible when the names of the configuration are.

* `Config.Legible` — the names that come from a configuration are names;
* `Draft.Legible` — so are the names that were given in a draft, and those of its types;
* `Writes` — steps that keep a draft legible and give values of a kind;
* `Drafting.writes_typeExpr`, `Drafting.writes_field`, `Drafting.writes_generate`,
  `Drafting.writes_definitions` — one lemma for each step;
* `Conversion.splitOn_render_definitions` — the lines of the definitions of a document are in the grammar.
-/

namespace ApiGraph

open OrderedMap Sdl

/-- A text that is a name. -/
def Json.IsNameText (v : Json) : Prop := ∃ s, v = .str s ∧ s.toList ∈ name

theorem Json.IsNameText.isName {v : Json} (h : v.IsNameText) : v.IsName := by
  obtain ⟨s, rfl, hs⟩ := h
  exact hs

/-- The names of a configuration are names, and fields are indented by spaces. -/
structure Config.Legible (config : Config) (indent : String) : Prop where
  jsonScalar : config.jsonScalar.IsNameText
  queryType : config.queryType.IsNameText
  scalarTypes : ∀ table v, config.scalarTypes = some (.obj table) → v ∈ values table → v.IsNameText
  fieldIndent : config.fieldIndent = .str indent
  spaces : ∀ c ∈ indent.toList, c = ' '

/-- The usual names are names. -/
theorem Config.legible_usual : Config.Legible {} "  " where
  jsonScalar := ⟨"JSON", rfl, mem_name_iff.2 (by decide)⟩
  queryType := ⟨"Query", rfl, mem_name_iff.2 (by decide)⟩
  scalarTypes table v htable hv := by
    obtain rfl := Json.obj.inj (Option.some.inj htable)
    simp only [values, List.map_cons, List.map_nil, List.mem_cons, List.not_mem_nil, or_false] at hv
    rcases hv with rfl | rfl | rfl | rfl <;> exact ⟨_, rfl, mem_name_iff.2 (by decide)⟩
  fieldIndent := rfl
  spaces := by simp

/-- The names that were given in a draft, and those in its types, are names. -/
structure Draft.Legible (D : Draft) : Prop where
  names : ∀ t s, get? t D.inlineNames = some (some s) → s.toList ∈ name
  types : ∀ b ∈ D.types, b.Legible

/-- One more name is given. -/
theorem Draft.Legible.insert {D : Draft} (h : D.Legible) {given : Option String}
    (hgiven : ∀ s, given = some s → s.toList ∈ name) (i t : NodeId) {s : String}
    (ht : get? t (OrderedMap.insert i given D.inlineNames) = some (some s)) : s.toList ∈ name := by
  by_cases hne : t = i
  · subst hne
    rw [get?_insert_self] at ht
    exact hgiven s (Option.some.inj ht)
  · rw [get?_insert_of_ne hne] at ht
    exact h.names t s ht

namespace Drafting

variable {α β : Type} {P : α → Prop} {Q : β → Prop}

/-- A step that keeps a draft legible, and gives a value of a kind. -/
def Writes (P : α → Prop) (m : Drafting α) : Prop :=
  ∀ D a D', D.Legible → m D = .ok a D' → D'.Legible ∧ P a

/-! ## Sequences -/

theorem writes_pure {a : α} (h : P a) : Writes P (pure a : Drafting α) := by
  intro D a' D' hD hrun
  cases hrun
  exact ⟨hD, h⟩

theorem writes_throw (fault : Fault) : Writes P (throw fault : Drafting α) := by
  intro D a' D' hD hrun
  cases hrun

theorem Writes.bind {m : Drafting α} {f : α → Drafting β} (hm : Writes P m)
    (hf : ∀ a, P a → Writes Q (f a)) : Writes Q (m >>= f) := by
  intro D b D' hD hrun
  obtain ⟨a, D₁, ha, hb⟩ := bind_eq_ok_iff.1 hrun
  obtain ⟨hD₁, hP⟩ := hm D a D₁ hD ha
  exact hf a hP D₁ b D' hD₁ hb

theorem Writes.imp {m : Drafting α} {P' : α → Prop} (hm : Writes P m) (h : ∀ a, P a → P' a) :
    Writes P' m := fun D a D' hD hrun => (hm D a D' hD hrun).imp id (h a)

theorem writes_get_bind {f : Draft → Drafting α} (h : ∀ D, D.Legible → Writes P (f D)) :
    Writes P (get >>= f) := fun D a D' hD hrun => h D hD D a D' hD hrun

/-- A change that keeps the names that were given and the types. -/
theorem writes_modify {f : Draft → Draft} (h : ∀ D, D.Legible → (f D).Legible) :
    Writes (fun _ => True) (modify f : Drafting Unit) := by
  intro D u D' hD hrun
  cases hrun
  exact ⟨h D hD, trivial⟩

/-- A step of the run changes neither names nor types. -/
theorem writes_run (step : Run α) : Writes (fun _ => True) (run step) := by
  intro D a D' hD hrun
  rw [run] at hrun
  cases hstep : step D.context with
  | ok b c =>
    rw [hstep] at hrun
    cases hrun
    exact ⟨⟨hD.names, hD.types⟩, trivial⟩
  | error fault c =>
    rw [hstep] at hrun
    cases hrun

theorem writes_lift {a : Attempt α} (h : ∀ x, a = .ok x → P x) : Writes P (lift a) := by
  intro D x D' hD hrun
  cases a with
  | ok y =>
    cases hrun
    exact ⟨⟨hD.names, hD.types⟩, h _ rfl⟩
  | error fault => cases hrun

theorem writes_lift_any (a : Attempt α) : Writes (fun _ => True) (lift a) :=
  writes_lift fun _ _ => trivial

theorem writes_graph : Writes (fun _ => True) graph :=
  writes_get_bind fun _ _ => writes_pure trivial

theorem writes_node (i : NodeId) : Writes (fun _ => True) (node i) :=
  writes_graph.bind fun _ _ => writes_pure trivial

theorem writes_within {step : Drafting α} (h : Writes P step) (i : NodeId) :
    Writes P (within i step) := by
  intro D a D' hD hrun
  rw [within] at hrun
  cases hstep : step { D with context := D.context.enter i } with
  | ok b D₁ =>
    rw [hstep] at hrun
    cases hrun
    obtain ⟨hD₁, hP⟩ := h { D with context := D.context.enter i } _ D₁ ⟨hD.names, hD.types⟩ hstep
    exact ⟨⟨hD₁.names, hD₁.types⟩, hP⟩
  | error fault D₁ =>
    rw [hstep] at hrun
    cases hrun

theorem writes_mapM {f : α → Drafting β} (h : ∀ a, Writes Q (f a)) (xs : List α) :
    Writes (fun ys => ys.length = xs.length ∧ ∀ y ∈ ys, Q y) (xs.mapM f) := by
  induction xs with
  | nil => exact writes_pure (by simp)
  | cons x xs ih =>
    rw [List.mapM_cons]
    refine (h x).bind fun y hy => ih.bind fun ys hys => writes_pure ?_
    exact ⟨by simp [hys.1], List.forall_mem_cons.2 ⟨hy, hys.2⟩⟩

theorem writes_forM {f : α → Drafting Unit} (h : ∀ a, Writes (fun _ => True) (f a)) (xs : List α) :
    Writes (fun _ => True) (xs.forM f) := by
  induction xs with
  | nil => exact writes_pure trivial
  | cons x xs ih => exact (h x).bind fun _ _ => ih

/-! ## Names -/

variable {config : Config} {indent : String}

theorem writes_json (hconfig : config.Legible indent) : Writes Json.IsName (json config) :=
  (writes_modify (f := fun D => { D with usesJson := true }) fun _ hD => ⟨hD.names, hD.types⟩).bind
    fun _ _ => writes_pure hconfig.jsonScalar.isName

theorem mem_name_of_simpleName {n : Node} {s : String} (h : n.simpleName = .ok (some s)) :
    s.toList ∈ name := by
  rw [Node.simpleName] at h
  split at h
  · have hname := Except.ok.inj h
    split at hname
    · cases hname
    · rw [← Option.some.inj hname]
      exact typeName_mem_name _
  · split at h <;> cases h

theorem spelt_of_wordsOf {v : Json} {words : String} (h : wordsOf v = .ok words) :
    ∀ c ∈ words.toList, isNameChar c = true := by
  have hother : (if v.truthy then .error .malformed else .ok "" : Attempt String) = .ok words →
      ∀ c ∈ words.toList, isNameChar c = true := by
    intro h
    split at h
    · cases h
    · rw [← Except.ok.inj h]
      simp
  cases v with
  | str s =>
    rw [← Except.ok.inj h]
    exact pascalCase_spelt s
  | _ => exact hother h

/-- A type without a name would be written as one. -/
theorem isName_null : Json.null.IsName := mem_name_iff.2 (by decide)

theorem writes_typeName (hconfig : config.Legible indent) (i : NodeId) :
    Writes Json.IsName (typeName config i) := by
  refine (writes_node i).bind fun n _ => ?_
  split
  · refine (writes_lift (P := fun o => (nameValue o).IsName) fun o ho => ?_).bind fun o ho =>
      writes_pure ho
    cases o with
    | none => exact isName_null
    | some s => exact mem_name_of_simpleName ho
  · refine writes_get_bind fun D hD => ?_
    split
    · next hgiven => exact writes_pure (hD.names i _ hgiven)
    · exact (writes_run _).bind fun _ _ => writes_json hconfig

theorem word_mem_name (p : Primitive) : p.word.toList ∈ name := by
  rw [mem_name_iff]
  cases p <;> decide

theorem isName_of_scalarFor (hconfig : config.Legible indent) {p : Primitive} {v : Json}
    (h : scalarFor config p = .ok v) : v.IsName := by
  rw [scalarFor] at h
  cases htable : config.scalarTypes with
  | none =>
    rw [htable] at h
    cases h
  | some table =>
    rw [htable] at h
    cases table with
    | obj members =>
      cases h
      cases hfound : get? p.word members with
      | none => exact word_mem_name p
      | some v =>
        obtain ⟨k, hmem, -⟩ := exists_mem_of_get? hfound
        exact (hconfig.scalarTypes members v htable (List.mem_map_of_mem hmem)).isName
    | _ => cases h

/-! ## Types -/

/-- The name inside a type expression is one. -/
def IsNamed (t : TypeExpr) : Prop := t.innermost.IsName

theorem writes_typeExprWithin (hconfig : config.Legible indent) (depth : Nat) (seen : List NodeId)
    (i : Option NodeId) : Writes IsNamed (typeExprWithin config depth seen i) := by
  have hjson : Writes IsNamed (do return .named (← json config) : Drafting TypeExpr) :=
    (writes_json hconfig).bind fun _ hname => writes_pure hname
  induction depth generalizing seen i with
  | zero => exact writes_throw _
  | succ depth ih =>
    cases i with
    | none => exact hjson
    | some i =>
      have hname : Writes IsNamed (do return .named (← typeName config i) : Drafting TypeExpr) :=
        (writes_typeName hconfig i).bind fun _ hname => writes_pure hname
      simp only [typeExprWithin]
      split
      · exact hjson
      · refine writes_graph.bind fun g _ => ?_
        split
        · exact hjson
        · exact (writes_lift fun _ => isName_of_scalarFor hconfig).bind fun _ hscalar =>
            writes_pure hscalar
        · split
          · exact hjson
          · exact hname
        · split
          · exact hjson
          · exact hname
        · exact (ih _ _).bind fun _ hinner => writes_pure hinner
        · exact ih _ _
        · exact (writes_lift_any _).bind fun _ _ => ih _ _
        · exact (writes_lift_any _).bind fun _ _ => ih _ _
        · exact ih _ _
        · exact ih _ _
        · exact writes_throw _

theorem writes_typeExpr (hconfig : config.Legible indent) (i : Option NodeId) :
    Writes IsNamed (typeExpr config i) :=
  writes_graph.bind fun _ _ => writes_typeExprWithin hconfig _ _ _

theorem writes_argumentType (hconfig : config.Legible indent) (type : Option NodeId) :
    Writes IsNamed (argumentType config type) := by
  refine writes_graph.bind fun g _ => (writes_lift_any _).bind fun compound _ => ?_
  split
  · exact (writes_json hconfig).bind fun _ hname => writes_pure hname
  · exact writes_typeExpr hconfig type

/-! ## Fields -/

theorem writes_argument (hconfig : config.Legible indent) (i : NodeId) :
    Writes Argument.Legible (argument config i) :=
  (writes_node i).bind fun _ _ => (writes_lift_any _).bind fun _ _ =>
    (writes_argumentType hconfig _).bind fun _ htype => (writes_lift_any _).bind fun _ _ =>
      (writes_lift_any _).bind fun _ _ => writes_pure ⟨fieldName_mem_name _, htype⟩

theorem writes_nameInline (value : Option NodeId) {wanted : String} (h : wanted.toList ∈ name) :
    Writes (fun _ => True) (nameInline value wanted) := by
  refine writes_graph.bind fun g _ => (writes_lift_any _).bind fun target _ => ?_
  split
  · exact writes_pure trivial
  · next i =>
    refine writes_get_bind fun D _ => ?_
    split
    · refine writes_modify fun D' hD' => ⟨fun t s ht => hD'.insert (fun s hs => ?_) i t ht, hD'.types⟩
      cases hs
      exact freshName_mem_name h _
    · exact writes_pure trivial

theorem writes_field (hconfig : config.Legible indent) {owner : Json} (howner : owner.IsName)
    (i : NodeId) : Writes Field.Legible (field config owner i) := by
  refine (writes_node i).bind fun n _ => ?_
  split
  · refine (writes_lift (P := fun s : String => s.toList ∈ name) fun s hs => ?_).bind fun s hs => ?_
    · rw [eq_str_of_textOf hs] at howner
      exact howner
    refine (writes_lift fun _ => spelt_of_wordsOf).bind fun words hwords => ?_
    have hwanted : (s ++ words).toList ∈ name := by
      rw [String.toList_append]
      exact append_mem_name hs hwords
    refine (writes_nameInline _ hwanted).bind fun _ _ => (writes_lift_any _).bind fun written _ =>
      (writes_mapM (Q := Argument.Legible) (fun a => ?_) _).bind fun arguments harguments =>
        (writes_typeExpr hconfig _).bind fun type htype => ?_
    · exact (writes_lift_any _).bind fun _ _ => writes_argument hconfig _
    · split
      · exact (writes_throw (P := fun _ => True) _).bind fun _ _ =>
          writes_pure ⟨fieldName_mem_name _, htype, harguments.2⟩
      · exact writes_pure ⟨fieldName_mem_name _, htype, harguments.2⟩
  · exact writes_throw _

/-! ## Definitions -/

theorem writes_writeType (hconfig : config.Legible indent) (i : NodeId) {typeName : Json}
    (hname : typeName.IsName) {props : List NodeId} (hprops : props ≠ []) :
    Writes (fun _ => True) (writeType config i typeName props) := by
  refine (writes_mapM (writes_field hconfig hname) props).bind fun fields hfields => ?_
  have hnonempty : fields ≠ [] := by
    rw [← List.length_pos_iff, hfields.1]
    exact List.length_pos_iff.2 hprops
  refine writes_modify fun D hD => ⟨hD.names, fun b hb => ?_⟩
  rcases List.mem_append.1 hb with hb | hb
  · exact hD.types b hb
  · rw [List.mem_singleton.1 hb]
    exact ⟨hname, hnonempty, hfields.2⟩

theorem values_ne_nil {κ α : Type} {m : OrderedMap κ α} (h : ¬m.isEmpty = true) : values m ≠ [] := by
  simpa [values] using h

theorem writes_writeObject (hconfig : config.Legible indent) (i : NodeId) :
    Writes (fun _ => True) (writeObject config i) := by
  refine (writes_node i).bind fun n _ => ?_
  split
  · exact writes_pure trivial
  · next hsome =>
    exact (writes_typeName hconfig i).bind fun _ hname =>
      writes_writeType hconfig i hname (values_ne_nil hsome)

theorem writes_traced (i : NodeId) {step : Drafting Unit} (h : Writes (fun _ => True) step) :
    Writes (fun _ => True) (traced i step) :=
  writes_within ((writes_node i).bind fun _ _ => (writes_run _).bind fun _ _ => h.bind fun _ _ =>
    writes_run _) i

theorem writes_nameVariant (i : NodeId) : Writes (fun _ => True) (nameVariant i) := by
  refine writes_graph.bind fun g _ => (writes_lift_any _).bind fun variant _ => ?_
  split
  · exact writes_pure trivial
  · extract_lets n
    split
    · exact writes_pure trivial
    · refine (writes_lift fun o ho => ho).bind fun given hgiven => writes_get_bind fun D _ => ?_
      split
      · exact writes_pure trivial
      · exact Writes.bind (writes_modify fun D hD => ⟨fun t s ht => hD.insert
          (fun s hs => mem_name_of_simpleName (hs ▸ hgiven)) _ t ht, hD.types⟩) fun _ _ =>
            writes_pure trivial

theorem writes_writeVariant (hconfig : config.Legible indent) (i : NodeId) (variant : Option NodeId) :
    Writes (fun _ => True) (writeVariant config i variant) := by
  cases variant with
  | none => exact writes_pure trivial
  | some variant =>
    refine (writes_nameVariant i).bind fun named _ => ?_
    split
    · refine writes_get_bind fun D _ => ?_
      split
      · exact Writes.bind (writes_modify fun D hD => ⟨hD.names, hD.types⟩) fun _ _ =>
          writes_traced variant (writes_writeObject hconfig variant)
      · exact writes_pure trivial
    · exact writes_pure trivial

theorem writes_generate (hconfig : config.Legible indent) (i : NodeId) :
    Writes (fun _ => True) (generate config i) := by
  refine writes_traced i (writes_graph.bind fun g _ => ?_)
  split
  · exact writes_writeObject hconfig i
  · exact writes_writeObject hconfig i
  · exact (writes_lift_any _).bind fun _ _ => writes_writeVariant hconfig i _
  · exact (writes_lift_any _).bind fun _ _ => writes_writeVariant hconfig i _
  all_goals first | exact writes_pure trivial | exact writes_throw _

theorem writes_flushWithin (hconfig : config.Legible indent) (steps : Nat) :
    Writes (fun _ => True) (flushWithin config steps) := by
  induction steps with
  | zero => exact writes_throw _
  | succ steps ih =>
    refine writes_get_bind fun D _ => ?_
    split
    · exact writes_pure trivial
    · exact Writes.bind (writes_modify fun D hD => ⟨hD.names, hD.types⟩) fun _ _ =>
        (writes_generate hconfig _).bind fun _ _ => ih

theorem writes_flush (hconfig : config.Legible indent) : Writes (fun _ => True) (flush config) :=
  writes_get_bind fun _ _ => writes_flushWithin hconfig _

theorem writes_filterMapM_lift (f : α → Attempt (Option β)) (xs : List α) :
    Writes (fun _ => True) (xs.filterMapM fun x => lift (f x)) := by
  induction xs with
  | nil => exact writes_pure trivial
  | cons x xs ih =>
    rw [List.filterMapM_cons]
    refine (writes_lift_any _).bind fun y _ => ?_
    split
    · exact ih
    · exact ih.bind fun _ _ => writes_pure trivial

theorem writes_takeNames (roots : List NodeId) : Writes (fun _ => True) (takeNames roots) :=
  writes_graph.bind fun _ _ => (writes_filterMapM_lift _ roots).bind fun _ _ =>
    writes_modify fun _ hD => ⟨hD.names, hD.types⟩

theorem writes_takeQueryName (config : Config) : Writes (fun _ => True) (takeQueryName config) := by
  refine (writes_lift_any _).bind fun _ _ => ?_
  split
  · exact writes_modify fun D hD => ⟨hD.names, hD.types⟩
  · exact writes_pure trivial

theorem writes_finish (hconfig : config.Legible indent) :
    Writes Definitions.Legible (definitions.finish config) := by
  refine writes_get_bind fun D hD => writes_pure ⟨fun scalar hscalar => ?_, hD.types⟩
  split at hscalar
  · obtain rfl := Option.some.inj hscalar
    exact hconfig.jsonScalar.isName
  · cases hscalar

/-- All definitions of a draft are legible. -/
theorem writes_definitions (hconfig : config.Legible indent) (roots : List NodeId)
    (query : Option NodeId) : Writes Definitions.Legible (definitions config roots query) := by
  refine (writes_takeNames roots).bind fun _ _ => (writes_takeQueryName config).bind fun _ _ =>
    (writes_forM (fun i => (writes_nameVariant i).bind fun _ _ => writes_pure trivial) roots).bind
      fun _ _ => (writes_forM (fun i => (writes_generate hconfig i).bind fun _ _ =>
        writes_flush hconfig) roots).bind fun _ _ => ?_
  split
  · exact (writes_finish hconfig).bind fun _ h => writes_pure h
  · next q =>
    refine (writes_node q).bind fun n _ => ?_
    split
    · exact writes_finish hconfig
    · next hsome =>
      exact (writes_within (writes_writeType hconfig q hconfig.queryType.isName
        (values_ne_nil hsome)) q).bind fun _ _ => (writes_flush hconfig).bind fun _ _ =>
          writes_finish hconfig

end Drafting

/-! ## Documents -/

namespace Conversion

open Drafting

variable {d : Document} {config : Config} {oracle : Oracle} {defs : Definitions} {c : Context}
  {indent : String}

theorem legible_definitions (hconfig : config.Legible indent)
    (h : definitions d config (start oracle) = .ok defs c) : defs.Legible := by
  obtain ⟨query, c₁, -, h⟩ := bind_eq_ok_iff.1 h
  obtain ⟨c₂, c₃, -, h⟩ := bind_eq_ok_iff.1 h
  obtain ⟨roots, c₄, -, h⟩ := bind_eq_ok_iff.1 h
  obtain ⟨D, hrun, -⟩ := exists_of_drafting h
  have hstart : Draft.Legible { context := c₄ } := ⟨by simp, by simp⟩
  exact (writes_definitions hconfig roots (some query) _ _ D hstart hrun).2

/-- The text of definitions is well formed, whatever a document says and an oracle answers: its lines are
those of its types and their fields, and they are in the grammar. No name and no default value breaks a
line or a type. -/
theorem splitOn_render_definitions (h : definitions d config (start oracle) = .ok defs c)
    (hconfig : config.Legible indent) (hfinite : defs.hasFiniteDefaults = true) :
    run .definitions d config (start oracle) = .ok (defs.render config) c ∧
      (defs.render config).toList.splitOn '\n' = defs.lines indent ++ [[]] ∧
      defs.lines indent ++ [[]] ∈ document indent := by
  refine ⟨bind_of_ok h, Definitions.splitOn_render (legible_definitions hconfig h) hfinite
    hconfig.fieldIndent ?_⟩
  refine List.all_eq_true.2 fun ch hch => ?_
  rw [hconfig.spaces ch hch]
  decide

/-- A document whose names and default values hold line ends, braces and quotes. -/
def oddNames : Document :=
  ⟨.obj [
    ("paths", .obj [("/pets", .obj [("get", .obj [
      ("operationId", .str "list pets\n\x7d"),
      ("parameters", .arr [.obj [("name", .str "page size"), ("in", .str "query"),
        ("schema", .obj [("type", .str "number"), ("default", .float (.ofDecimal false 15 (-1)))])]]),
      ("responses", .obj [("200", .obj [("content", .obj [("application/json", .obj [
        ("schema", .obj [("type", .str "array"),
          ("items", .obj [("$ref", .str "#/components/schemas/1 pet\n\x7b")])])])])])])])])]),
    ("components", .obj [("schemas", .obj [("1 pet\n\x7b", .obj [("type", .str "object"),
      ("properties", .obj [
        ("na\nme", .obj [("type", .str "string"), ("default", .str "a\n\"b\"")]),
        ("", .obj [("type", .str "integer"), ("default", .int (-3))]),
        ("owner", .obj [("type", .str "object"),
          ("properties", .obj [("näme", .obj [("type", .str "string")])])])])])])])]⟩

/-- The definitions of this document. -/
def oddNamesText : String :=
  "# Generated by oas_to_graphql 0.1.0\n\ntype _1Pet \x7b\n  na_me: String = \"a\\n\\\"b\\\"\"\n" ++
    "  _: Int = -3\n  owner: _1PetOwner\n\x7d\n\ntype _1PetOwner \x7b\n  n_me: String\n\x7d\n\n" ++
    "type Query \x7b\n  list_pets__(page_size: Float = 1.5): [_1Pet]\n\x7d\n\n"

theorem splitOn_render_definitions_oddNames :
    ∃ c, run .definitions oddNames {} (start Oracle.always) = .ok oddNamesText c ∧
      oddNamesText.toList.splitOn '\n' ∈ document "  " := by
  obtain ⟨defs, hdefs, hboth⟩ : ∃ defs, definitions oddNames {} (start Oracle.always) = .ok defs _ ∧
      (defs.hasFiniteDefaults, defs.render {}) = (true, oddNamesText) :=
    exists_eq_ok_of_map_outcome (by decide +kernel)
  obtain ⟨hfinite, htext⟩ := Prod.mk.inj hboth
  obtain ⟨hrun, hlines, hmem⟩ := splitOn_render_definitions hdefs Config.legible_usual hfinite
  rw [htext] at hrun hlines
  exact ⟨_, hrun, hlines ▸ hmem⟩

end Conversion

end ApiGraph
