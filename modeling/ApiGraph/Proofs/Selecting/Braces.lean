import ApiGraph.Proofs.Selecting.Courses

/-!
# Braces with nothing in them

The selection of a value goes into an object or composition only if it is not inside of it already. So
there may be nothing to write between an opening brace and its closing brace: when the way of the value
comes, through a choice by `oneOf`, to an object that the run is inside of, and when all fields of the
object lead back to where the run is.

* `SelectionLine.Nested` — lines in which all braces are matched;
* `Graph.Enters`, `Graph.Within` — the nodes that the selection of a value goes into, and those that one is
  inside of in the braces of properties;
* `Graph.Enters.lands`, `Graph.enters_of_lands` — a selection goes into nodes on the way of the value, its
  end among them;
* `Graph.LeadsBack` — fields that are left out;
* `Graph.Selects.value_eq_nil_iff` — when nothing is written for a value;
* `Graph.Selects.exists_place` — what stands after an opening line, and what the run is inside of there;
* `Conversion.empty_braces_iff` — when there is nothing between two braces of a whole selection.
-/

namespace ApiGraph

open OrderedMap SelectionLine

/-! ## Matching braces -/

namespace SelectionLine

/-- Lines in which every opening line has its closing line. -/
inductive Nested : List SelectionLine → Prop
  | nil : Nested []
  | leaf {i : NodeId} {k : Nat} {name : String} {ls : List SelectionLine} (rest : Nested ls) :
      Nested (.leaf i k name :: ls)
  | braces {i : NodeId} {k : Nat} {name : String} {inner ls : List SelectionLine}
      (inside : Nested inner) (rest : Nested ls) :
      Nested (.opening i k name :: (inner ++ .closing i k :: ls))

namespace Nested

variable {outer : List NodeId} {ls more : List SelectionLine}

theorem append (h : Nested ls) (h' : Nested more) : Nested (ls ++ more) := by
  induction h with
  | nil => exact h'
  | leaf _ ih => exact .leaf ih
  | braces inside _ _ ih =>
    rw [List.cons_append, List.append_assoc]
    exact .braces inside ih

/-- One gets out of all braces that one gets into. -/
theorem around_eq (h : Nested ls) : around outer ls = outer := by
  induction h generalizing outer with
  | nil => rfl
  | leaf _ ih => exact ih
  | @braces i k name inner ls _ _ ih ih' =>
    show around (i :: outer) (inner ++ .closing i k :: ls) = outer
    rw [around_append, ih]
    exact ih'

end Nested

end SelectionLine

namespace Graph

variable {g : Graph} {n k : Nat} {i j t : NodeId} {v w : Option NodeId}

/-! ## Nodes that a selection goes into -/

/-- The nodes that the selection of a value goes into: where it goes to, and from a choice on also where
the selection of its union goes to. -/
inductive Enters (g : Graph) : Option NodeId → NodeId → Prop
  | target {v : Option NodeId} {i : NodeId} (target : g.Targets v i)
      (type : (g.node i).body.IsType) : Enters g v i
  | choice {v u : Option NodeId} {i j : NodeId} {parts : Option Json} (target : g.Targets v i)
      (body : (g.node i).body = .composed .oneOf parts) (union : g.unionOf i = .ok u)
      (rest : Enters g u j) : Enters g v j

/-- The nodes that one is inside of in the braces of properties. -/
def Within (g : Graph) (outer : List NodeId) (j : NodeId) : Prop :=
  ∃ f ∈ outer, g.Enters (g.node f).valueType? j

theorem within_nil : ¬g.Within [] j := by simp [Within]

theorem within_cons {f : NodeId} {outer : List NodeId} :
    g.Within (f :: outer) j ↔ g.Enters (g.node f).valueType? j ∨ g.Within outer j := by
  simp [Within]

theorem within_append {outer outer' : List NodeId} :
    g.Within (outer ++ outer') j ↔ g.Within outer j ∨ g.Within outer' j := by
  simp only [Within, List.mem_append, or_and_right, exists_or]

theorem Targets.of_peeled? (hv : g.peeled? i = some v) (h : g.Targets v t) : g.Targets (some i) t := by
  obtain ⟨n, hway⟩ := h
  exact ⟨n + 1, .step hv hway⟩

theorem Targets.peel (hv : g.peeled? i = some v) (h : g.Targets (some i) t) : g.Targets v t := by
  obtain ⟨n, hway⟩ := h
  cases hway with
  | last hlast =>
    rw [hv] at hlast
    cases hlast
  | step hnext hrest =>
    rw [hv] at hnext
    cases hnext
    exact ⟨_, hrest⟩

theorem Enters.of_peeled? (hv : g.peeled? i = some v) (h : g.Enters v j) : g.Enters (some i) j := by
  cases h with
  | target target type => exact .target (target.of_peeled? hv) type
  | choice target body union rest => exact .choice (target.of_peeled? hv) body union rest

theorem Enters.peel (hv : g.peeled? i = some v) (h : g.Enters (some i) j) : g.Enters v j := by
  cases h with
  | target target type => exact .target (target.peel hv) type
  | choice target body union rest => exact .choice (target.peel hv) body union rest

/-- The selection of a value without objects and compositions goes into no node. -/
theorem not_enters (target : g.Targets v i) (htype : ¬(g.node i).body.IsType) : ¬g.Enters v j := by
  intro h
  cases h with
  | target target' type =>
    cases target.unique target'
    exact htype type
  | choice target' body _ _ =>
    cases target.unique target'
    exact htype (.inr ⟨_, _, body⟩)

theorem enters_iff_of_members (target : g.Targets v i)
    (body : (g.node i).body = .object ∨ ∃ parts, (g.node i).body = .composed .allOf parts) :
    g.Enters v j ↔ j = i := by
  constructor
  · intro h
    cases h with
    | target target' _ => exact target'.unique target
    | choice target' body' _ _ =>
      cases target.unique target'
      simp [body'] at body
  · rintro rfl
    exact .target target (body.imp id fun ⟨parts, body⟩ => ⟨_, parts, body⟩)

theorem enters_iff_of_choice {u : Option NodeId} {parts : Option Json} (target : g.Targets v i)
    (body : (g.node i).body = .composed .oneOf parts) (union : g.unionOf i = .ok u) :
    g.Enters v j ↔ j = i ∨ g.Enters u j := by
  constructor
  · intro h
    cases h with
    | target target' _ => exact .inl (target'.unique target)
    | choice target' _ union' rest =>
      cases target.unique target'
      rw [union] at union'
      cases union'
      exact .inr rest
  · rintro (rfl | rest)
    · exact .target target (.inr ⟨_, _, body⟩)
    · exact .choice target body union rest

/-! ## Ways through choices -/

/-- A choice goes on to what its union goes on to. -/
theorem exists_union_of_inner? {parts : Option Json} (hbody : (g.node i).body = .composed .oneOf parts)
    (h : g.inner? i = some w) :
    ∃ u, g.unionOf i = .ok (some u) ∧ g.peeled? u = some w ∧ g.inner? u = some w := by
  simp only [inner?, hbody] at h
  obtain ⟨u, hunion, hvariant⟩ := exists_union_of_oneOfVariant (Attempt.eq_ok_of_toOption h)
  have hshapes : ∃ shapes, (g.node u).body = .union shapes := by
    rcases hu : (g.node u).body with _ | _ | _ | _ | shapes | _ | _ | _ | _ <;>
      simp [unionVariant, hu] at hvariant
    exact ⟨shapes, rfl⟩
  obtain ⟨shapes, hshapes⟩ := hshapes
  refine ⟨u, hunion, ?_, ?_⟩
  · simp [peeled?, hshapes, hvariant, Except.toOption]
  · simp [inner?, hshapes, hvariant, Except.toOption]

/-- From where a selection goes, the rest of the way of the value is not longer. -/
theorem LandsIn.of_targets (h : LandsIn g.inner? n v t) (hplain : (g.node t).body.isChoice = false)
    (target : g.Targets v i) : ∃ m ≤ n, LandsIn g.inner? m (some i) t := by
  obtain ⟨k, hway⟩ := target
  induction hway generalizing n with
  | last => exact ⟨n, le_rfl, h⟩
  | step hpeeled _ ih =>
    cases h with
    | last hlast =>
      rw [peeled?_eq_none hlast hplain] at hpeeled
      cases hpeeled
    | step hnext hrest =>
      obtain rfl := inner?_of_peeled? hpeeled hnext
      obtain ⟨m, hm, hlands⟩ := ih hrest
      exact ⟨m, by omega, hlands⟩

theorem Unwraps.of_targets (h : g.Unwraps v t) (hplain : (g.node t).body.isChoice = false)
    (target : g.Targets v i) : g.Unwraps (some i) t := by
  obtain ⟨n, hway⟩ := h
  obtain ⟨m, -, hlands⟩ := LandsIn.of_targets hway hplain target
  exact ⟨m, hlands⟩

/-- The union of a choice unwraps to what the choice does. -/
theorem Unwraps.of_choice {parts : Option Json} {u : Option NodeId} (h : g.Unwraps v t)
    (hplain : (g.node t).body.isChoice = false) (target : g.Targets v i)
    (body : (g.node i).body = .composed .oneOf parts) (union : g.unionOf i = .ok u) : g.Unwraps u t := by
  obtain ⟨m, hlands⟩ := h.of_targets hplain target
  cases hlands with
  | last => simp [body, Body.isChoice] at hplain
  | step hnext hrest =>
    obtain ⟨u', hunion, -, hinner⟩ := exists_union_of_inner? body hnext
    rw [union] at hunion
    cases hunion
    exact ⟨_, .step hinner hrest⟩

/-- The way of a value ends where its selection goes to members. -/
theorem Unwraps.eq_of_members (h : g.Unwraps v t) (hplain : (g.node t).body.isChoice = false)
    (target : g.Targets v i)
    (body : (g.node i).body = .object ∨ ∃ parts, (g.node i).body = .composed .allOf parts) : i = t := by
  obtain ⟨m, hlands⟩ := h.of_targets hplain target
  cases hlands with
  | last => rfl
  | step hnext => rcases body with hbody | ⟨parts, hbody⟩ <;> simp [inner?, hbody] at hnext

/-- A property is no value that leads to fields. -/
theorem Unwraps.not_isField (h : g.Unwraps v t) (hfields : g.hasFields t = true)
    (hplain : (g.node t).body.isChoice = false) (target : g.Targets v i) :
    ¬(g.node i).body.IsField := by
  rintro ⟨slot, arguments, link, hbody⟩
  obtain ⟨m, hlands⟩ := h.of_targets hplain target
  cases hlands with
  | last => simp [hasFields, hbody] at hfields
  | step hnext => simp [inner?, hbody] at hnext

/-- A node that the selection of a value goes into is on the way of the value: the way goes on from it to
the same end. -/
theorem Enters.lands (h : g.Enters v j) (hway : LandsIn g.inner? n v t)
    (hplain : (g.node t).body.isChoice = false) : ∃ m ≤ n, LandsIn g.inner? m (some j) t := by
  induction h generalizing n with
  | target target _ => exact hway.of_targets hplain target
  | @choice v u i j parts target body union _ ih =>
    obtain ⟨m, hm, hlands⟩ := hway.of_targets hplain target
    cases hlands with
    | last => simp [body, Body.isChoice] at hplain
    | @step m _ _ w hnext hrest =>
      obtain ⟨u', hunion, -, hinner⟩ := exists_union_of_inner? body hnext
      rw [union] at hunion
      cases hunion
      obtain ⟨m', hm', hlands⟩ := ih (.step hinner hrest)
      exact ⟨m', by omega, hlands⟩

/-- A selection goes into the end of the way of the value. -/
theorem enters_of_lands (h : LandsIn g.inner? n v t) (hfields : g.hasFields t = true) :
    g.Enters v t := by
  induction h with
  | last hlast =>
    have hbody := body_of_hasFields hfields
    refine (enters_iff_of_members (targets_self ?_) hbody).2 rfl
    rcases hbody with hbody | ⟨parts, hbody⟩ <;> rw [peeled?, hbody]
  | @step n i t w hnext _ ih =>
    have hrest := ih hfields
    cases hpeeled : g.peeled? i with
    | some v =>
      obtain rfl := inner?_of_peeled? hpeeled hnext
      exact hrest.of_peeled? hpeeled
    | none =>
      -- only at a choice by `oneOf` the way of the value goes on and the selection does not
      obtain ⟨parts, hbody⟩ : ∃ parts, (g.node i).body = .composed .oneOf parts := by
        rcases hbody : (g.node i).body with _ | _ | _ | _ | _ | ⟨_ | _, parts⟩ | _ | _ | _ <;>
          simp [inner?, peeled?, hbody] at hnext hpeeled
        exact ⟨parts, rfl⟩
      obtain ⟨u, hunion, hu, -⟩ := exists_union_of_inner? hbody hnext
      exact .choice (targets_self hpeeled) hbody hunion (hrest.of_peeled? hu)

/-- The selection of the union of a choice does not come back to the choice. -/
theorem not_enters_union {parts : Option Json} {u : Option NodeId}
    (hbody : (g.node i).body = .composed .oneOf parts) (hunion : g.unionOf i = .ok u)
    (hway : LandsIn g.inner? n (some i) t) (hplain : (g.node t).body.isChoice = false) :
    ¬g.Enters u i := by
  intro henters
  cases hway with
  | last => simp [hbody, Body.isChoice] at hplain
  | step hnext hrest =>
    obtain ⟨u', hunion', hpeeled, -⟩ := exists_union_of_inner? hbody hnext
    rw [hunion] at hunion'
    cases hunion'
    obtain ⟨m, hm, hlands⟩ := (henters.peel hpeeled).lands hrest hplain
    -- the way from the choice would be shorter than it is
    have := (hlands.unique (.step hnext hrest)).1
    omega

theorem isChoice_of_hasFields (h : g.hasFields t = true) : (g.node t).body.isChoice = false := by
  rcases body_of_hasFields h with hbody | ⟨parts, hbody⟩ <;> simp [hbody, Body.isChoice]

/-- In the braces of properties with selections, one is inside of some node that the selection of a value
goes into just if one is inside of the end of its way. -/
theorem exists_within_iff {outer : List NodeId}
    (hopen : ∀ f ∈ outer, g.IsCompound (g.node f).valueType?) (ht : g.Unwraps v t)
    (hfields : g.hasFields t = true) : (∃ i, g.Enters v i ∧ g.Within outer i) ↔ g.Within outer t := by
  obtain ⟨n, hway⟩ := ht
  constructor
  · rintro ⟨i, hi, f, hf, hentered⟩
    obtain ⟨t', ⟨m, hway'⟩, hfields'⟩ := hopen f hf
    obtain ⟨k, -, hlands⟩ := hi.lands hway (isChoice_of_hasFields hfields)
    obtain ⟨k', -, hlands'⟩ := hentered.lands hway' (isChoice_of_hasFields hfields')
    obtain rfl := (hlands.unique hlands').2
    exact ⟨f, hf, enters_of_lands hway' hfields'⟩
  · intro h
    exact ⟨t, enters_of_lands hway hfields, h⟩

/-! ## Values for which nothing is written -/

/-- A field that is left out inside the nodes for which `into` holds: it would have a selection, which
would go to one of them. -/
def LeadsBack (g : Graph) (into : NodeId → Prop) (p : NodeId) : Prop :=
  g.IsCompound (g.node p).valueType? ∧ ∃ t, g.Targets (g.node p).valueType? t ∧ into t

variable {stack : List (Option NodeId)} {p : NodeId} {ps : List NodeId} {ls : List SelectionLine}

theorem LeadsBack.congr {into into' : NodeId → Prop} (hinto : ∀ j, into j ↔ into' j) :
    g.LeadsBack into p ↔ g.LeadsBack into' p := by
  simp only [LeadsBack, hinto]

theorem IsCompound.not_isPlain (h : g.IsCompound v) : ¬g.IsPlain v := by
  obtain ⟨t, ht, hfields⟩ := h
  rintro (rfl | ⟨t', ht', hfields', -⟩)
  · obtain ⟨n, hway⟩ := ht
    cases hway
  · obtain rfl := ht.unique ht'
    rw [hfields] at hfields'
    cases hfields'

/-- Nothing is written for a field just if it leads back. -/
theorem Selects.field_eq_nil_iff (h : g.Selects stack (.field p) ls) :
    ls = [] ↔ g.LeadsBack (some · ∈ stack) p := by
  cases h with
  | leaf plain =>
    refine iff_of_false (by simp) ?_
    intro hback
    exact hback.1.not_isPlain plain
  | skipped compound target inside => exact iff_of_true rfl ⟨compound, _, target, inside⟩
  | braces _ target outside =>
    refine iff_of_false (by simp) ?_
    rintro ⟨-, t', target', inside⟩
    obtain rfl := target.unique target'
    exact outside inside

/-- Nothing is written for fields just if they all lead back. -/
theorem Selects.fields_eq_nil_iff (h : g.Selects stack (.fields ps) ls) :
    ls = [] ↔ ∀ p ∈ ps, g.LeadsBack (some · ∈ stack) p := by
  induction ps generalizing ls with
  | nil =>
    cases h
    simp
  | cons p ps ih =>
    cases h with
    | cons field fields =>
      rw [List.append_eq_nil_iff, field.field_eq_nil_iff, ih fields, List.forall_mem_cons]

/-- Nothing is written for a value that leads to fields just if the run is inside of a node that the
selection would go into, or if all the fields lead back to where the run is in the end. -/
theorem Selects.value_eq_nil_iff (h : g.Selects stack (.value v) ls) (ht : g.Unwraps v t)
    (hfields : g.hasFields t = true) :
    ls = [] ↔ (∃ i, g.Enters v i ∧ some i ∈ stack) ∨
      ∀ p ∈ values (g.node t).props, g.LeadsBack (fun j => some j ∈ stack ∨ g.Enters v j) p := by
  have hplain := isChoice_of_hasFields hfields
  generalize htask : SelectionTask.value v = task at h
  induction h generalizing v with
  | leaf | skipped | braces | nil | cons => cases htask
  | property target property _ _ =>
    cases htask
    exact absurd property (ht.not_isField hfields hplain target)
  | inside target type inside =>
    cases htask
    exact iff_of_true rfl (.inl ⟨_, .target target type, inside⟩)
  | @choice stack v u i parts ls target body outside union _ ih =>
    cases htask
    obtain ⟨m, hlands⟩ := ht.of_targets hplain target
    have hturn := not_enters_union body union hlands hplain
    refine (ih (ht.of_choice hplain target body union) rfl).trans ?_
    refine or_congr ⟨?_, ?_⟩ (forall₂_congr fun p _ => LeadsBack.congr fun j => ?_)
    · rintro ⟨j, hj, hinside⟩
      refine ⟨j, .choice target body union hj, ?_⟩
      rcases List.mem_cons.1 hinside with hhead | hinside
      · cases hhead
        exact absurd hj hturn
      · exact hinside
    · rintro ⟨j, hj, hinside⟩
      rcases (enters_iff_of_choice target body union).1 hj with rfl | hj
      · exact absurd hinside outside
      · exact ⟨j, hj, List.mem_cons_of_mem _ hinside⟩
    · rw [enters_iff_of_choice target body union, List.mem_cons, Option.some_inj, or_assoc, or_left_comm]
  | @members stack v i ls target body outside fields _ =>
    cases htask
    obtain rfl := ht.eq_of_members hplain target body
    rw [fields.fields_eq_nil_iff, or_iff_right]
    · refine forall₂_congr fun p _ => LeadsBack.congr fun j => ?_
      rw [enters_iff_of_members target body, List.mem_cons, Option.some_inj, or_comm]
    · rintro ⟨j, hj, hinside⟩
      rw [enters_iff_of_members target body] at hj
      exact outside (hj ▸ hinside)
  | nothing target type _ =>
    cases htask
    obtain ⟨n, hway⟩ := ht
    exact absurd (enters_of_lands hway hfields) (not_enters target type)

/-! ## Opening lines -/

/-- The lines of a selection are matched. -/
theorem Selects.nested {task : SelectionTask} (h : g.Selects stack task ls) : Nested ls := by
  induction h with
  | leaf => exact .leaf .nil
  | braces _ _ _ _ _ ih => exact .braces ih .nil
  | property _ _ _ ih => exact ih
  | choice _ _ _ _ _ ih => exact ih
  | members _ _ _ _ ih => exact ih
  | cons _ _ ih ih' => exact ih.append ih'
  | skipped | inside | nothing | nil => exact .nil

end Graph

/-- The nodes that lines are written inside of, besides those of the stack and of the braces. -/
def SelectionTask.Enters (g : Graph) : SelectionTask → NodeId → Prop
  | .value v, j => g.Enters v j
  | _, _ => False

namespace Graph

variable {g : Graph} {stack stack' : List (Option NodeId)} {task : SelectionTask} {i : NodeId} {k : Nat}
  {name : String} {opened : List NodeId} {ls before after inner rest : List SelectionLine}
  {into into' : NodeId → Prop}

/-- Where an opening line stands: in which braces, in which nodes, and what comes after it. -/
structure Place (g : Graph) (into : NodeId → Prop) (before : List SelectionLine) (i : NodeId) (k : Nat)
    (after : List SelectionLine) (opened : List NodeId) (stack : List (Option NodeId))
    (inner rest : List SelectionLine) : Prop where
  around : ∀ outer, SelectionLine.around outer before = opened ++ outer
  after : after = inner ++ .closing i k :: rest
  compound : g.IsCompound (g.node i).valueType?
  outside : ∀ t, g.Targets (g.node i).valueType? t → some t ∉ stack
  value : g.Selects stack (.value (g.node i).valueType?) inner
  stack : ∀ j, some j ∈ stack ↔ into j ∨ g.Within opened j
  opened : ∀ f ∈ opened, g.IsCompound (g.node f).valueType?

theorem Place.congr (h : g.Place into before i k after opened stack inner rest)
    (hinto : ∀ j, into j ↔ into' j) : g.Place into' before i k after opened stack inner rest :=
  { h with stack := fun j => by rw [h.stack, hinto] }

theorem exists_of_append_eq {α : Type} {xs ys before after : List α} {x : α}
    (h : xs ++ ys = before ++ x :: after) :
    (∃ after', xs = before ++ x :: after' ∧ after = after' ++ ys) ∨
      ∃ before', before = xs ++ before' ∧ ys = before' ++ x :: after := by
  rcases List.append_eq_append_iff.1 h with ⟨before', hbefore, hys⟩ | ⟨after', hxs, hafter⟩
  · exact .inr ⟨before', hbefore, hys⟩
  · cases after' with
    | nil => exact .inr ⟨[], by simpa using hxs.symm, by simpa using hafter.symm⟩
    | cons y after' =>
      obtain ⟨rfl, rfl⟩ := List.cons.inj hafter
      exact .inl ⟨after', hxs, rfl⟩

/-- An opening line among the lines of a selection. -/
theorem Selects.exists_place (h : g.Selects stack task ls)
    (hls : ls = before ++ .opening i k name :: after) :
    ∃ opened stack' inner rest,
      g.Place (fun j => some j ∈ stack ∨ task.Enters g j) before i k after opened stack' inner rest := by
  induction h generalizing before after with
  | skipped | inside | nothing | nil => simp at hls
  | leaf =>
    rcases List.cons_eq_append_iff.1 hls with ⟨-, h⟩ | ⟨before', -, h⟩
    · cases h
    · simp at h
  | @braces stack p t name' inner compound target outside _ value ih =>
    rcases List.cons_eq_append_iff.1 hls with ⟨rfl, hfirst⟩ | ⟨before, rfl, hinside⟩
    · cases hfirst
      refine ⟨[], stack, inner, [], fun _ => rfl, rfl, compound, fun t' target' => ?_, value,
        fun j => ?_, by simp⟩
      · rwa [target'.unique target]
      · simp [SelectionTask.Enters, within_nil]
    · rcases exists_of_append_eq hinside with ⟨after', hinner, rfl⟩ | ⟨before', -, hclosing⟩
      · obtain ⟨opened, stack', inner', rest, hplace⟩ := ih hinner
        refine ⟨opened ++ [p], stack', inner', rest ++ [.closing p stack.length], fun outer => ?_, ?_,
          hplace.compound, hplace.outside, hplace.value, fun j => ?_, fun f hf => ?_⟩
        · rw [List.append_assoc]
          exact hplace.around (p :: outer)
        · rw [hplace.after, List.append_assoc, List.cons_append]
        · rw [hplace.stack, within_append, within_cons]
          simp only [SelectionTask.Enters, within_nil]
          tauto
        · rcases List.mem_append.1 hf with hf | hf
          · exact hplace.opened f hf
          · rw [List.mem_singleton.1 hf]
            exact compound
      · -- the closing line is no opening line
        rcases List.cons_eq_append_iff.1 hclosing with ⟨-, h⟩ | ⟨before'', -, h⟩
        · cases h
        · simp at h
  | property target property _ ih =>
    obtain ⟨opened, stack', inner, rest, hplace⟩ := ih hls
    refine ⟨opened, stack', inner, rest, hplace.congr fun j => ?_⟩
    have hnot := not_enters (j := j) target property.not_isType
    simp [SelectionTask.Enters, hnot]
  | choice target body _ union _ ih =>
    obtain ⟨opened, stack', inner, rest, hplace⟩ := ih hls
    refine ⟨opened, stack', inner, rest, hplace.congr fun j => ?_⟩
    simp only [SelectionTask.Enters, enters_iff_of_choice target body union, List.mem_cons,
      Option.some.injEq]
    tauto
  | members target body _ _ ih =>
    obtain ⟨opened, stack', inner, rest, hplace⟩ := ih hls
    refine ⟨opened, stack', inner, rest, hplace.congr fun j => ?_⟩
    simp only [SelectionTask.Enters, enters_iff_of_members target body, List.mem_cons,
      Option.some.injEq]
    tauto
  | @cons stack p ps ls more field _ ih ih' =>
    rcases exists_of_append_eq hls with ⟨after', hfirst, rfl⟩ | ⟨before, rfl, hmore⟩
    · obtain ⟨opened, stack', inner, rest, hplace⟩ := ih hfirst
      refine ⟨opened, stack', inner, rest ++ more, { hplace with after := ?_ }⟩
      rw [hplace.after, List.append_assoc, List.cons_append]
    · obtain ⟨opened, stack', inner, rest, hplace⟩ := ih' hmore
      refine ⟨opened, stack', inner, rest, { hplace with around := fun outer => ?_ }⟩
      rw [around_append, field.nested.around_eq, hplace.around]

/-- In the lines of a selection outside of all nodes, what stands after an opening line. -/
theorem Selects.exists_braces {fields : List NodeId} {p : NodeId} (h : g.Selects [] (.fields fields) ls)
    (hls : ls = before ++ .opening p k name :: after) :
    ∃ inner rest t, after = inner ++ .closing p k :: rest ∧ Nested inner ∧
      g.Unwraps (g.node p).valueType? t ∧ g.hasFields t = true ∧
      (∀ i, g.Targets (g.node p).valueType? i → ¬g.Within (around [] before) i) ∧
      (inner = [] ↔ g.Within (around [] before) t ∨
        ∀ f ∈ values (g.node t).props, g.LeadsBack (g.Within (p :: around [] before)) f) := by
  obtain ⟨opened, stack, inner, rest, hplace⟩ := h.exists_place hls
  have haround : around [] before = opened := (hplace.around []).trans (List.append_nil _)
  have hstack : ∀ j, some j ∈ stack ↔ g.Within opened j := by
    intro j
    rw [hplace.stack]
    simp [SelectionTask.Enters]
  obtain ⟨t, ht, hfields⟩ := hplace.compound
  refine ⟨inner, rest, t, hplace.after, hplace.value.nested, ht, hfields, fun i hi => ?_, ?_⟩
  · rw [haround, ← hstack]
    exact hplace.outside i hi
  · rw [hplace.value.value_eq_nil_iff ht hfields, haround]
    refine or_congr ?_ (forall₂_congr fun f _ => LeadsBack.congr fun j => ?_)
    · simp only [hstack]
      exact exists_within_iff hplace.opened ht hfields
    · rw [hstack, within_cons, or_comm]

end Graph

/-! ## Runs -/

namespace Conversion

variable {d : Document} {config : Config} {oracle : Oracle} {lines : List SelectionLine} {c : Context}

/-- The lines of a selection are matched, and a brace is only opened for a field whose value has fields and
whose selection goes to a node that the run is not inside of. There is nothing between the brace and its
closing brace just if the run is already inside of the object that has the fields, to which then a choice
by `oneOf` leads, or if each of the fields itself leads back into the open braces. -/
theorem empty_braces_iff (h : selection d config (start oracle) = .ok lines c) :
    run .selection d config (start oracle) = .ok (SelectionLine.renderAll lines) c ∧ Nested lines ∧
      ∀ before p k name after, lines = before ++ .opening p k name :: after →
        ∃ inner rest t, after = inner ++ .closing p k :: rest ∧ Nested inner ∧
          c.graph.Unwraps (c.graph.node p).valueType? t ∧ c.graph.hasFields t = true ∧
          (∀ i, c.graph.Targets (c.graph.node p).valueType? i → ¬c.graph.Within (around [] before) i) ∧
          (inner = [] ↔ c.graph.Within (around [] before) t ∨
            ∀ f ∈ values (c.graph.node t).props,
              c.graph.LeadsBack (c.graph.Within (p :: around [] before)) f) := by
  obtain ⟨fields, hselects⟩ := selects_selection h
  refine ⟨bind_eq_ok_iff.2 ⟨lines, c, h, rfl⟩, hselects.nested, ?_⟩
  intro before p k name after hlines
  exact hselects.exists_braces hlines

/-- Nodes with a link to the next one, which is a choice by `oneOf`. -/
def linkedNodes : Document :=
  ⟨.obj [
    ("paths", .obj [("/node", .obj [("get", .obj [
      ("operationId", .str "getNode"),
      ("responses", .obj [("200", .obj [("content", .obj [("application/json", .obj [
        ("schema", .obj [("$ref", .str "#/components/schemas/Node")])])])])])])])]),
    ("components", .obj [("schemas", .obj [
      ("Node", .obj [("type", .str "object"), ("properties", .obj [
        ("id", .obj [("type", .str "string")]),
        ("next", .obj [("$ref", .str "#/components/schemas/Link")])])]),
      ("Link", .obj [("oneOf", .arr [.obj [("$ref", .str "#/components/schemas/Node")]])])])])]⟩

/-- The next node is selected with nothing in its braces, as the run is inside of a node there. -/
theorem empty_braces_linkedNodes : ∃ lines c,
    selection linkedNodes {} (start Oracle.always) = .ok lines c ∧
      SelectionLine.renderAll lines = "getNode \x7b\n id\n next \x7b\n \x7d\n\x7d\n" ∧ Nested lines ∧
      ∀ before p k name after, lines = before ++ .opening p k name :: after →
        ∃ inner rest t, after = inner ++ .closing p k :: rest ∧ Nested inner ∧
          c.graph.Unwraps (c.graph.node p).valueType? t ∧ c.graph.hasFields t = true ∧
          (∀ i, c.graph.Targets (c.graph.node p).valueType? i →
            ¬c.graph.Within (around [] before) i) ∧
          (inner = [] ↔ c.graph.Within (around [] before) t ∨
            ∀ f ∈ values (c.graph.node t).props,
              c.graph.LeadsBack (c.graph.Within (p :: around [] before)) f) := by
  obtain ⟨lines, hlines, htext⟩ : ∃ lines, selection linkedNodes {} (start Oracle.always) = .ok lines _ ∧
      SelectionLine.renderAll lines = "getNode \x7b\n id\n next \x7b\n \x7d\n\x7d\n" :=
    exists_eq_ok_of_map_outcome (by decide +kernel)
  exact ⟨lines, _, hlines, htext, (empty_braces_iff hlines).2⟩

end Conversion

end ApiGraph
