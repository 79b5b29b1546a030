import ApiGraph.Proofs.Grouping.Graphs
import ApiGraph.Proofs.Restoring.Visits

/-!
# Runs beside one another

Two runs that do the same side by side, of which one makes some groups of members more.

* `Json.group` — a declaration of nothing but a composition by `allOf`;
* `Transcript.Echoes` — what one run tells of is told of by the other, with the groups in between;
* `Footing` — where two runs are;
* `Footing.Beside` — two states with graphs beside one another, the same store and the same oracle;
* `Footing.Alike` — two computations that end alike, in states beside one another;
* `Footing.Alike.works_bind` — sequences of them;
* `Footing.alike_fromSchema`, `Footing.alike_update`, `Footing.alike_store`, … — the steps of a run.
-/

namespace ApiGraph

open OrderedMap Context

/-- A declaration of nothing but a composition of members by `allOf`. -/
def Json.group (members : List Json) : Json := .obj [("allOf", .arr members)]

/-! ## What is told -/

namespace Event

/-- An event of the way through the graph, or a log record. -/
def isAside : Event → Bool
  | .entered _ => true
  | .left _ => true
  | .logged _ _ _ => true
  | _ => false

/-- An event that speaks of no node. -/
def isPlain : Event → Bool
  | .entered _ => false
  | .left _ => false
  | .planted _ _ _ => false
  | .built _ _ => false
  | _ => true

end Event

/-- Since a time that two transcripts have in common, the second one tells the same as the first one:
nodes are made for the same schemas and for the same references, the same references are followed, and
the same questions are put and answered. Besides that it tells of groups. -/
inductive Transcript.Echoes (old : Transcript) (σ : NodeId → NodeId) (size : Nat) :
    Transcript → Transcript → Prop
  | start : Echoes old σ size old old
  | aside {e : Event} {t t' : Transcript} (he : e.isAside = true) (h : Echoes old σ size t t') :
    Echoes old σ size (e :: t) t'
  | aside' {e : Event} {t t' : Transcript} (he : e.isAside = true) (h : Echoes old σ size t t') :
    Echoes old σ size t (e :: t')
  | plain {e : Event} {t t' : Transcript} (he : e.isPlain = true) (h : Echoes old σ size t t') :
    Echoes old σ size (e :: t) (e :: t')
  | planted {j : NodeId} {t t' : Transcript} (p p' : Option NodeId) (schema : Json)
    (hj : j.index < size) (h : Echoes old σ size t t') :
    Echoes old σ size (.planted p schema j :: t) (.planted p' schema (σ j) :: t')
  | built {j : NodeId} {t t' : Transcript} (ref : Json) (hj : j.index < size)
    (h : Echoes old σ size t t') :
    Echoes old σ size (.built ref j :: t) (.built ref (σ j) :: t')
  | group {t t' : Transcript} (p : Option NodeId) (members : List Json) (k : NodeId)
    (h : Echoes old σ size t t') : Echoes old σ size t (.planted p (.group members) k :: t')

namespace Transcript.Echoes

variable {old t t' : Transcript} {σ τ : NodeId → NodeId} {size size' : Nat} {β : Type}

/-- More nodes may have been made, as long as those that are there stay where they are. -/
theorem mono (h : Echoes old σ size t t') (hsize : size ≤ size')
    (hτ : ∀ j : NodeId, j.index < size → τ j = σ j) : Echoes old τ size' t t' := by
  induction h with
  | start => exact .start
  | aside he _ ih => exact .aside he ih
  | aside' he _ ih => exact .aside' he ih
  | plain he _ ih => exact .plain he ih
  | planted p p' schema hj _ ih =>
    rw [← hτ _ hj]
    exact .planted p p' schema (hj.trans_le hsize) ih
  | built ref hj _ ih =>
    rw [← hτ _ hj]
    exact .built ref (hj.trans_le hsize) ih
  | group p members k _ ih => exact .group p members k ih

theorem append (h : Echoes old σ size t t') {new : Transcript} (hnew : ∀ e ∈ new, e.isPlain = true) :
    Echoes old σ size (new ++ t) (new ++ t') := by
  induction new with
  | nil => exact h
  | cons e new ih =>
    obtain ⟨he, hnew⟩ := List.forall_mem_cons.1 hnew
    exact .plain he (ih hnew)

/-- What is read off events that speak of no node is the same. -/
theorem filterMap_eq (h : Echoes old σ size t t') {f : Event → Option β}
    (haside : ∀ e : Event, e.isAside = true → f e = none)
    (hplanted : ∀ p schema j, f (.planted p schema j) = none) (hbuilt : ∀ ref j, f (.built ref j) = none) :
    t'.reverse.filterMap f = t.reverse.filterMap f := by
  induction h with
  | start => rfl
  | aside he _ ih => simp [List.filterMap_append, haside _ he, ih]
  | aside' he _ ih => simp [List.filterMap_append, haside _ he, ih]
  | plain he _ ih => simp [List.filterMap_append, ih]
  | planted p p' schema hj _ ih => simp [List.filterMap_append, hplanted, ih]
  | built ref hj _ ih => simp [List.filterMap_append, hbuilt, ih]
  | group p members k _ ih => simp [List.filterMap_append, hplanted, ih]

theorem questions (h : Echoes old σ size t t') : t'.questions = t.questions :=
  h.filterMap_eq (fun e he => by cases e <;> first | rfl | cases he) (fun _ _ _ => rfl) fun _ _ => rfl

theorem answers (h : Echoes old σ size t t') : t'.answers = t.answers :=
  h.filterMap_eq (fun e he => by cases e <;> first | rfl | cases he) (fun _ _ _ => rfl) fun _ _ => rfl

theorem metReferences (h : Echoes old σ size t t') : t'.metReferences = t.metReferences :=
  h.filterMap_eq (fun e he => by cases e <;> first | rfl | cases he) (fun _ _ _ => rfl) fun _ _ => rfl

theorem lookups (h : Echoes old σ size t t') : t'.lookups = t.lookups :=
  h.filterMap_eq (fun e he => by cases e <;> first | rfl | cases he) (fun _ _ _ => rfl) fun _ _ => rfl

end Transcript.Echoes

/-- What an oracle says speaks of no node. -/
theorem Oracle.isPlain_of_mem_events {q : Question} {o : Oracle} {e : Event}
    (h : e ∈ (o.respond q).events) : e.isPlain = true := by
  obtain ⟨text, rfl⟩ | ⟨text, rfl⟩ := shown_or_logged h <;> rfl

/-! ## Where two runs are -/

/-- Where two runs are: what both have told of, the compositions whose members may differ, the nodes that each
is inside of, and nodes of the second one that the first one does not have. -/
structure Footing where
  query : Option NodeId
  odd : NodeId → Prop
  told : Transcript
  stack : List (Option NodeId)
  depth : Nat
  stack' : List (Option NodeId)
  depth' : Nat
  spare : List (NodeId × Node)

namespace Footing

/-- Two states with graphs beside one another, the same store and the same oracle. -/
structure Beside (F : Footing) (σ : NodeId → NodeId) (c c' : Context) : Prop where
  graph : Graph.Beside F.query F.odd F.spare σ c.graph c'.graph
  types : c'.types = mapValues (Option.map σ) c.types
  stack : c.stack = F.stack
  depth : c.composeDepth = F.depth
  stack' : c'.stack = F.stack'
  depth' : c'.composeDepth = F.depth'
  oracle : c'.oracle = c.oracle
  told : Transcript.Echoes F.told σ c.graph.size c.transcript c'.transcript

/-- Two values that are related, or the same fault. -/
inductive Same {α β : Type} (R : α → β → Prop) : Attempt α → Attempt β → Prop
  | ok {a : α} {b : β} (h : R a b) : Same R (.ok a) (.ok b)
  | error (fault : Fault) : Same R (.error fault) (.error fault)

theorem Same.mono {α β : Type} {R R' : α → β → Prop} {a : Attempt α} {b : Attempt β} (h : Same R a b)
    (hR : ∀ x y, R x y → R' x y) : Same R' a b := by
  cases h with
  | ok h => exact .ok (hR _ _ h)
  | error fault => exact .error fault

theorem Same.eq {R : Unit → Unit → Prop} {a b : Attempt Unit} (h : Same R a b) : b = a := by
  cases h <;> rfl

/-- Two computations that end alike, in states beside one another. No nodes are lost, and those that were
there stay beside one another. -/
def Alike {α β : Type} (F : Footing) (σ : NodeId → NodeId)
    (R : (NodeId → NodeId) → Context → α → β → Prop) (m : Run α) (m' : Run β) (c c' : Context) : Prop :=
  c.graph.size ≤ (after m c).graph.size ∧
    ∃ τ, (∀ j : NodeId, j.index < c.graph.size → τ j = σ j) ∧ F.Beside τ (after m c) (after m' c') ∧
      Same (R τ (after m c)) (outcome m c) (outcome m' c')

section

variable {α β α' β' : Type} {F : Footing} {σ τ : NodeId → NodeId} {c c' c₁ c₁' : Context}
  {R : (NodeId → NodeId) → Context → α → α' → Prop} {R' : (NodeId → NodeId) → Context → β → β' → Prop}
  {d : Document} {q : Option NodeId} {P : NodeId → Prop}

/-! ### Sequences -/

theorem alike_of_ok {m : Run α} {m' : Run α'} {a : α} {a' : α'} (h : m c = .ok a c₁)
    (h' : m' c' = .ok a' c₁') (hsize : c.graph.size ≤ c₁.graph.size) (hbeside : F.Beside σ c₁ c₁')
    (hR : R σ c₁ a a') : F.Alike σ R m m' c c' := by
  rw [Alike, after_of_ok h, after_of_ok h', outcome_of_ok h, outcome_of_ok h']
  exact ⟨hsize, σ, fun _ _ => rfl, hbeside, .ok hR⟩

theorem alike_of_error {m : Run α} {m' : Run α'} {fault : Fault} (h : m c = .error fault c₁)
    (h' : m' c' = .error fault c₁') (hsize : c.graph.size ≤ c₁.graph.size) (hbeside : F.Beside σ c₁ c₁') :
    F.Alike σ R m m' c c' := by
  rw [Alike, after_of_error h, after_of_error h', outcome_of_error h, outcome_of_error h']
  exact ⟨hsize, σ, fun _ _ => rfl, hbeside, .error fault⟩

theorem alike_pure (h : F.Beside σ c c') {a : α} {a' : α'} (hR : R σ c a a') :
    F.Alike σ R (pure a) (pure a') c c' :=
  alike_of_ok rfl rfl le_rfl h hR

theorem alike_throw (h : F.Beside σ c c') (fault : Fault) :
    F.Alike σ R (throw fault) (throw fault) c c' :=
  alike_of_error rfl rfl le_rfl h

/-- Only what the computations do from these states matters. -/
theorem Alike.of_eq {m : Run α} {m' : Run α'} {m₁ : Run α} {m₁' : Run α'} (h : F.Alike τ R m₁ m₁' c₁ c₁')
    (he : m c = m₁ c₁) (he' : m' c' = m₁' c₁') (hsize : c.graph.size ≤ c₁.graph.size)
    (hτ : ∀ j : NodeId, j.index < c.graph.size → τ j = σ j) : F.Alike σ R m m' c c' := by
  obtain ⟨hsize₁, ρ, hρ, hbeside, hsame⟩ := h
  have hafter : after m c = after m₁ c₁ := by rw [after, he, after]
  have hafter' : after m' c' = after m₁' c₁' := by rw [after, he', after]
  rw [Alike, hafter, hafter', outcome, he, outcome, he']
  exact ⟨hsize.trans hsize₁, ρ, fun j hj => (hρ j (hj.trans_le hsize)).trans (hτ j hj), hbeside, hsame⟩

/-- Both computations end with a value, or both with the same fault. -/
theorem Alike.ends {m : Run α} {m' : Run α'} (h : F.Alike σ R m m' c c') :
    ∃ τ c₁ c₁', c.graph.size ≤ c₁.graph.size ∧ (∀ j : NodeId, j.index < c.graph.size → τ j = σ j) ∧
      F.Beside τ c₁ c₁' ∧ ((∃ a a', m c = .ok a c₁ ∧ m' c' = .ok a' c₁' ∧ R τ c₁ a a') ∨
        ∃ fault, m c = .error fault c₁ ∧ m' c' = .error fault c₁') := by
  obtain ⟨hsize, τ, hτ, hbeside, hsame⟩ := h
  refine ⟨τ, after m c, after m' c', hsize, hτ, hbeside, ?_⟩
  cases ho : outcome m c <;> cases ho' : outcome m' c' <;> rw [ho, ho'] at hsame <;> cases hsame
  · exact .inr ⟨_, eq_error_of_outcome ho, eq_error_of_outcome ho'⟩
  · next hR => exact .inl ⟨_, _, eq_ok_of_outcome ho, eq_ok_of_outcome ho', hR⟩

/-- Two sequences, of which the second parts are looked at from the states that the first ones end in. -/
theorem Alike.bind {m : Run α} {m' : Run α'} {f : α → Run β} {f' : α' → Run β'}
    (hm : F.Alike σ R m m' c c')
    (hf : ∀ τ a a' c₁ c₁', m c = .ok a c₁ → c.graph.size ≤ c₁.graph.size →
      (∀ j : NodeId, j.index < c.graph.size → τ j = σ j) → F.Beside τ c₁ c₁' → R τ c₁ a a' →
        F.Alike τ R' (f a) (f' a') c₁ c₁') :
    F.Alike σ R' (m >>= f) (m' >>= f') c c' := by
  obtain ⟨τ, c₁, c₁', hsize, hτ, hbeside, ⟨a, a', hrun, hrun', hR⟩ | ⟨fault, hrun, hrun'⟩⟩ := hm.ends
  · exact (hf τ a a' c₁ c₁' hrun hsize hτ hbeside hR).of_eq (bind_of_ok hrun) (bind_of_ok hrun') hsize hτ
  · exact (alike_throw hbeside fault).of_eq (bind_of_error hrun) (bind_of_error hrun') hsize hτ

/-- The same, where it is known what the first part of the first sequence does. -/
theorem Alike.works_bind {m : Run α} {m' : Run α'} {f : α → Run β} {f' : α' → Run β'}
    {Q : α → Context → Prop} (hm : F.Alike σ R m m' c c') (hw : Works d q P m c Q)
    (hf : ∀ τ a a' c₁ c₁', (∀ j : NodeId, j.index < c.graph.size → τ j = σ j) → c.Grows P c₁ →
      c₁.Sound d q → Q a c₁ → F.Beside τ c₁ c₁' → R τ c₁ a a' → F.Alike τ R' (f a) (f' a') c₁ c₁') :
    F.Alike σ R' (m >>= f) (m' >>= f') c c' :=
  hm.bind fun τ a a' c₁ c₁' hrun _ hτ hbeside hR => by
    have hgrows := hw.grows
    have hsound := hw.sound
    rw [after_of_ok hrun] at hgrows hsound
    have hQ := hw.ok a (outcome_of_ok hrun)
    rw [after_of_ok hrun] at hQ
    exact hf τ a a' c₁ c₁' hτ hgrows hsound hQ hbeside hR

theorem alike_node_bind {j j' : NodeId} {f : Node → Run β} {f' : Node → Run β'}
    (h : F.Alike σ R' (f (c.graph.node j)) (f' (c'.graph.node j')) c c') :
    F.Alike σ R' (Run.node j >>= f) (Run.node j' >>= f') c c' :=
  h.of_eq rfl rfl le_rfl fun _ _ => rfl

theorem alike_get_bind {f : Context → Run β} {f' : Context → Run β'}
    (h : F.Alike σ R' (f c) (f' c') c c') : F.Alike σ R' (get >>= f) (get >>= f') c c' := h

/-! ### Values -/

theorem same_refl (a : Attempt α) : Same (fun x y => x = y) a a := by
  cases a with
  | ok x => exact .ok rfl
  | error fault => exact .error fault

theorem same_map {f : α → α'} {Q : α → α' → Prop} (a : Attempt α) (h : ∀ x, Q x (f x)) :
    Same Q a (a.map f) := by
  cases a with
  | ok x => exact .ok (h x)
  | error fault => exact .error fault

/-- The same value first, such as a part of a document. -/
theorem alike_lift_bind (h : F.Beside σ c c') {a : Attempt α} {f : α → Run β} {f' : α → Run β'}
    (hf : ∀ x, a = .ok x → F.Alike σ R' (f x) (f' x) c c') :
    F.Alike σ R' (Run.lift a >>= f) (Run.lift a >>= f') c c' := by
  cases a with
  | ok x => exact (hf x rfl).of_eq rfl rfl le_rfl fun _ _ => rfl
  | error fault => exact alike_of_error rfl rfl le_rfl h

/-- Something is read off both graphs first. -/
theorem alike_onGraph_bind (h : F.Beside σ c c') {f : Graph → Attempt α} {f' : Graph → Attempt α'}
    {Q : α → α' → Prop} (hsame : Same Q (f c.graph) (f' c'.graph)) {m : α → Run β} {m' : α' → Run β'}
    (hm : ∀ a a', f c.graph = .ok a → Q a a' → F.Alike σ R' (m a) (m' a') c c') :
    F.Alike σ R' (Run.onGraph f >>= m) (Run.onGraph f' >>= m') c c' := by
  show F.Alike σ R' (fun c => (Run.lift (f c.graph) >>= m) c) (fun c => (Run.lift (f' c.graph) >>= m') c) c c'
  cases ho : f c.graph <;> cases ho' : f' c'.graph <;> rw [ho, ho'] at hsame <;> cases hsame
  · exact alike_of_error (by rw [ho]; rfl) (by rw [ho']; rfl) le_rfl h
  · next hQ => exact (hm _ _ ho hQ).of_eq (by rw [ho]; rfl) (by rw [ho']; rfl) le_rfl fun _ _ => rfl

/-! ### Saying -/

theorem Beside.say (h : F.Beside σ c c') {t t' : Transcript}
    (htold : Transcript.Echoes F.told σ c.graph.size t t') :
    F.Beside σ { c with transcript := t } { c' with transcript := t' } :=
  ⟨h.graph, h.types, h.stack, h.depth, h.stack', h.depth', h.oracle, htold⟩

/-- Something is told first. -/
theorem alike_say_bind {e e' : Event} {f : Unit → Run β} {f' : Unit → Run β'}
    (h : F.Alike σ R' (f ()) (f' ()) { c with transcript := e :: c.transcript }
      { c' with transcript := e' :: c'.transcript }) :
    F.Alike σ R' (Run.say e >>= f) (Run.say e' >>= f') c c' :=
  h.of_eq rfl rfl le_rfl fun _ _ => rfl

/-- Something is logged first. -/
theorem alike_log_bind {level : Level} {channel : Channel} {text text' : String} {f : Unit → Run β}
    {f' : Unit → Run β'} (h : F.Beside σ c c')
    (hf : ∀ c₁ c₁' : Context, c.Still c₁ → c'.Still c₁' → F.Beside σ c₁ c₁' →
      F.Alike σ R' (f ()) (f' ()) c₁ c₁') :
    F.Alike σ R' (Run.log level channel text >>= f) (Run.log level channel text' >>= f') c c' :=
  (hf _ _ (Run.idle_log level channel text c) (Run.idle_log level channel text' c')
    (h.say (.aside rfl (.aside' rfl h.told)))).of_eq rfl rfl le_rfl fun _ _ => rfl

theorem alike_trace_bind {tag text text' : String} {f : Unit → Run β} {f' : Unit → Run β'}
    (h : F.Beside σ c c')
    (hf : ∀ c₁ c₁' : Context, c.Still c₁ → c'.Still c₁' → F.Beside σ c₁ c₁' →
      F.Alike σ R' (f ()) (f' ()) c₁ c₁') :
    F.Alike σ R' (Run.trace tag text >>= f) (Run.trace tag text' >>= f') c c' :=
  alike_log_bind h hf

theorem alike_log (h : F.Beside σ c c') (level : Level) (channel : Channel) (text text' : String) :
    F.Alike σ (fun _ _ _ _ => True) (Run.log level channel text) (Run.log level channel text') c c' :=
  alike_of_ok rfl rfl le_rfl (h.say (.aside rfl (.aside' rfl h.told))) trivial

theorem alike_trace (h : F.Beside σ c c') (tag text text' : String) :
    F.Alike σ (fun _ _ _ _ => True) (Run.trace tag text) (Run.trace tag text') c c' :=
  alike_log h _ _ _ _

/-- The same question is put first. -/
theorem alike_ask_bind (h : F.Beside σ c c') {question : Question} {f : Answer → Run β} {f' : Answer → Run β'}
    (hf : ∀ a (c₁ c₁' : Context), c.Still c₁ → F.Beside σ c₁ c₁' → F.Alike σ R' (f a) (f' a) c₁ c₁') :
    F.Alike σ R' (Run.ask question >>= f) (Run.ask question >>= f') c c' := by
  have hevents : ∀ e ∈ (c.oracle.respond question).events.reverse, e.isPlain = true := fun e he =>
    Oracle.isPlain_of_mem_events (List.mem_reverse.1 he)
  have htold := Transcript.Echoes.append (.plain (e := .asked question) rfl h.told) hevents
  have hstill := Run.idle_ask question c
  cases hr : (c.oracle.respond question).result with
  | ok a =>
    have hr' := hr
    rw [← h.oracle] at hr'
    rw [after_of_ok (Run.ask_eq_ok hr)] at hstill
    refine (hf a _ _ hstill ?_).of_eq (bind_of_ok (Run.ask_eq_ok hr)) (bind_of_ok (Run.ask_eq_ok hr')) le_rfl
      fun _ _ => rfl
    rw [h.oracle]
    exact ⟨h.graph, h.types, h.stack, h.depth, h.stack', h.depth', rfl, .plain rfl htold⟩
  | error fault =>
    have hr' := hr
    rw [← h.oracle] at hr'
    refine alike_of_error (bind_of_error (Run.ask_eq_error hr)) (bind_of_error (Run.ask_eq_error hr')) le_rfl ?_
    rw [h.oracle]
    exact ⟨h.graph, h.types, h.stack, h.depth, h.stack', h.depth', rfl, htold⟩

/-! ### Changes of the graph -/

theorem Beside.setGraph (h : F.Beside σ c c') {g g' : Graph}
    (hgraph : Graph.Beside F.query F.odd F.spare σ g g') (hsize : c.graph.size ≤ g.size) :
    F.Beside σ { c with graph := g } { c' with graph := g' } :=
  ⟨hgraph, h.types, h.stack, h.depth, h.stack', h.depth', h.oracle, h.told.mono hsize fun _ _ => rfl⟩

theorem alike_update (h : F.Beside σ c c') {j : NodeId} {f f' : Node → Node}
    (hgraph : Graph.Beside F.query F.odd F.spare σ (c.graph.update j f) (c'.graph.update (σ j) f')) :
    F.Alike σ (fun _ _ _ _ => True) (Run.update j f) (Run.update (σ j) f') c c' :=
  have hsize := (Graph.size_update c.graph j f).ge
  alike_of_ok rfl rfl hsize (h.setGraph hgraph hsize) trivial

/-- A node is changed first. -/
theorem alike_update_bind (h : F.Beside σ c c') {j : NodeId} {f f' : Node → Node}
    (hgraph : Graph.Beside F.query F.odd F.spare σ (c.graph.update j f) (c'.graph.update (σ j) f'))
    {m : Unit → Run β} {m' : Unit → Run β'}
    (hm : F.Beside σ { c with graph := c.graph.update j f } { c' with graph := c'.graph.update (σ j) f' } →
      F.Alike σ R' (m ()) (m' ()) { c with graph := c.graph.update j f }
        { c' with graph := c'.graph.update (σ j) f' }) :
    F.Alike σ R' (Run.update j f >>= m) (Run.update (σ j) f' >>= m') c c' :=
  have hsize := (Graph.size_update c.graph j f).ge
  (hm (h.setGraph hgraph hsize)).of_eq rfl rfl hsize fun _ _ => rfl

/-- A node is made for the same schema. -/
theorem alike_fromSchema (h : F.Beside σ c c') {p p' : Option NodeId} (schema : Json)
    (hp : ∀ k, p = some k → k.index < c.graph.size) (hrises : c'.graph.Rises σ p' (p.map σ)) :
    F.Alike σ (fun τ _ x y => y = τ x) (Build.fromSchema p schema) (Build.fromSchema p' schema) c c' := by
  have howner := h.graph.owner hp hrises
  cases hread : Schema.read (c.graph.owner p) schema with
  | error fault =>
    have hread' := hread
    rw [← howner] at hread'
    exact alike_of_error (fromSchema_of_read_eq_error hread) (fromSchema_of_read_eq_error hread') le_rfl h
  | ok declared =>
    have hread' := hread
    rw [← howner] at hread'
    obtain ⟨hgraph, hj⟩ := h.graph.plant hp hrises declared
    have hplanted := (Graph.planted_plant p c.graph declared).1
    have hlt := hplanted.sprout.lt_size
    have hindex := hplanted.index
    have hsize : c.graph.size ≤ (c.graph.plant p declared).2.size := by omega
    refine alike_of_ok (fromSchema_of_read_eq_ok hread) (fromSchema_of_read_eq_ok hread') hsize ?_ hj
    refine (h.setGraph hgraph hsize).say ?_
    rw [hj]
    exact .planted _ _ _ hlt (h.told.mono hsize fun _ _ => rfl)

/-- A choice between the same shapes is made. -/
theorem alike_fromUnion (h : F.Beside σ c c') {p : NodeId} (members : Json)
    (hp : p.index < c.graph.size) :
    F.Alike σ (fun τ _ x y => y = τ x) (Build.fromUnion (some p) members)
      (Build.fromUnion (some (σ p)) members) c c' := by
  refine alike_lift_bind h fun shapes _ => ?_
  have hlt : ∀ k, some p = some k → k.index < c.graph.size := by
    rintro _ ⟨⟩
    exact hp
  obtain ⟨hgraph, hj⟩ := h.graph.alloc_of_body (.union shapes) .null rfl hlt (.refl (some (σ p)))
  have hsize := (Nat.le_succ _).trans (Graph.size_alloc c.graph { body := .union shapes, parent := some p }).ge
  exact alike_of_ok rfl rfl hsize (h.setGraph hgraph hsize) hj

/-! ### The store -/

theorem Beside.get?_types (h : F.Beside σ c c') (key : Key) :
    (get? key c'.types).join = (get? key c.types).join.map σ := by
  rw [h.types, get?_mapValues]
  cases get? key c.types <;> rfl

theorem Beside.stored? (h : F.Beside σ c c') (ref : Json) : c'.stored? ref = (c.stored? ref).map σ := by
  rw [Context.stored?, Context.stored?]
  cases ref.key? with
  | none => rfl
  | some key => exact h.get?_types key

theorem alike_stored?_bind (h : F.Beside σ c c') {ref : Json} {f : Option NodeId → Run β}
    {f' : Option NodeId → Run β'}
    (hf : F.Alike σ R' (f (c.stored? ref)) (f' ((c.stored? ref).map σ)) c c') :
    F.Alike σ R' (Run.stored? ref >>= f) (Run.stored? ref >>= f') c c' := by
  cases hkey : ref.key? with
  | none =>
    have hnone : ∀ c : Context, Run.stored? ref c = .error .malformed c := fun c => by
      rw [Run.stored?, Run.keyOf, hkey]
      rfl
    exact alike_of_error (bind_of_error (hnone c)) (bind_of_error (hnone c')) le_rfl h
  | some key =>
    rw [← h.stored?] at hf
    exact hf.of_eq (bind_of_ok (stored?_of_key hkey)) (bind_of_ok (stored?_of_key hkey)) le_rfl
      fun _ _ => rfl

/-- A node is stored under the same name. -/
theorem alike_store (h : F.Beside σ c c') (name : Json) (j : NodeId) :
    F.Alike σ (fun τ _ x y => y = τ x) (Run.store name j) (Run.store name (σ j)) c c' := by
  refine alike_trace_bind h fun c₁ c₁' _ _ h₁ => alike_lift_bind h₁ fun key _ => alike_get_bind ?_
  rw [h₁.get?_types key]
  cases (get? key c₁.types).join with
  | none =>
    refine alike_of_ok rfl rfl le_rfl ?_ rfl
    refine ⟨h₁.graph, ?_, h₁.stack, h₁.depth, h₁.stack', h₁.depth', h₁.oracle, h₁.told⟩
    dsimp only
    rw [h₁.types, ← insert_mapValues]
    rfl
  | some existing =>
    have hne : σ existing ≠ σ j ↔ existing ≠ j := h.graph.injective.ne_iff
    simp only [Option.map_some]
    by_cases he : existing = j
    · rw [if_neg (not_not.2 he), if_neg (not_not.2 (congrArg σ he))]
      exact alike_pure h₁ rfl
    · rw [if_pos he, if_pos (hne.2 he)]
      exact alike_of_ok rfl rfl le_rfl (h₁.say (.aside rfl (.aside' rfl h₁.told))) rfl

/-! ### Properties -/

/-- Some properties are bound under their names. -/
theorem alike_putEach (h : F.Beside σ c c') (j : NodeId) {props : List NodeId}
    (hprops : ∀ prop ∈ props, ∃ s, (c.graph.node prop).name = .str s) :
    F.Alike σ (fun _ _ _ _ => True) (props.forM (Run.put j)) ((props.map σ).forM (Run.put (σ j))) c c' := by
  induction props generalizing c c' with
  | nil => exact alike_pure h trivial
  | cons prop rest ih =>
    obtain ⟨⟨s, hname⟩, hrest⟩ := List.forall_mem_cons.1 hprops
    have hkey : (c.graph.node prop).name.key? = some (.text s) := by rw [hname]; rfl
    have hkey' : (c'.graph.node (σ prop)).name.key? = some (.text s) := by
      rw [(h.graph.twins prop).name]
      exact hkey
    have hsize := (Graph.size_update c.graph j fun n => n.putProperty (.text s) prop).ge
    refine (ih (h.setGraph (h.graph.put ⟨s, rfl, hname⟩) hsize) fun prop' hprop' => ?_).of_eq
      (bind_of_ok (put_of_key_eq_some hkey j)) (bind_of_ok (put_of_key_eq_some hkey' (σ j))) hsize
      fun _ _ => rfl
    obtain ⟨s', hname'⟩ := hrest prop' hprop'
    refine ⟨s', ?_⟩
    rw [Graph.node_update_eq]
    split
    · next he => rw [Node.name_putProperty, ← he.1, hname']
    · exact hname'

/-! ### Going into nodes -/

/-- Where two runs are when each has gone into a node. -/
def enter (F : Footing) (j j' : Option NodeId) (composed : Bool) : Footing :=
  { F with
    stack := j :: F.stack
    depth := if composed then F.depth + 1 else F.depth
    stack' := j' :: F.stack'
    depth' := if composed then F.depth' + 1 else F.depth' }

theorem Beside.enter (h : F.Beside σ c c') (j : NodeId) :
    (F.enter (some j) (some (σ j)) (c.graph.node j).body.isComposed).Beside σ (c.enter (some j))
      (c'.enter (some (σ j))) := by
  have hcomposed : c'.isComposition (some (σ j)) = (c.graph.node j).body.isComposed :=
    (h.graph.twins j).isComposed
  refine ⟨h.graph, h.types, ?_, ?_, ?_, ?_, h.oracle, .aside rfl (.aside' rfl h.told)⟩
  · rw [stack_enter, h.stack]
    rfl
  · show (if c.isComposition (some j) then c.composeDepth + 1 else c.composeDepth) = _
    rw [h.depth]
    rfl
  · rw [stack_enter, h.stack']
    rfl
  · show (if c'.isComposition (some (σ j)) then c'.composeDepth + 1 else c'.composeDepth) = _
    rw [h.depth', hcomposed]
    rfl

theorem Beside.leave {j j' : NodeId} {composed : Bool}
    (h : (F.enter (some j) (some j') composed).Beside σ c c')
    (hj : (c.graph.node j).body.isComposed = composed)
    (hj' : (c'.graph.node j').body.isComposed = composed) : F.Beside σ c.leave c'.leave := by
  have hstack : c.stack = some j :: F.stack := h.stack
  have hstack' : c'.stack = some j' :: F.stack' := h.stack'
  rw [leave_of_stack hstack, leave_of_stack hstack']
  refine ⟨h.graph, h.types, rfl, ?_, rfl, ?_, h.oracle, .aside rfl (.aside' rfl h.told)⟩
  · show (if (c.graph.node j).body.isComposed then c.composeDepth - 1 else c.composeDepth) = F.depth
    rw [h.depth, hj]
    cases composed <;> rfl
  · show (if (c'.graph.node j').body.isComposed then c'.composeDepth - 1 else c'.composeDepth) = F.depth'
    rw [h.depth', hj']
    cases composed <;> rfl

/-- What is done inside a node that stays what it is. -/
theorem alike_within {j : NodeId} {m : Run α} {m' : Run α'} (hj : j.index < c.graph.size)
    (h : (F.enter (some j) (some (σ j)) (c.graph.node j).body.isComposed).Alike σ R m m'
      (c.enter (some j)) (c'.enter (some (σ j))))
    (hkept : (c.graph.node j).Kept ((after m (c.enter (some j))).graph.node j)) :
    F.Alike σ (fun _ _ _ _ => True) (Run.within j m) (Run.within (σ j) m') c c' := by
  obtain ⟨hsize, τ, hτ, hbeside, hsame⟩ := h
  have htwin := hbeside.graph.twins j
  rw [hτ j hj] at htwin
  rw [Alike, after_within, after_within, outcome_within, outcome_within, (still_leave _).graph]
  exact ⟨hsize, τ, hτ, hbeside.leave hkept.isComposed (htwin.isComposed.trans hkept.isComposed),
    hsame.mono fun _ _ _ => trivial⟩

end

end Footing

end ApiGraph
