import ApiGraph.Proofs.Visiting.Growth

/-!
# Steps of a visit

What each step of a run does to the state it starts from.

* `Works` — a step from a sound state grows it to a sound state, and when it succeeds something holds
  of the value and the new state;
* `Works.bind` — so do two steps, one after the other;
* `Idle` — steps that change neither graph nor store, whatever the oracle says;
* `works_update`, `works_fromSchema`, `works_bindReference`, `works_within` — the others.
-/

namespace ApiGraph

open OrderedMap Context

/-- A step grows a state to a sound one, which has pursued all references if it had and the step
succeeds. -/
structure Works {α : Type} (d : Document) (q : Option NodeId) (P : NodeId → Prop) (m : Run α)
    (c : Context) (R : α → Context → Prop) : Prop where
  grows : c.Grows P (after m c)
  sound : (after m c).Sound d q
  pursued : ∀ a, outcome m c = .ok a → c.Pursued → (after m c).Pursued
  ok : ∀ a, outcome m c = .ok a → R a (after m c)

/-- A step that changes neither graph nor store. -/
def Idle {α : Type} (m : Run α) : Prop := ∀ c : Context, c.Still (after m c)

section

variable {α β : Type} {d : Document} {q : Option NodeId} {P P' : NodeId → Prop} {c c' : Context}

theorem Works.mono {m : Run α} {R R' : α → Context → Prop} (h : Works d q P m c R)
    (hP : ∀ j, P' j → P j) (hR : ∀ a c', R a c' → R' a c') : Works d q P' m c R' :=
  ⟨h.grows.mono hP, h.sound, h.pursued, fun a ha => hR a _ (h.ok a ha)⟩

/-- Two steps, the second from the state that the first one ends in. -/
theorem Works.bind {m : Run α} {f : α → Run β} {R : α → Context → Prop} {R' : β → Context → Prop}
    (hm : Works d q P m c R)
    (hf : ∀ a c', c.Grows P c' → c'.Sound d q → R a c' → Works d q P (f a) c' R') :
    Works d q P (m >>= f) c R' := by
  cases hmc : outcome m c with
  | ok a =>
    have hnext := hf a (after m c) hm.grows hm.sound (hm.ok a hmc)
    refine ⟨?_, ?_, fun b hb hp => ?_, fun b hb => ?_⟩
    · rw [after_bind_of_ok hmc]
      exact hm.grows.trans hnext.grows
    · rw [after_bind_of_ok hmc]
      exact hnext.sound
    · rw [outcome_bind_of_ok hmc] at hb
      rw [after_bind_of_ok hmc]
      exact hnext.pursued b hb (hm.pursued a hmc hp)
    · rw [outcome_bind_of_ok hmc] at hb
      rw [after_bind_of_ok hmc]
      exact hnext.ok b hb
  | error fault =>
    refine ⟨?_, ?_, fun b hb => ?_, fun b hb => ?_⟩
    · rw [after_bind_of_error hmc]
      exact hm.grows
    · rw [after_bind_of_error hmc]
      exact hm.sound
    · rw [outcome_bind_of_error hmc] at hb
      cases hb
    · rw [outcome_bind_of_error hmc] at hb
      cases hb

/-! ## Idle steps -/

theorem idle_pure (a : α) : Idle (pure a : Run α) := Still.refl

theorem idle_throw (fault : Fault) : Idle (throw fault : Run α) := Still.refl

theorem Idle.bind {m : Run α} {f : α → Run β} (hm : Idle m) (hf : ∀ a, Idle (f a)) :
    Idle (m >>= f) := by
  intro c
  cases hmc : outcome m c with
  | ok a =>
    rw [after_bind_of_ok hmc]
    exact (hm c).trans (hf a _)
  | error fault =>
    rw [after_bind_of_error hmc]
    exact hm c

theorem idle_get_bind {f : Context → Run α} (hf : ∀ c, Idle (f c)) : Idle (get >>= f) :=
  fun c => hf c c

theorem Idle.works {m : Run α} (h : Idle m) (hs : c.Sound d q) :
    Works d q P m c fun _ c' => c.Still c' :=
  ⟨(h c).grows, (h c).sound hs, fun _ _ => (h c).pursued, fun _ _ => h c⟩

/-- An idle step first. -/
theorem Idle.works_bind {m : Run α} {f : α → Run β} {R : β → Context → Prop} (hm : Idle m)
    (hs : c.Sound d q)
    (hf : ∀ a c', outcome m c = .ok a → c.Still c' → c'.Sound d q → Works d q P (f a) c' R) :
    Works d q P (m >>= f) c R := by
  have hstill := hm c
  refine Works.bind (R := fun a c' => outcome m c = .ok a ∧ c.Still c')
    ⟨hstill.grows, hstill.sound hs, fun _ _ => hstill.pursued, fun a ha => ⟨ha, hstill⟩⟩ ?_
  exact fun a c' _ hs' h => hf a c' h.1 h.2 hs'

theorem works_get_bind {f : Context → Run β} {R : β → Context → Prop}
    (h : Works d q P (f c) c R) : Works d q P (get >>= f) c R :=
  ⟨h.grows, h.sound, h.pursued, h.ok⟩

theorem works_pure {a : α} {R : α → Context → Prop} (hs : c.Sound d q) (h : R a c) :
    Works d q P (pure a) c R :=
  ⟨(Still.refl c).grows, hs, fun _ _ hp => hp, fun b hb => by cases hb; exact h⟩

theorem works_throw {fault : Fault} {R : α → Context → Prop} (hs : c.Sound d q) :
    Works d q P (throw fault) c R :=
  ⟨(Still.refl c).grows, hs, nofun, nofun⟩

/-- What an oracle says is idle. -/
theorem Oracle.idle_events (question : Question) (o : Oracle) :
    ∀ e ∈ (o.respond question).events, e.Idle := by
  intro e he
  obtain ⟨text, rfl⟩ | ⟨text, rfl⟩ := shown_or_logged he <;> exact ⟨rfl, rfl, rfl, rfl⟩

namespace Run

theorem idle_lift (a : Attempt α) : Idle (lift a) := by
  cases a with
  | ok a => exact idle_pure a
  | error fault => exact idle_throw fault

theorem outcome_lift (a : Attempt α) : outcome (lift a) c = a := by
  cases a <;> rfl

theorem idle_onGraph (f : Graph → Attempt α) : Idle (onGraph f) :=
  idle_get_bind fun _ => idle_lift _

theorem outcome_onGraph (f : Graph → Attempt α) : outcome (onGraph f) c = f c.graph :=
  outcome_lift (f c.graph)

theorem idle_node (i : NodeId) : Idle (node i) := idle_get_bind fun _ => idle_pure _

theorem idle_say {e : Event} (h : e.Idle) : Idle (say e) := fun _ =>
  ⟨rfl, rfl, [e], rfl, fun _ he' => List.mem_singleton.1 he' ▸ h⟩

theorem idle_log (level : Level) (channel : Channel) (text : String) :
    Idle (log level channel text) :=
  idle_say ⟨rfl, rfl, rfl, rfl⟩

theorem idle_trace (tag text : String) : Idle (trace tag text) :=
  idle_get_bind fun _ => idle_log _ _ _

theorem idle_ask (question : Question) : Idle (ask question) := by
  refine (idle_say ⟨rfl, rfl, rfl, rfl⟩).bind fun _ => idle_get_bind fun c => ?_
  refine Idle.bind (fun c' => ⟨rfl, rfl, _, rfl, fun e he => ?_⟩) fun _ =>
    (idle_lift _).bind fun _ => (idle_say ⟨rfl, rfl, rfl, rfl⟩).bind fun _ => idle_pure _
  exact Oracle.idle_events question c.oracle e (List.mem_reverse.1 he)

theorem idle_askYesNo (text : String) : Idle (askYesNo text) :=
  (idle_ask _).bind fun _ => idle_pure _

theorem idle_keyOf (name : Json) : Idle (keyOf name) := idle_lift _

theorem idle_warnTaken (name : Json) (ignored : Option NodeId) : Idle (warnTaken name ignored) :=
  idle_get_bind fun _ => idle_log _ _ _

end Run

/-! ## Changes of the graph -/

namespace Context

theorem Grows.setGraph {g : Graph} (hsize : c.graph.size ≤ g.size)
    (hspared : ∀ j, P j → g.node j = c.graph.node j)
    (hkept : ∀ j, j.index < c.graph.size → (c.graph.node j).Kept (g.node j))
    (hclosed : g.ClosedFrom c.graph.size) : c.Grows P { c with graph := g } :=
  ⟨hsize, fun j hj => ⟨hspared j hj, id⟩, hkept, List.prefix_refl _, id, List.suffix_refl _, hclosed⟩

theorem Sound.setGraph {g : Graph} (hs : c.Sound d q) (hsize : c.graph.size ≤ g.size)
    (hkept : ∀ j, j.index < c.graph.size → (c.graph.node j).Kept (g.node j))
    (hlinked : ∀ j link t, j.index < c.graph.size → (g.node j).body.link? = some link →
      link.target = some t → c.stored? link.ref = some t)
    (hnew : ∀ j, c.graph.size ≤ j.index → (g.node j).target? = none ∧
      ((g.node j).slot? = none → (g.node j).name.isNull = true)) :
    ({ c with graph := g } : Context).Sound d q where
  types_eq := hs.types_eq
  distinct := hs.distinct
  built ref i h := by
    obtain ⟨htext, hlt, hq, hname, hslot, halias⟩ := hs.built ref i h
    have hi := hkept i hlt
    refine ⟨htext, hlt.trans_le hsize, hq, hi.name.trans hname, hi.slot?.trans hslot,
      fun link hlink => ?_⟩
    obtain ⟨link', hlink', href⟩ := hi.ref hlink
    rw [← href]
    exact halias link' hlink'
  linked i link t hlink ht := by
    by_cases hi : i.index < c.graph.size
    · exact hlinked i link t hi hlink ht
    · have htarget := (hnew i (Nat.not_lt.1 hi)).1
      simp only [Node.target?] at htarget
      simp only at hlink
      rw [hlink, Option.bind_some, ht] at htarget
      cases htarget
  named i hq hslot hname := by
    by_cases hi : i.index < c.graph.size
    · have hk := hkept i hi
      simp only at hslot hname ⊢
      rw [hk.slot?] at hslot
      rw [hk.name] at hname ⊢
      exact hs.named i hq hslot hname
    · rw [(hnew i (Nat.not_lt.1 hi)).2 hslot] at hname
      cases hname
  entered_lt i hi := (hs.entered_lt i hi).trans_le hsize
  once := hs.once
  handmade i hi := by
    obtain ⟨hlt, hbody⟩ := hs.handmade i hi
    refine ⟨hlt.trans_le hsize, ?_⟩
    have hunlinked := (hkept i hlt).body
    rw [hbody] at hunlinked
    simp only
    rcases hn : (g.node i).body with _ | _ | _ | _ | _ | _ | _ | ⟨_, _, _ | _⟩ | _ <;>
      rw [hn] at hunlinked <;> first | rfl | cases hunlinked

end Context

/-- A change of a node that is not protected, by which it stays what it is. -/
theorem works_update {i : NodeId} {f : Node → Node} (hs : c.Sound d q)
    (hlt : i.index < c.graph.size) (hP : ¬P i) (hkept : (c.graph.node i).Kept (f (c.graph.node i)))
    (hlinked : ∀ link t, (f (c.graph.node i)).body.link? = some link → link.target = some t →
      c.stored? link.ref = some t) :
    Works d q P (Run.update i f) c fun _ c' => c' = { c with graph := c.graph.update i f } := by
  have hself := Graph.node_update_self c.graph hlt f
  have hother : ∀ j, j ≠ i → (c.graph.update i f).node j = c.graph.node j := fun j hj =>
    Graph.node_update_of_ne c.graph hj f
  have hsize := Graph.size_update c.graph i f
  have hkept' : ∀ j, j.index < c.graph.size →
      (c.graph.node j).Kept ((c.graph.update i f).node j) := by
    intro j _
    by_cases hj : j = i
    · rw [hj, hself]
      exact hkept
    · rw [hother j hj]
      exact Node.Kept.refl _
  refine ⟨Grows.setGraph hsize.ge (fun j hj => hother j ?_) hkept' (Graph.closedFrom_of_size_le hsize.le),
    hs.setGraph hsize.ge hkept' (fun j link t _ hlink ht => ?_) fun j hj => ?_,
    fun _ _ hp => ⟨hp.stored, hp.lookups⟩, fun _ _ => rfl⟩
  · rintro rfl
    exact hP hj
  · by_cases hj : j = i
    · rw [hj, hself] at hlink
      exact hlinked link t hlink ht
    · rw [hother j hj] at hlink
      exact hs.linked j link t hlink ht
  · rw [hother j (by rintro rfl; exact absurd hlt (Nat.not_lt.2 hj))]
    exact (Graph.loose_of_size_le hj).unlinked

/-- A node whose name is no key is bound nowhere. -/
theorem put_of_key_eq_none {prop : NodeId} (h : (c.graph.node prop).name.key? = none)
    (i : NodeId) : Run.put i prop c = .error .malformed c := by
  show (Run.keyOf (c.graph.node prop).name >>= fun key =>
    Run.update i fun n => n.putProperty key prop : Run Unit) c = _
  rw [Run.keyOf, h]
  rfl

/-- A node is bound under its name. -/
theorem put_of_key_eq_some {prop : NodeId} {key : Key}
    (h : (c.graph.node prop).name.key? = some key) (i : NodeId) :
    Run.put i prop c = .ok ()
      { c with graph := c.graph.update i fun n => n.putProperty key prop } := by
  show (Run.keyOf (c.graph.node prop).name >>= fun key =>
    Run.update i fun n => n.putProperty key prop : Run Unit) c = _
  rw [Run.keyOf, h]
  rfl

/-! ## Building -/

theorem Schema.scalar_of_scalarOf {owner : String} {type : Json} {schema : Schema}
    (h : scalarOf owner type = .ok schema) : ∃ primitive, schema = .scalar primitive := by
  unfold scalarOf at h
  repeat' split at h
  all_goals cases h
  all_goals exact ⟨_, rfl⟩

/-- A declaration without parts is a reference, a composition or a single value. -/
theorem Schema.Form.leaf_cases {owner : String} {members : Json.Members} {schema : Schema}
    (h : Form.ofMembers owner members = .ok (.leaf schema)) :
    (∃ target, schema = .ref target ∧ get? "$ref" members = some target) ∨
    (∃ kind parts, schema = .composed kind parts ∧
      get? kind.word members = some parts) ∨
    ∃ primitive, schema = .scalar primitive := by
  unfold Form.ofMembers at h
  split at h
  · next target hget =>
    cases h
    exact .inl ⟨target, rfl, hget⟩
  · split at h
    · next parts hget =>
      cases h
      exact .inr (.inl ⟨.allOf, parts, rfl, hget⟩)
    · next parts _ hget =>
      cases h
      exact .inr (.inl ⟨.oneOf, parts, rfl, hget⟩)
    · split at h
      · cases h
      · cases htype : effectiveType owner members with
        | error fault => rw [htype] at h; cases h
        | ok type =>
          rw [htype] at h
          change ite _ _ _ = _ at h
          split at h
          · cases h
          · split at h
            · cases hnames : requiredNames (Document.field "required" members) with
              | error fault => rw [hnames] at h; cases h
              | ok names => rw [hnames] at h; cases h
            · cases hscalar : scalarOf owner type with
              | error fault => rw [hscalar] at h; cases h
              | ok schema' =>
                rw [hscalar] at h
                cases h
                exact .inr (.inr (scalar_of_scalarOf hscalar))

/-- Only an object with a reference is read as one. -/
theorem Schema.get?_of_read_eq_ref {owner : String} {v target : Json}
    (h : read owner v = .ok (.ref target)) : v.get? "$ref" = some target := by
  cases v with
  | obj members =>
    rw [read] at h
    cases hform : Form.ofMembers owner members with
    | error fault => rw [hform] at h; cases h
    | ok form =>
      rw [hform] at h
      cases form with
      | leaf schema =>
        obtain rfl : schema = .ref target := Except.ok.inj h
        rcases Form.leaf_cases hform with ⟨_, ⟨⟩, hget⟩ | ⟨_, _, ⟨⟩, -⟩ | ⟨_, ⟨⟩⟩
        exact hget
      | array => cases hi : readItems owner members <;> simp [hi, Except.map] at h
      | object required =>
        cases hp : readProperties required members <;> simp [hp, Except.map] at h
  | _ => simp [read] at h

/-- A node was made for a schema under a parent, and nothing else has happened. -/
structure Sprouted (c : Context) (parent : Option NodeId) (schema : Json) (i : NodeId)
    (c' : Context) : Prop where
  grown : ∃ owner s, Schema.read owner schema = .ok s ∧ c.graph.plant parent s = (i, c'.graph)
  still : ({ c with graph := c'.graph } : Context).Still c'
  told : .planted parent schema i ∈ c'.transcript

namespace Sprouted

variable {parent : Option NodeId} {schema : Json} {i : NodeId}

theorem planted (h : Sprouted c parent schema i c') : Planted c.graph c'.graph i := by
  obtain ⟨owner, s, -, hplant⟩ := h.grown
  have hplanted := (Graph.planted_plant parent c.graph s).1
  rw [hplant] at hplanted
  exact hplanted

theorem name (h : Sprouted c parent schema i c') : (c'.graph.node i).name = .null := by
  obtain ⟨owner, s, -, hplant⟩ := h.grown
  have hname := (Graph.planted_plant parent c.graph s).2.1
  rw [hplant] at hname
  exact hname

theorem owns {owner : NodeId} (h : Sprouted c (some owner) schema i c') : c'.graph.Owns owner i := by
  obtain ⟨words, s, -, hplant⟩ := h.grown
  have hown := Graph.owns_plant c.graph owner s
  rw [hplant] at hown
  exact hown

theorem slot? (h : Sprouted c parent schema i c') : (c'.graph.node i).slot? = none := by
  obtain ⟨owner, s, -, hplant⟩ := h.grown
  have hslot := (Graph.planted_plant parent c.graph s).2.2.2.1
  rw [hplant] at hslot
  exact hslot

theorem reference (h : Sprouted c parent schema i c') {link : Link}
    (hbody : (c'.graph.node i).body = .ref link) : schema.get? "$ref" = some link.ref := by
  obtain ⟨owner, s, hread, hplant⟩ := h.grown
  have hlink := (Graph.planted_plant parent c.graph s).2.2.2.2
  rw [hplant] at hlink
  rw [hlink link hbody] at hread
  exact Schema.get?_of_read_eq_ref hread

theorem entered (h : Sprouted c parent schema i c') : c'.entered = c.entered := h.still.entered

theorem budding (h : Sprouted c parent schema i c') (hs : c.Sound d q) :
    c'.Budding i c'.graph.size := by
  refine ⟨h.planted.sprout, fun j hj _ hmem => ?_⟩
  rw [h.entered] at hmem
  have := hs.entered_lt j hmem
  have := h.planted.index
  omega

theorem size_lt (h : Sprouted c parent schema i c') : c.graph.size < c'.graph.size := by
  have := h.planted.sprout.inside
  have := h.planted.index
  omega

theorem kept (h : Sprouted c parent schema i c') (j : NodeId) (hj : j.index < c.graph.size) :
    (c.graph.node j).Kept (c'.graph.node j) := by
  rw [h.planted.node_eq j hj]
  exact Node.Kept.refl _

theorem grows (h : Sprouted c parent schema i c') : c.Grows c.Old c' :=
  (Grows.setGraph h.size_lt.le (fun j hj => h.planted.node_eq j hj) h.kept h.planted.closed).trans
    h.still.grows

theorem sound (h : Sprouted c parent schema i c') (hs : c.Sound d q) : c'.Sound d q := by
  refine h.still.sound (hs.setGraph h.size_lt.le h.kept (fun j link t hj hlink ht => ?_)
    fun j hj => (h.planted.loose j hj).unlinked)
  rw [h.planted.node_eq j hj] at hlink
  exact hs.linked j link t hlink ht

end Sprouted

theorem fromSchema_of_read_eq_ok {parent : Option NodeId} {schema : Json} {declared : Schema}
    (h : Schema.read (c.graph.owner parent) schema = .ok declared) :
    Build.fromSchema parent schema c = .ok (c.graph.plant parent declared).1
      { c with
        graph := (c.graph.plant parent declared).2
        transcript :=
          .planted parent schema (c.graph.plant parent declared).1 :: c.transcript } := by
  show (Run.lift (Schema.read (c.graph.owner parent) schema) >>= fun declared => do
    let i ← Run.plant parent declared
    Run.say (.planted parent schema i)
    return i : Run NodeId) c = _
  rw [h]
  rfl

theorem fromSchema_of_read_eq_error {parent : Option NodeId} {schema : Json} {fault : Fault}
    (h : Schema.read (c.graph.owner parent) schema = .error fault) :
    Build.fromSchema parent schema c = .error fault c := by
  show (Run.lift (Schema.read (c.graph.owner parent) schema) >>= fun declared => do
    let i ← Run.plant parent declared
    Run.say (.planted parent schema i)
    return i : Run NodeId) c = _
  rw [h]
  rfl

theorem sprouted_fromSchema {parent : Option NodeId} {schema : Json} {i : NodeId}
    (h : Build.fromSchema parent schema c = .ok i c') : Sprouted c parent schema i c' := by
  cases hread : Schema.read (c.graph.owner parent) schema with
  | error fault => rw [fromSchema_of_read_eq_error hread] at h; cases h
  | ok declared =>
    rw [fromSchema_of_read_eq_ok hread] at h
    cases h
    refine ⟨⟨_, declared, hread, rfl⟩, ⟨rfl, rfl, [_], rfl, fun e he => ?_⟩, List.mem_cons_self⟩
    rw [List.mem_singleton.1 he]
    exact ⟨rfl, rfl, rfl, rfl⟩

theorem works_fromSchema (hs : c.Sound d q) (parent : Option NodeId) (schema : Json) :
    Works d q c.Old (Build.fromSchema parent schema) c fun i c' => Sprouted c parent schema i c' := by
  cases hread : Schema.read (c.graph.owner parent) schema with
  | error fault =>
    have hrun := fromSchema_of_read_eq_error hread
    refine ⟨?_, ?_, fun a ha => ?_, fun a ha => ?_⟩
    · rw [after_of_error hrun]
      exact (Still.refl c).grows
    · rw [after_of_error hrun]
      exact hs
    all_goals
      rw [outcome_of_error hrun] at ha
      cases ha
  | ok declared =>
    have hrun := fromSchema_of_read_eq_ok hread
    have hsprouted := sprouted_fromSchema hrun
    refine ⟨?_, ?_, fun a ha hp => ?_, fun a ha => ?_⟩
    · rw [after_of_ok hrun]
      exact hsprouted.grows
    · rw [after_of_ok hrun]
      exact hsprouted.sound hs
    · rw [after_of_ok hrun]
      exact hsprouted.still.pursued ⟨hp.stored, hp.lookups⟩
    · rw [outcome_of_ok hrun] at ha
      cases ha
      rw [after_of_ok hrun]
      exact hsprouted

/-! ## Going into a node -/

theorem still_leave (c : Context) : c.Still c.leave := by
  rcases hstack : c.stack with _ | ⟨i, rest⟩
  · have hleave : c.leave = c := by rw [leave, hstack]
    rw [hleave]
    exact Still.refl c
  · refine ⟨?_, ?_, [.left i], ?_, fun e he => ?_⟩
    · rw [leave, hstack]
    · rw [leave, hstack]
    · rw [leave, hstack]
      rfl
    · rw [List.mem_singleton.1 he]
      exact ⟨rfl, rfl, rfl, rfl⟩

theorem entered_enter (c : Context) (i : NodeId) :
    (c.enter (some i)).entered = c.entered ++ [i] := by
  simp [entered, Transcript.enteredNodes, enter, Event.enteredNode?]

theorem grows_enter {i : NodeId} (hfresh : i ∉ c.entered) (hP : ¬P i) :
    c.Grows P (c.enter (some i)) := by
  refine ⟨le_rfl, fun j hj => ⟨rfl, fun hmem => ?_⟩, fun j _ => Node.Kept.refl _,
    List.prefix_refl _, fun hnodup => ?_, ⟨[_], rfl⟩, Graph.closedFrom_of_size_le le_rfl⟩
  · rw [entered_enter] at hmem
    rcases List.mem_append.1 hmem with hmem | hmem
    · exact hmem
    · obtain rfl := List.mem_singleton.1 hmem
      exact absurd hj hP
  · rw [entered_enter]
    refine List.nodup_append.2 ⟨hnodup, by simp, ?_⟩
    rintro j hj _ hi rfl
    exact hfresh (List.mem_singleton.1 hi ▸ hj)

theorem builds_enter (c : Context) (i : Option NodeId) :
    (c.enter i).transcript.builds = c.transcript.builds := by
  simp [Transcript.builds, enter, Event.built?]

theorem sound_enter {i : NodeId} (hs : c.Sound d q) (hlt : i.index < c.graph.size) :
    (c.enter (some i)).Sound d q where
  types_eq := by
    rw [builds_enter]
    exact hs.types_eq
  distinct := hs.distinct
  built := by
    rw [builds_enter]
    exact hs.built
  linked := hs.linked
  named := hs.named
  entered_lt j hj := by
    rw [entered_enter] at hj
    rcases List.mem_append.1 hj with hj | hj
    · exact hs.entered_lt j hj
    · rw [List.mem_singleton.1 hj]
      exact hlt
  once := hs.once.cons fun _ _ _ => ⟨(by simp), (by simp)⟩
  handmade := hs.handmade

theorem pursued_enter {i : Option NodeId} (h : c.Pursued) : (c.enter i).Pursued := by
  refine ⟨fun ref href => h.stored ref ?_, ?_⟩
  · simpa [Transcript.metReferences, enter, Event.metReference?] using href
  · have hlookups : (c.enter i).transcript.lookups = c.transcript.lookups := by
      simp [Transcript.lookups, enter, Event.lookedUp?]
    rw [hlookups, builds_enter]
    exact h.lookups

theorem after_within (i : NodeId) (m : Run α) (c : Context) :
    after (Run.within i m) c = (after m (c.enter (some i))).leave := by
  simp only [after, Run.within]
  cases m (c.enter (some i)) <;> rfl

theorem outcome_within (i : NodeId) (m : Run α) (c : Context) :
    outcome (Run.within i m) c = outcome m (c.enter (some i)) := by
  simp only [outcome, Run.within]
  cases m (c.enter (some i)) <;> rfl

/-- A step inside a node that was not gone into before. -/
theorem works_within {m : Run α} {i : NodeId} {R : α → Context → Prop} (hs : c.Sound d q)
    (hfresh : i ∉ c.entered) (hlt : i.index < c.graph.size) (hP : ¬P i)
    (hm : (c.enter (some i)).Sound d q → Works d q P m (c.enter (some i)) R) :
    Works d q P (Run.within i m) c fun a c' => ∃ c₁, R a c₁ ∧ c₁.Still c' := by
  have hwork := hm (sound_enter hs hlt)
  have hafter := after_within i m c
  have houtcome := outcome_within i m c
  have hstill := still_leave (after m (c.enter (some i)))
  refine ⟨?_, ?_, fun a ha hp => ?_, fun a ha => ?_⟩
  · rw [hafter]
    exact (grows_enter hfresh hP).trans (hwork.grows.trans hstill.grows)
  · rw [hafter]
    exact hstill.sound hwork.sound
  · rw [houtcome] at ha
    rw [hafter]
    exact hstill.pursued (hwork.pursued a ha (pursued_enter hp))
  · rw [houtcome] at ha
    rw [hafter]
    exact ⟨_, hwork.ok a ha, hstill⟩

end

end ApiGraph
