import ApiGraph.Proofs.Graph.Tidy
import ApiGraph.Proofs.Restoring.Contexts
import ApiGraph.Proofs.Visiting.Steps

/-!
# Visits beside one another

What a visit does hangs on the visits of the nodes below only. Two visitors that do the same below a
node do the same at the node, and what all steps keep is kept by a visit when it is kept by those
below.

* `Context.Moves` — one step between two visits: nodes stay what they are, properties are bound under
  their names, and nothing is told of the way or of the dialogue;
* `Shadows` — a computation does the same as another one from states with a property, which it keeps,
  or it has broken down;
* `shadows_body` — what a visit does inside its node.
-/

namespace ApiGraph

open OrderedMap Visit

/-- An event that is neither on the way through the graph nor part of the dialogue. -/
def Event.isMute : Event → Bool
  | .entered _ => false
  | .left _ => false
  | .asked _ => false
  | .answered _ => false
  | _ => true

theorem Event.isWay_of_isMute {e : Event} (h : e.isMute = true) : e.isWay = false := by
  cases e <;> first | rfl | cases h

namespace Context

/-- Nodes that are there stay what they are, and are not changed unless they are in a set. New ones take
no arguments. -/
structure Moves (X : NodeId → Prop) (c c' : Context) : Prop where
  size_le : c.graph.size ≤ c'.graph.size
  kept : ∀ j, j.index < c.graph.size → (c.graph.node j).Kept (c'.graph.node j)
  spared : ∀ j, j.index < c.graph.size → ¬X j → c'.graph.node j = c.graph.node j
  arguments : ∀ j, c.graph.size ≤ j.index → (c'.graph.node j).arguments = []
  stack : c'.stack = c.stack
  composeDepth : c'.composeDepth = c.composeDepth
  told : ∃ new, c'.transcript = new ++ c.transcript ∧ ∀ e ∈ new, e.isMute = true
  tidy : c.graph.Tidy → c'.graph.Tidy

variable {X : NodeId → Prop} {c c' c'' : Context}

theorem Moves.refl (c : Context) : c.Moves X c :=
  ⟨le_rfl, fun _ _ => .refl _, fun _ _ _ => rfl, fun _ => Graph.arguments_of_size_le, rfl, rfl,
    ⟨[], rfl, nofun⟩, id⟩

theorem Moves.trans (h : c.Moves X c') (h' : c'.Moves X c'') : c.Moves X c'' where
  size_le := h.size_le.trans h'.size_le
  kept j hj := (h.kept j hj).trans (h'.kept j (hj.trans_le h.size_le))
  spared j hj hX := (h'.spared j (hj.trans_le h.size_le) hX).trans (h.spared j hj hX)
  arguments j hj := by
    by_cases hj' : j.index < c'.graph.size
    · rw [(h'.kept j hj').arguments, h.arguments j hj]
    · exact h'.arguments j (Nat.not_lt.1 hj')
  stack := h'.stack.trans h.stack
  composeDepth := h'.composeDepth.trans h.composeDepth
  told := by
    obtain ⟨new, hnew, hmute⟩ := h.told
    obtain ⟨new', hnew', hmute'⟩ := h'.told
    refine ⟨new' ++ new, by rw [hnew', hnew, List.append_assoc], fun e he => ?_⟩
    rcases List.mem_append.1 he with he | he
    · exact hmute' e he
    · exact hmute e he
  tidy := h'.tidy ∘ h.tidy

theorem Moves.restored (h : c.Moves X c') : c.Restored c' := by
  obtain ⟨new, hnew, hmute⟩ := h.told
  refine ⟨h.size_le, fun j hj => (h.kept j hj).isComposed, h.stack, h.composeDepth,
    fun hstep => ?_, ⟨new, hnew.symm⟩⟩
  rw [InStep, h.stack, hnew,
    Transcript.inside_append fun e he => Event.isWay_of_isMute (hmute e he)]
  exact hstep

/-- Something is told, and the graph stays as it is. -/
theorem moves_of_graph {types : OrderedMap Key (Option NodeId)} (new : Transcript)
    (hmute : ∀ e ∈ new, e.isMute = true) (c : Context) :
    c.Moves X { c with types := types, transcript := new ++ c.transcript } :=
  ⟨le_rfl, fun _ _ => .refl _, fun _ _ _ => rfl, fun _ => Graph.arguments_of_size_le, rfl, rfl,
    ⟨new, rfl, hmute⟩, id⟩

/-- New nodes are made that take no arguments, and something is told. -/
theorem moves_of_grown {g : Graph} (new : Transcript) (hsize : c.graph.size ≤ g.size)
    (hold : ∀ j, j.index < c.graph.size → g.node j = c.graph.node j)
    (hnew : ∀ j, c.graph.size ≤ j.index → (g.node j).arguments = [])
    (hmute : ∀ e ∈ new, e.isMute = true) (htidy : c.graph.Tidy → g.Tidy) :
    c.Moves X { c with graph := g, transcript := new ++ c.transcript } := by
  refine ⟨hsize, fun j hj => ?_, fun j hj _ => hold j hj, hnew, rfl, rfl, ⟨new, rfl, hmute⟩, htidy⟩
  rw [hold j hj]
  exact .refl _

/-- A node of the set is changed, by which it stays what it is and the graph stays tidy. -/
theorem moves_update {i : NodeId} {f : Node → Node} (hi : X i)
    (hkept : (c.graph.node i).Kept (f (c.graph.node i)))
    (htidy : c.graph.Tidy → (c.graph.update i f).Tidy) :
    c.Moves X { c with graph := c.graph.update i f } := by
  have hother : ∀ j, j ≠ i → (c.graph.update i f).node j = c.graph.node j := fun j hj =>
    Graph.node_update_of_ne c.graph hj f
  refine ⟨(Graph.size_update c.graph i f).ge, fun j hj => ?_, fun j _ hX => hother j ?_,
    fun j hj => Graph.arguments_of_size_le ((Graph.size_update c.graph i f).trans_le hj), rfl, rfl,
    ⟨[], rfl, nofun⟩, htidy⟩
  · by_cases hne : j = i
    · subst hne
      show (c.graph.node j).Kept ((c.graph.update j f).node j)
      rw [Graph.node_update_self c.graph hj]
      exact hkept
    · show (c.graph.node j).Kept ((c.graph.update i f).node j)
      rw [hother j hne]
      exact .refl _
  · rintro rfl
    exact hX hi

/-- A composition of the set takes over a property under its name, if it has one. -/
theorem moves_put {i : NodeId} (hi : X i) (hcomposed : (c.graph.node i).body.isComposed = true)
    (prop : NodeId) : c.Moves X (after (Run.put i prop) c) := by
  cases hkey : (c.graph.node prop).name.key? with
  | none =>
    rw [after_of_error (put_of_key_eq_none hkey i)]
    exact .refl c
  | some key =>
    rw [after_of_ok (put_of_key_eq_some hkey i)]
    exact moves_update hi (Node.kept_putProperty hcomposed key prop) fun htidy =>
      htidy.put (Graph.called_of_key hkey)

end Context

section

variable {α β : Type} {X : NodeId → Prop}

/-! ## Steps between visits -/

/-- A step between two visits, from any state. -/
def Moving (X : NodeId → Prop) (m : Run α) : Prop := ∀ c : Context, c.Moves X (after m c)

theorem moving_pure (a : α) : Moving X (pure a : Run α) := fun _ => .refl _

theorem moving_throw (fault : Fault) : Moving X (throw fault : Run α) := fun _ => .refl _

theorem Moving.bind {m : Run α} {f : α → Run β} (hm : Moving X m) (hf : ∀ a, Moving X (f a)) :
    Moving X (m >>= f) := by
  intro c
  cases hc : outcome m c with
  | ok a =>
    rw [after_bind_of_ok hc]
    exact (hm c).trans (hf a _)
  | error fault =>
    rw [after_bind_of_error hc]
    exact hm c

theorem moving_get_bind {f : Context → Run α} (hf : ∀ c, Moving X (f c)) : Moving X (get >>= f) :=
  fun c => hf c c

namespace Run

theorem moving_lift (a : Attempt α) : Moving X (lift a) := by
  cases a with
  | ok a => exact moving_pure a
  | error fault => exact moving_throw fault

theorem moving_onGraph (f : Graph → Attempt α) : Moving X (onGraph f) :=
  moving_get_bind fun _ => moving_lift _

theorem moving_node (i : NodeId) : Moving X (node i) := moving_get_bind fun _ => moving_pure _

theorem moving_say {e : Event} (h : e.isMute = true) : Moving X (say e) := fun c =>
  Context.moves_of_graph [e] (fun e' he' => by rwa [List.mem_singleton.1 he']) c

theorem moving_log (level : Level) (channel : Channel) (text : String) :
    Moving X (log level channel text) :=
  moving_say rfl

theorem moving_trace (tag text : String) : Moving X (trace tag text) :=
  moving_get_bind fun _ => moving_log _ _ _

theorem moving_keyOf (name : Json) : Moving X (keyOf name) := moving_lift _

theorem moving_stored? (name : Json) : Moving X (stored? name) :=
  (moving_keyOf name).bind fun _ => moving_get_bind fun _ => moving_pure _

theorem moving_store (name : Json) (i : NodeId) : Moving X (store name i) := by
  refine (moving_trace _ _).bind fun _ => (moving_keyOf name).bind fun key =>
    moving_get_bind fun c => ?_
  split
  · refine Moving.bind (fun c => ?_) fun _ => moving_pure _
    exact Context.moves_of_graph [] nofun c
  · split
    · exact Moving.bind (moving_get_bind fun _ => moving_log _ _ _) fun _ => moving_pure _
    · exact moving_pure _

end Run

namespace Build

theorem moving_fromSchema (parent : Option NodeId) (schema : Json) :
    Moving X (fromSchema parent schema) := by
  intro c
  cases hread : Schema.read (c.graph.owner parent) schema with
  | error fault =>
    rw [after_of_error (fromSchema_of_read_eq_error hread)]
    exact .refl c
  | ok declared =>
    rw [after_of_ok (fromSchema_of_read_eq_ok hread)]
    have hplanted := (Graph.planted_plant parent c.graph declared).1
    refine Context.moves_of_grown [_] ?_ hplanted.node_eq (fun j hj => (hplanted.loose j hj).arguments)
      (fun e he => ?_) fun htidy => Graph.tidy_plant parent _ htidy declared
    · have := hplanted.index
      have := hplanted.sprout.lt_size
      omega
    · rw [List.mem_singleton.1 he]
      rfl

theorem moving_fromUnion (parent : Option NodeId) (members : Json) :
    Moving X (fromUnion parent members) := by
  refine (Run.moving_lift _).bind fun shapes c => ?_
  refine Context.moves_of_grown [] ?_ (fun j hj => Graph.node_alloc_of_lt c.graph _ hj)
    (fun j hj => (Graph.loose_alloc (Graph.loose_of_body rfl (by simp)) hj).arguments) nofun
    fun htidy => htidy.alloc rfl (Node.titled_of_slot?_eq_none rfl)
  exact (Nat.le_succ _).trans (Graph.size_alloc c.graph _).ge

/-- A node for the declaration of a reference, which it is called after. -/
def named (owner : Option NodeId) (declaration : Json.Members) (ref : Json) : Run NodeId := do
  let i ← fromSchema owner (.obj declaration)
  Run.say (.built ref i)
  Run.update i fun n => { n with name := ref }
  return i

theorem named_bind (owner : Option NodeId) (declaration : Json.Members) (ref : Json)
    (next : NodeId → Run α) :
    (do
      let i ← fromSchema owner (.obj declaration)
      Run.say (.built ref i)
      Run.update i fun n => { n with name := ref }
      next i) = named owner declaration ref >>= next := by
  simp only [named, bind_assoc, pure_bind]

/-- No node that was there gets the name. -/
theorem moving_named (owner : Option NodeId) (declaration : Json.Members) (ref : Json) :
    Moving X (named owner declaration ref) := by
  intro c
  cases hread : Schema.read (c.graph.owner owner) (.obj declaration) with
  | error fault =>
    rw [named, after_of_error (bind_of_error (fromSchema_of_read_eq_error hread))]
    exact .refl c
  | ok declared =>
    obtain ⟨hplanted, hunnamed, -⟩ := Graph.planted_plant owner c.graph declared
    have hindex := hplanted.index
    have hlt := hplanted.sprout.lt_size
    rw [named, after, bind_of_ok (fromSchema_of_read_eq_ok hread)]
    refine Context.moves_of_grown [_, _] ?_ (fun j hj => ?_) (fun j hj => ?_) (fun e he => ?_)
      fun htidy => ?_
    · rw [Graph.size_update]
      show c.graph.size ≤ (c.graph.plant owner declared).2.size
      omega
    · rw [Graph.node_update_of_ne _ (by rintro rfl; omega)]
      exact hplanted.node_eq j hj
    · have harguments := (hplanted.loose j hj).arguments
      by_cases hne : j = (c.graph.plant owner declared).1
      · subst hne
        rw [Graph.node_update_self _ hlt]
        exact harguments
      · rw [Graph.node_update_of_ne _ hne]
        exact harguments
    · rcases List.mem_cons.1 he with rfl | he
      · rfl
      · rw [List.mem_singleton.1 he]
        rfl
    · exact (Graph.tidy_plant owner _ htidy declared).rename hunnamed

end Build

/-! ## Computations beside one another -/

/-- From states with a property, which it keeps, a computation does the same as another one, unless it
breaks down. -/
def Shadows (G B : Context → Prop) (m' m : Run α) : Prop :=
  ∀ c, G c → m' c = m c ∧ G (after m c) ∨ ∃ fault c', m' c = .error fault c' ∧ B c'

/-- A property of states that steps between visits keep. -/
def Lasting (X : NodeId → Prop) (G : Context → Prop) : Prop :=
  ∀ c c' : Context, G c → c.Moves X c' → G c'

variable {G B : Context → Prop}

theorem shadows_of_moves {m : Run α} (hG : Lasting X G) (hm : ∀ c : Context, G c → c.Moves X (after m c)) :
    Shadows G B m m :=
  fun c hc => .inl ⟨rfl, hG c _ hc (hm c hc)⟩

theorem Moving.shadows {m : Run α} (hm : Moving X m) (hG : Lasting X G) : Shadows G B m m :=
  shadows_of_moves hG fun c _ => hm c

theorem Shadows.bind {m' m : Run α} {f' f : α → Run β} (hm : Shadows G B m' m)
    (hf : ∀ a, Shadows G B (f' a) (f a)) : Shadows G B (m' >>= f') (m >>= f) := by
  intro c hc
  rcases hm c hc with ⟨he, hafter⟩ | ⟨fault, c', he, hB⟩
  · cases hmc : m c with
    | ok a c₁ =>
      rw [hmc] at he
      rw [after_of_ok hmc] at hafter
      rw [after, bind_of_ok he, bind_of_ok hmc]
      exact hf a c₁ hafter
    | error fault c₁ =>
      rw [hmc] at he
      rw [after_of_error hmc] at hafter
      rw [after_of_error (bind_of_error hmc), bind_of_error he, bind_of_error hmc]
      exact .inl ⟨rfl, hafter⟩
  · exact .inr ⟨fault, c', bind_of_error he, hB⟩

theorem shadows_get_bind {f' f : Context → Run α} (hf : ∀ c, Shadows G B (f' c) (f c)) :
    Shadows G B (get >>= f') (get >>= f) :=
  fun c hc => hf c c hc

theorem shadows_forM {f' f : α → Run Unit} (hf : ∀ a, Shadows G B (f' a) (f a)) (xs : List α)
    (hG : Lasting X G) : Shadows G B (xs.forM f') (xs.forM f) := by
  induction xs with
  | nil => exact (moving_pure ()).shadows hG
  | cons x xs ih =>
    show Shadows G B (f' x >>= fun _ => xs.forM f') (f x >>= fun _ => xs.forM f)
    exact (hf x).bind fun _ => ih

/-- A node is changed that keeps its properties. -/
theorem shadows_update {i : NodeId} {f : Node → Node} (hG : Lasting X G) (hi : X i)
    (hkept : ∀ c, G c → (c.graph.node i).Kept (f (c.graph.node i))) (hprops : ∀ n, (f n).props = n.props) :
    Shadows G B (Run.update i f) (Run.update i f) :=
  shadows_of_moves hG fun c hc => Context.moves_update hi (hkept c hc) fun htidy =>
    htidy.update_of_props (hkept c hc).name (hprops _) fun htitled => htitled.kept (hkept c hc)

/-! ## Visits -/

namespace Visit

variable {v' v : Visitor} {i : NodeId} {n : Node}

theorem shadows_resolve (hG : Lasting X G) (hv : ∀ i, Shadows G B (v' i) (v i)) (d : Document)
    (owner : Option NodeId) (ref : Json) :
    Shadows G B (resolve d v' owner ref) (resolve d v owner ref) := by
  refine ((Run.moving_say rfl).shadows hG).bind fun _ =>
    ((Run.moving_stored? ref).shadows hG).bind fun found => ?_
  cases found with
  | some found => exact ((Run.moving_trace _ _).bind fun _ => moving_pure _).shadows hG
  | none =>
    refine ((Run.moving_trace _ _).shadows hG).bind fun _ => ((Run.moving_say rfl).shadows hG).bind fun _ => ?_
    refine ((Run.moving_lift _).shadows hG).bind fun declaration => ?_
    rw [Build.named_bind, Build.named_bind]
    refine ((Build.moving_named owner declaration ref).shadows hG).bind fun i => ?_
    refine ((Run.moving_store ref i).shadows hG).bind fun live => (hv live).bind fun _ => ?_
    exact ((Run.moving_trace _ _).bind fun _ => moving_pure _).shadows hG

theorem shadows_collectFrom (hG : Lasting X G) (hv : ∀ i, Shadows G B (v' i) (v i)) (i : NodeId)
    (collected : OrderedMap Key NodeId) (members : List Json) :
    Shadows G B (collectFrom v' i collected members) (collectFrom v i collected members) := by
  induction members generalizing collected with
  | nil => exact (moving_pure _).shadows hG
  | cons schema rest ih =>
    refine ((Build.moving_fromSchema _ _).shadows hG).bind fun member => (hv member).bind fun _ => ?_
    exact ((Run.moving_onGraph _).shadows hG).bind fun _ => ih _

theorem shadows_collect (hG : Lasting X G) (hv : ∀ i, Shadows G B (v' i) (v i)) (i : NodeId) :
    Shadows G B (collect v' i) (collect v i) :=
  ((Run.moving_node i).shadows hG).bind fun _ => ((Run.moving_lift _).shadows hG).bind fun _ =>
    ((Run.moving_lift _).shadows hG).bind fun _ => shadows_collectFrom hG hv i _ _

theorem moving_storeNamed (i : NodeId) : Moving X (storeNamed i) := by
  refine (Run.moving_node i).bind fun n => ?_
  split
  · exact moving_pure _
  · exact (Run.moving_store _ _).bind fun _ => moving_pure _

theorem shadows_put (hG : Lasting X G) (hi : X i)
    (hcomposed : ∀ c, G c → (c.graph.node i).body.isComposed = true) (prop : NodeId) :
    Shadows G B (Run.put i prop) (Run.put i prop) :=
  shadows_of_moves hG fun c hc => Context.moves_put hi (hcomposed c hc) prop

theorem shadows_keep (hG : Lasting X G) (hi : X i)
    (hcomposed : ∀ c, G c → (c.graph.node i).body.isComposed = true) (kept : List NodeId) :
    Shadows G B (do kept.forM (Run.put i); storeNamed i) (do kept.forM (Run.put i); storeNamed i) :=
  (shadows_forM (shadows_put hG hi hcomposed) kept hG).bind fun _ => (moving_storeNamed i).shadows hG

theorem shadows_visitAllOf (hG : Lasting X G) (hv : ∀ i, Shadows G B (v' i) (v i)) (hi : X i)
    (hcomposed : ∀ c, G c → (c.graph.node i).body.isComposed = true)
    (hselect : ∀ collected, Shadows G B (select i collected) (select i collected)) :
    Shadows G B (visitAllOf v' i) (visitAllOf v i) := by
  refine (shadows_collect hG hv i).bind fun collected => shadows_get_bind fun c => ?_
  extract_lets rest
  split
  · exact ((moving_pure _).shadows hG).bind (shadows_keep hG hi hcomposed)
  · exact (hselect collected).bind (shadows_keep hG hi hcomposed)

theorem shadows_addChild (hG : Lasting X G) (hi : X i) (child : Option NodeId) :
    Shadows G B (Run.update i fun n => n.addChild child) (Run.update i fun n => n.addChild child) :=
  shadows_update hG hi (fun _ _ => (Node.Kept.refl _).addChild child) fun n => n.props_addChild child

theorem shadows_visitOneOf (hG : Lasting X G) (hv : ∀ i, Shadows G B (v' i) (v i)) (hi : X i)
    (members : Option Json) :
    Shadows G B (visitOneOf v' i members) (visitOneOf v i members) :=
  ((Run.moving_lift _).shadows hG).bind fun _ => ((Build.moving_fromUnion _ _).shadows hG).bind fun union =>
    (shadows_addChild hG hi union).bind fun _ => (hv union).bind fun _ =>
      (moving_storeNamed i).shadows hG

theorem shadows_visitShapes (hG : Lasting X G) (hv : ∀ i, Shadows G B (v' i) (v i)) (hi : X i)
    (position : Nat) (shapes : List Json) :
    Shadows G B (visitShapes v' i position shapes) (visitShapes v i position shapes) := by
  induction shapes generalizing position with
  | nil => exact (moving_pure _).shadows hG
  | cons schema rest ih =>
    refine ((Build.moving_fromSchema _ _).shadows hG).bind fun member => (hv member).bind fun _ => ?_
    dsimp only
    split
    · exact (shadows_addChild hG hi member).bind fun _ => ih _
    · exact ((Run.moving_trace _ _).shadows hG).bind fun _ => ih _

theorem shadows_visitObject (hG : Lasting X G) (hv : ∀ i, Shadows G B (v' i) (v i)) (n : Node) :
    Shadows G B (visitObject v' n) (visitObject v n) :=
  ((Run.moving_trace _ _).shadows hG).bind fun _ => (shadows_forM hv _ hG).bind fun _ =>
    (Run.moving_trace _ _).shadows hG

theorem shadows_visitComposed (hG : Lasting X G) (hv : ∀ i, Shadows G B (v' i) (v i)) (hi : X i)
    (n : Node) (kind : Composition) (members : Option Json)
    (hallOf : kind = .allOf → Shadows G B (visitAllOf v' i) (visitAllOf v i)) :
    Shadows G B (visitComposed v' i n kind members) (visitComposed v i n kind members) := by
  refine ((Run.moving_trace _ _).shadows hG).bind fun _ => shadows_get_bind fun c => ?_
  extract_lets out rest rest'
  have hout : ∀ u, Shadows G B (out u) (out u) := fun _ => (Run.moving_trace _ _).shadows hG
  have hrest : ∀ u, Shadows G B (rest u) (rest' u) := by
    intro u
    cases kind with
    | allOf => exact (hallOf rfl).bind hout
    | oneOf => exact (shadows_visitOneOf hG hv hi members).bind hout
  split
  · exact hrest ()
  · exact ((Run.moving_log _ _ _).shadows hG).bind hrest

/-- A reference is followed to the node that it is linked to. -/
theorem shadows_follow (hG : Lasting X G) (hv : ∀ i, Shadows G B (v' i) (v i)) (hi : X i)
    (hn : ∀ c, G c → n.Kept (c.graph.node i)) (d : Document) {ref : Json} (body : Link → Body)
    (hbody : ∀ target, (body ⟨ref, target⟩).unlinked = n.body.unlinked) :
    Shadows G B
      (do
        let target ← resolve d v' (some i) ref
        Run.update i fun n => { n with body := body ⟨ref, some target⟩ }.addChild target)
      (do
        let target ← resolve d v (some i) ref
        Run.update i fun n => { n with body := body ⟨ref, some target⟩ }.addChild target) := by
  refine (shadows_resolve hG hv d _ _).bind fun target =>
    shadows_update hG hi (fun c hc => ?_) fun n => Node.props_addChild _ _
  have hlinked : (c.graph.node i).Kept { c.graph.node i with body := body ⟨ref, some target⟩ } :=
    ⟨(hbody (some target)).trans (hn c hc).body.symm, rfl, rfl, rfl, fun _ => rfl⟩
  exact hlinked.addChild target

/-- What a visit does inside its node, beside what it does with other visits below. What it does inside
an `allOf`, where questions may be put, is looked at apart. -/
theorem shadows_body (hG : Lasting X G) (hv : ∀ i, Shadows G B (v' i) (v i)) (hi : X i)
    (hn : ∀ c, G c → n.Kept (c.graph.node i))
    (hallOf : ∀ members, n.body = .composed .allOf members →
      (∀ c, G c → (c.graph.node i).body.isComposed = true) →
        Shadows G B (visitAllOf v' i) (visitAllOf v i)) (d : Document) :
    Shadows G B (body d v' i n) (body d v i n) := by
  unfold body
  split
  · exact (moving_throw _).shadows hG
  · exact (moving_pure _).shadows hG
  · exact shadows_visitObject hG hv n
  · exact ((Run.moving_lift _).shadows hG).bind hv
  · next link hbody => exact shadows_follow hG hv hi hn d Body.ref fun _ => by rw [hbody]; rfl
  · next slot arguments link hbody =>
    exact shadows_follow hG hv hi hn d (fun link => .property slot arguments (some link))
      fun _ => by rw [hbody]; rfl
  · refine (shadows_forM (fun a => ?_) _ hG).bind fun _ => ((Run.moving_lift _).shadows hG).bind hv
    exact ((Run.moving_lift (expect a)).shadows hG).bind hv
  · exact ((Run.moving_lift _).shadows hG).bind hv
  · next kind members hbody =>
    refine shadows_visitComposed hG hv hi n kind members fun hkind => hallOf members ?_ fun c hc => ?_
    · rw [hbody, hkind]
    · rw [(hn c hc).isComposed, hbody]
      rfl
  · extract_lets rest rest'
    have hrest : ∀ u, Shadows G B (rest u) (rest' u) := fun _ => shadows_visitShapes hG hv hi 0 _
    split
    · exact shadows_get_bind fun c => ((moving_throw _).shadows hG).bind hrest
    · exact hrest ()

end Visit

end

end ApiGraph
