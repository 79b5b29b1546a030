import Mathlib.Tactic.Tauto
import ApiGraph.Proofs.Depicting.Nodes
import ApiGraph.Proofs.Graph.Tree

/-!
# Whole graphs

While a visit goes on, a node that was visited leads to visited nodes and to nodes whose visit is
still owed. When nothing is owed any more, the graph is finished.

* `Context.Ripe` — what a node looks like once it was visited;
* `Context.Ready` — a node that was visited or whose visit is owed;
* `Whole` — what holds while the visits of some nodes are owed, apart from nodes that no visit goes to;
* `Whole.grow` — new nodes, whose visits are owed as well;
* `Whole.finish` — a visit that is no longer owed;
* `Whole.elsewhere` — what happens between visits to nodes that were not visited.
-/

namespace ApiGraph

open OrderedMap Context

namespace Context

/-- A node that was visited. -/
def Visited (c : Context) (i : NodeId) : Prop := (c.graph.node i).visited = true

/-- A node that was visited, or whose visit is owed. -/
def Ready (c : Context) (X : NodeId → Prop) (i : NodeId) : Prop := c.Visited i ∨ X i

/-- What a node looks like once it was visited: its reference is resolved, and it has got the nodes that
its kind gathers. The union of a choice, and the node of the first declaration of a union, were made for
them. -/
structure Ripe (c : Context) (i : NodeId) : Prop where
  kind : (c.graph.node i).body ≠ .bare
  attached : (c.graph.node i).attached = none
  target : ∀ link, (c.graph.node i).body.link? = some link →
    ∃ t, link.target = some t ∧ c.stored? link.ref = some t
  items : ∀ items, (c.graph.node i).body = .array items → ∃ k, items = some k ∧ i.index < k.index
  allOf : ∀ parts, (c.graph.node i).body = .composed .allOf parts →
    (c.graph.node i).children = (values (c.graph.node i).props).map some
  oneOf : ∀ parts, (c.graph.node i).body = .composed .oneOf parts → ∃ declared shapes u,
    parts = some declared ∧ declared.elements = .ok shapes ∧
      (c.graph.node i).children = [some u] ∧ i.index < u.index ∧ u.index < c.graph.size ∧
      (c.graph.node u).body = .union shapes
  union : ∀ shapes, (c.graph.node i).body = .union shapes → ∃ first rest v,
    shapes = first :: rest ∧ (c.graph.node i).children = [some v] ∧ i.index < v.index ∧
      .planted (some i) first v ∈ c.transcript
  choice : ∀ parts, (c.graph.node i).body = .composed .oneOf parts →
    ∀ u, some u ∈ (c.graph.node i).children → c.graph.Owns i u
  shape : ∀ first rest, (c.graph.node i).body = .union (first :: rest) →
    ∀ v, some v ∈ (c.graph.node i).children → c.graph.Owns i v ∧
      ∃ s, first.Declares s ∧ c.graph.Shows v s

end Context

/-- What holds while the visits of the nodes of a set `X` are owed. The nodes of a set `A` are
arguments that no visit goes to. -/
structure Whole (A X : NodeId → Prop) (c : Context) : Prop where
  owed_lt : ∀ j, X j → j.index < c.graph.size
  entered : ∀ j, c.Visited j → j ∈ c.entered
  ripe : ∀ j, c.Visited j → c.Ripe j
  led : ∀ j, c.Visited j → ∀ k ∈ (c.graph.node j).followed, c.Ready X k
  stored : ∀ ref t, c.stored? ref = some t → c.Ready X t
  gathered : ∀ j, X j → ∀ k ∈ values (c.graph.node j).props, c.Ready X k
  entries : ∀ j, c.Ready X j → ∀ e ∈ (c.graph.node j).props, ∃ s, e.1 = .text s ∧
    (c.graph.node e.2).IsProperty s
  plain : ∀ j, c.Ready X j → ∀ slot arguments link,
    (c.graph.node j).body = .property slot arguments (some link) →
      slot.type = none ∧ ∀ a, some a ∈ arguments → A a
  spurned : ∀ a, A a → ¬c.Visited a

variable {A X Y : NodeId → Prop} {d : Document} {q : Option NodeId} {P : NodeId → Prop}
  {c c' : Context} {i : NodeId}

/-! ## Places of nodes -/

theorem Context.Visited.lt_size (h : c.Visited i) : i.index < c.graph.size := by
  refine Nat.lt_of_not_le fun hle => ?_
  rw [Visited, Graph.node_of_size_le hle] at h
  cases h

theorem Node.IsProperty.lt_size {g : Graph} {name : String} (h : (g.node i).IsProperty name) :
    i.index < g.size := by
  refine Nat.lt_of_not_le fun hle => ?_
  obtain ⟨-, slot, arguments, link, hbody⟩ := h
  rw [Graph.node_of_size_le hle] at hbody
  cases hbody

theorem Whole.ready_lt (hw : Whole A X c) (h : c.Ready X i) : i.index < c.graph.size :=
  h.elim Visited.lt_size (hw.owed_lt i)

/-! ## Growth -/

/-- A node that is left alone stays ripe. -/
theorem Context.Ripe.grows (h : c.Ripe i) (hg : c.Grows P c') (hi : P i) : c'.Ripe i := by
  have hsame := (hg.spared i hi).1
  refine ⟨?_, ?_, ?_, ?_, ?_, ?_, ?_, ?_, ?_⟩ <;> rw [hsame]
  · exact h.kind
  · exact h.attached
  · intro link hlink
    obtain ⟨t, ht, hstored⟩ := h.target link hlink
    exact ⟨t, ht, hg.stored? hstored⟩
  · exact h.items
  · exact h.allOf
  · intro parts hbody
    obtain ⟨declared, shapes, u, hparts, helements, hchildren, hiu, hu, hunion⟩ := h.oneOf parts hbody
    refine ⟨declared, shapes, u, hparts, helements, hchildren, hiu, hu.trans_le hg.size_le, ?_⟩
    rw [(hg.kept u hu).body_eq (by rw [hunion]; rfl), hunion]
  · intro shapes hbody
    obtain ⟨first, rest, v, hshapes, hchildren, hiv, htold⟩ := h.union shapes hbody
    exact ⟨first, rest, v, hshapes, hchildren, hiv, hg.told.subset htold⟩
  · intro parts hbody u hu
    have hown := h.choice parts hbody u hu
    exact hown.kept (hg.kept u hown.lt_size)
  · intro first rest hbody v hv
    obtain ⟨hown, s, hdeclares, hshows⟩ := h.shape first rest hbody v hv
    have hkept := hg.kept v hown.lt_size
    exact ⟨hown.kept hkept, s, hdeclares, hshows.kept hkept fun k _ => hg.kept k⟩

theorem Context.Grows.entered (h : c.Grows P c') (hi : i ∈ c.entered) : i ∈ c'.entered := by
  obtain ⟨new, hnew⟩ := h.told
  rw [Context.entered, ← hnew, Transcript.enteredNodes, Transcript.filterMap_reverse_append]
  exact List.mem_append_left _ hi

/-- What has to hold of nodes when their visits become owed. -/
structure Owing (A Y : NodeId → Prop) (c : Context) : Prop where
  lt_size : ∀ j, Y j → j.index < c.graph.size
  gathered : ∀ j, Y j → ∀ k ∈ values (c.graph.node j).props, Y k
  entries : ∀ j, Y j → ∀ e ∈ (c.graph.node j).props, ∃ s, e.1 = .text s ∧
    (c.graph.node e.2).IsProperty s
  plain : ∀ j, Y j → ∀ slot arguments link,
    (c.graph.node j).body = .property slot arguments (some link) →
      slot.type = none ∧ ∀ a, some a ∈ arguments → A a

theorem owing_none (A : NodeId → Prop) (c : Context) : Owing A (fun _ => False) c :=
  ⟨nofun, nofun, nofun, nofun⟩

/-- A property whose type is a reference stays one, with the same arguments. -/
theorem Node.Kept.reference {n n' : Node} (h : n.Kept n') {slot : Slot}
    {arguments : List (Option NodeId)} {link : Link}
    (hbody : n'.body = .property slot arguments (some link)) :
    ∃ link', n.body = .property slot arguments (some link') := by
  have hb := h.body
  rw [hbody] at hb
  rcases hn : n.body with _ | _ | _ | _ | _ | _ | _ | ⟨s, as, _ | l⟩ | _ <;> rw [hn] at hb <;>
    simp [Body.unlinked] at hb
  obtain ⟨rfl, rfl, -⟩ := hb
  exact ⟨l, rfl⟩

/-- An entry that a node may gather: a property that is ready, under its name. -/
def Context.Entry (c : Context) (X : NodeId → Prop) (e : Key × NodeId) : Prop :=
  c.Ready X e.2 ∧ ∃ s, e.1 = .text s ∧ (c.graph.node e.2).IsProperty s

/-- What a node has gathered, others may gather. -/
theorem Whole.entry (hw : Whole A X c) (hi : c.Ready X i) {e : Key × NodeId}
    (he : e ∈ (c.graph.node i).props) : c.Entry X e := by
  refine ⟨?_, hw.entries i hi e he⟩
  have hmem : e.2 ∈ values (c.graph.node i).props := List.mem_map_of_mem he
  rcases hi with hi | hi
  · exact hw.led i hi e.2 (by simp [Node.followed, hmem])
  · exact hw.gathered i hi e.2 hmem

/-- Steps that visit no node and leave alone what was visited, and after which the visits of more nodes
are owed. A node whose visit is owed may gather properties. -/
theorem Whole.grow (hw : Whole A X c) (hg : c.Grows P c') (hspared : ∀ j, c.Visited j → P j)
    (hprops : ∀ j, X j → ∀ e ∈ (c'.graph.node j).props,
      e ∈ (c.graph.node j).props ∨ c.Entry X e)
    (hvisited : ∀ j, c'.Visited j → c.Visited j) (ho : Owing A Y c')
    (hstored : ∀ ref t, c'.stored? ref = some t → c.stored? ref = some t ∨ Y t) :
    Whole A (fun j => X j ∨ Y j) c' := by
  have hsame : ∀ j, c.Visited j → c'.graph.node j = c.graph.node j := fun j hj =>
    (hg.spared j (hspared j hj)).1
  have hready : ∀ j, c.Ready X j → c'.Ready (fun j => X j ∨ Y j) j := by
    rintro j (hj | hj)
    · refine .inl ?_
      rw [Visited, hsame j hj]
      exact hj
    · exact .inr (.inl hj)
  have hold : ∀ j, c'.Ready (fun j => X j ∨ Y j) j → c.Ready X j ∨ Y j := by
    rintro j (hj | hj | hj)
    · exact .inl (.inl (hvisited j hj))
    · exact .inl (.inr hj)
    · exact .inr hj
  have hentry : ∀ j, c.Ready X j → ∀ e ∈ (c'.graph.node j).props, c.Entry X e := by
    intro j hj e he
    rcases hj with hj | hj
    · rw [hsame j hj] at he
      exact hw.entry (.inl hj) he
    · rcases hprops j hj e he with he | he
      · exact hw.entry (.inr hj) he
      · exact he
  refine ⟨?_, fun j hj => ?_, fun j hj => ?_, fun j hj k hk => ?_, fun ref t ht => ?_, ?_, ?_, ?_,
    fun a ha hvisit => hw.spurned a ha (hvisited a hvisit)⟩
  · rintro j (hj | hj)
    · exact (hw.owed_lt j hj).trans_le hg.size_le
    · exact ho.lt_size j hj
  · exact hg.entered (hw.entered j (hvisited j hj))
  · exact (hw.ripe j (hvisited j hj)).grows hg (hspared j (hvisited j hj))
  · rw [hsame j (hvisited j hj)] at hk
    exact hready k (hw.led j (hvisited j hj) k hk)
  · rcases hstored ref t ht with ht | ht
    · exact hready t (hw.stored ref t ht)
    · exact .inr (.inr ht)
  · rintro j (hj | hj) k hk
    · obtain ⟨e, he, rfl⟩ := List.mem_map.1 hk
      exact hready e.2 (hentry j (.inr hj) e he).1
    · exact .inr (.inr (ho.gathered j hj k hk))
  · intro j hj e he
    rcases hold j hj with hj | hj
    · obtain ⟨-, s, hkey, hprop⟩ := hentry j hj e he
      exact ⟨s, hkey, hprop.kept (hg.kept e.2 hprop.lt_size)⟩
    · exact ho.entries j hj e he
  · intro j hj slot arguments link hbody
    rcases hold j hj with hj | hj
    · obtain ⟨link', hbody'⟩ := (hg.kept j (hw.ready_lt hj)).reference hbody
      exact hw.plain j hj slot arguments link' hbody'
    · exact ho.plain j hj slot arguments link hbody

/-- Which visits are owed may be said in another way. -/
theorem Whole.congr (hw : Whole A X c) (h : ∀ j, X j ↔ Y j) : Whole A Y c := by
  have he : X = Y := funext fun j => propext (h j)
  rw [← he]
  exact hw

/-- Steps after which no more visits are owed. -/
theorem Whole.step (hw : Whole A X c) (hg : c.Grows P c') (hspared : ∀ j, c.Visited j → P j)
    (hprops : ∀ j, X j → ∀ e ∈ (c'.graph.node j).props,
      e ∈ (c.graph.node j).props ∨ c.Entry X e)
    (hvisited : ∀ j, c'.Visited j → c.Visited j)
    (hstored : ∀ ref, c'.stored? ref = c.stored? ref) : Whole A X c' := by
  refine (hw.grow hg hspared hprops hvisited (owing_none A c') fun ref t ht => ?_).congr fun j =>
    iff_of_eq (or_false _)
  rw [hstored] at ht
  exact .inl ht

theorem Whole.still (hw : Whole A X c) (h : c.Still c') : Whole A X c' := by
  refine hw.step (h.grows (P := fun _ => True)) (fun _ _ => trivial) (fun j _ e he => ?_)
    (fun j hj => ?_) h.stored?
  · rw [h.graph] at he
    exact .inl he
  · rw [Visited, h.graph] at hj
    exact hj

theorem Context.Ready.still (h : c.Still c') : c'.Ready X i ↔ c.Ready X i := by
  rw [Ready, Visited, h.graph]
  rfl

/-! ## Finishing -/

/-- Nodes that differ in nothing but whether they were visited. -/
structure Node.Same (n n' : Node) : Prop where
  body : n'.body = n.body
  name : n'.name = n.name
  parent : n'.parent = n.parent
  props : n'.props = n.props
  children : n'.children = n.children
  attached : n'.attached = n.attached

theorem Node.Same.kept {n n' : Node} (h : n.Same n') : n.Kept n' :=
  ⟨by rw [h.body], h.name, h.parent, h.attached, fun _ => h.props⟩

theorem Node.Same.followed {n n' : Node} (h : n.Same n') : n'.followed = n.followed := by
  simp only [Node.followed, Node.items?, Node.type?, Node.slot?, Node.arguments, Node.target?, h.body,
    h.props, h.children, h.attached]

theorem Context.Ripe.congr (h : c.Ripe i) (hsize : c'.graph.size = c.graph.size)
    (hsame : ∀ j, (c.graph.node j).Same (c'.graph.node j))
    (hstored : ∀ ref, c'.stored? ref = c.stored? ref) (htold : c'.transcript = c.transcript) :
    c'.Ripe i := by
  obtain ⟨hbody, -, -, hprops, hchildren, hattached⟩ := hsame i
  refine ⟨?_, ?_, ?_, ?_, ?_, ?_, ?_, ?_, ?_⟩
  · rw [hbody]
    exact h.kind
  · rw [hattached]
    exact h.attached
  · simp only [hbody, hstored]
    exact h.target
  · rw [hbody]
    exact h.items
  · rw [hbody, hchildren, hprops]
    exact h.allOf
  · rw [hbody, hchildren, hsize]
    simp only [(hsame _).body]
    exact h.oneOf
  · rw [hbody, hchildren, htold]
    exact h.union
  · rw [hbody, hchildren]
    exact fun parts hparts u hu => (h.choice parts hparts u hu).kept (hsame u).kept
  · rw [hbody, hchildren]
    intro first rest hunion v hv
    obtain ⟨hown, s, hdeclares, hshows⟩ := h.shape first rest hunion v hv
    exact ⟨hown.kept (hsame v).kept, s, hdeclares, hshows.kept (hsame v).kept fun k _ _ => (hsame k).kept⟩

/-- The visit of a node is over: it is ripe, and leads to nodes that are ready. -/
theorem Whole.finish (hw : Whole A (fun j => X j ∨ j = i) c) (hentered : i ∈ c.entered)
    (hripe : c.Ripe i) (hled : ∀ k ∈ (c.graph.node i).followed, c.Ready (fun j => X j ∨ j = i) k)
    (hA : ¬A i) :
    Whole A X { c with graph := c.graph.update i fun n => { n with visited := true } } ∧
      Context.Visited { c with graph := c.graph.update i fun n => { n with visited := true } } i := by
  have hlt : i.index < c.graph.size := hw.owed_lt i (.inr rfl)
  have hself := Graph.node_update_self c.graph hlt fun n => { n with visited := true }
  have hother : ∀ j, j ≠ i → (c.graph.update i fun n => { n with visited := true }).node j =
      c.graph.node j := fun j hj => Graph.node_update_of_ne c.graph hj _
  have hsame : ∀ j, (c.graph.node j).Same
      ((c.graph.update i fun n => { n with visited := true }).node j) := by
    intro j
    by_cases hj : j = i
    · rw [hj, hself]
      exact ⟨rfl, rfl, rfl, rfl, rfl, rfl⟩
    · rw [hother j hj]
      exact ⟨rfl, rfl, rfl, rfl, rfl, rfl⟩
  have hsize := Graph.size_update c.graph i fun n => { n with visited := true }
  have hvisited : ∀ j, ((c.graph.update i fun n => { n with visited := true }).node j).visited =
      true ↔ c.Visited j ∨ j = i := by
    intro j
    by_cases hj : j = i
    · rw [hj, hself]
      simp
    · rw [hother j hj]
      simp [Visited, hj]
  have hready : ∀ j, Context.Ready
      { c with graph := c.graph.update i fun n => { n with visited := true } } X j ↔
        c.Ready (fun j => X j ∨ j = i) j := by
    intro j
    rw [Ready, Visited, hvisited, Ready]
    tauto
  have hproperty : ∀ j s, (c.graph.node j).IsProperty s →
      ((c.graph.update i fun n => { n with visited := true }).node j).IsProperty s := by
    rintro j s ⟨hname, hslot⟩
    exact ⟨(hsame j).name.trans hname, by rwa [(hsame j).body]⟩
  refine ⟨⟨fun j hj => ?_, fun j hj => ?_, fun j hj => ?_, fun j hj k hk => ?_, fun ref t ht => ?_,
    fun j hj k hk => ?_, fun j hj e he => ?_, fun j hj => ?_, fun a ha hvisit => ?_⟩, ?_⟩
  · simp only [hsize]
    exact hw.owed_lt j (.inl hj)
  · rcases (hvisited j).1 hj with hj | rfl
    · exact hw.entered j hj
    · exact hentered
  · have hold : c.Ripe j := by
      rcases (hvisited j).1 hj with hj | rfl
      · exact hw.ripe j hj
      · exact hripe
    exact hold.congr hsize hsame (fun _ => rfl) rfl
  · rw [hready]
    simp only [(hsame j).followed] at hk
    rcases (hvisited j).1 hj with hj | rfl
    · exact hw.led j hj k hk
    · exact hled k hk
  · rw [hready]
    exact hw.stored ref t ht
  · rw [hready]
    simp only [(hsame j).props] at hk
    exact hw.gathered j (.inl hj) k hk
  · simp only [(hsame j).props] at he
    obtain ⟨s, hkey, hprop⟩ := hw.entries j ((hready j).1 hj) e he
    exact ⟨s, hkey, hproperty e.2 s hprop⟩
  · simp only [(hsame j).body]
    exact hw.plain j ((hready j).1 hj)
  · rcases (hvisited a).1 hvisit with hvisit | rfl
    · exact hw.spurned a ha hvisit
    · exact hA ha
  · exact (hvisited i).2 (.inr rfl)

/-! ## Changes between visits -/

/-- When nothing is owed, what was visited leads to nodes that were visited. So it does not matter what
happens to other nodes, as long as none is visited. -/
theorem Whole.elsewhere {B : NodeId → Prop} (hw : Whole A (fun _ => False) c)
    (hsize : c.graph.size ≤ c'.graph.size)
    (hsame : ∀ j, c.Visited j → c'.graph.node j = c.graph.node j)
    (hvisited : ∀ j, c'.Visited j → c.Visited j)
    (hstored : ∀ ref, c'.stored? ref = c.stored? ref) (htold : c.transcript <:+ c'.transcript)
    (hA : ∀ a, A a → B a) (hB : ∀ a, B a → ¬c'.Visited a) : Whole B (fun _ => False) c' := by
  have hready : ∀ j, c.Ready (fun _ => False) j ↔ c.Visited j := fun j => or_iff_left id
  have hready' : ∀ j, c'.Ready (fun _ => False) j ↔ c.Visited j := by
    refine fun j => (or_iff_left id).trans ⟨hvisited j, fun hj => ?_⟩
    rw [Visited, hsame j hj]
    exact hj
  have hled : ∀ j, c.Visited j → ∀ k ∈ (c.graph.node j).followed, c.Visited k := fun j hj k hk =>
    (hready k).1 (hw.led j hj k hk)
  refine ⟨(by simp), fun j hj => ?_, fun j hj => ?_, fun j hj k hk => ?_, fun ref t ht => ?_, (by simp),
    fun j hj e he => ?_, fun j hj slot arguments link hbody => ?_, hB⟩
  · obtain ⟨new, hnew⟩ := htold
    rw [Context.entered, ← hnew, Transcript.enteredNodes, Transcript.filterMap_reverse_append]
    exact List.mem_append_left _ (hw.entered j (hvisited j hj))
  · have hj := hvisited j hj
    have hripe := hw.ripe j hj
    have hkept : ∀ k, c.Visited k → (c.graph.node k).Kept (c'.graph.node k) := fun k hk => by
      rw [hsame k hk]
      exact Node.Kept.refl _
    refine ⟨?_, ?_, ?_, ?_, ?_, ?_, ?_, ?_, ?_⟩ <;> rw [hsame j hj]
    · exact hripe.kind
    · exact hripe.attached
    · simp only [hstored]
      exact hripe.target
    · exact hripe.items
    · exact hripe.allOf
    · intro parts hbody
      obtain ⟨declared, shapes, u, hparts, helements, hchildren, hiu, hu, hunion⟩ :=
        hripe.oneOf parts hbody
      have hmem : u ∈ (c.graph.node j).followed := by simp [Node.followed, hchildren]
      refine ⟨declared, shapes, u, hparts, helements, hchildren, hiu, hu.trans_le hsize, ?_⟩
      rw [hsame u (hled j hj u hmem)]
      exact hunion
    · intro shapes hbody
      obtain ⟨first, rest, v, hshapes, hchildren, hiv, hplanted⟩ := hripe.union shapes hbody
      exact ⟨first, rest, v, hshapes, hchildren, hiv, htold.subset hplanted⟩
    · intro parts hbody u hu
      exact (hripe.choice parts hbody u hu).kept (hkept u (hled j hj u (by simp [Node.followed, hu])))
    · intro first rest hbody v hv
      obtain ⟨hown, s, hdeclares, hshows⟩ := hripe.shape first rest hbody v hv
      have hvisited := hled j hj v (by simp [Node.followed, hv])
      exact ⟨hown.kept (hkept v hvisited), s, hdeclares, hshows.kept (hkept v hvisited) fun k hk _ =>
        hkept k (hled v hvisited k (by simp [Node.followed, hk]))⟩
  · have hj := hvisited j hj
    rw [hsame j hj] at hk
    exact (hready' k).2 (hled j hj k hk)
  · rw [hstored] at ht
    exact (hready' t).2 ((hready t).1 (hw.stored ref t ht))
  · have hj := (hready' j).1 hj
    rw [hsame j hj] at he
    obtain ⟨s, hkey, hprop⟩ := hw.entries j (.inl hj) e he
    have hmem : e.2 ∈ values (c.graph.node j).props := List.mem_map_of_mem he
    refine ⟨s, hkey, ?_⟩
    rwa [hsame e.2 (hled j hj e.2 (by simp [Node.followed, hmem]))]
  · have hj := (hready' j).1 hj
    rw [hsame j hj] at hbody
    obtain ⟨htype, hargs⟩ := hw.plain j (.inl hj) slot arguments link hbody
    exact ⟨htype, fun a ha => hA a (hargs a ha)⟩

end ApiGraph
