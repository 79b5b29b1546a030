import ApiGraph.Proofs.Graph.Sprout

/-!
# Properties under their names

A property that is bound under a text is called by that text, in planted declarations and wherever
properties are taken over under their names. No two properties of a node are bound under one name, and
there is no property without one.

* `Node.Titled` — a property is called by a text;
* `Graph.Tidy` — all properties of a graph are bound under their names, each name once;
* `Graph.Tidy.grow` — new names and properties keep a graph tidy;
* `Graph.tidy_plant` — so does a planted declaration.
-/

namespace ApiGraph

open OrderedMap

namespace Node

/-- If the node is a property, it is called by a text. -/
def Titled (n : Node) : Prop :=
  ∀ slot arguments link, n.body = .property slot arguments link → ∃ s, n.name = .str s

variable {n n' : Node}

theorem titled_of_slot?_eq_none (h : n.slot? = none) : n.Titled := by
  intro slot arguments link hbody
  rw [slot?, hbody] at h
  cases h

theorem titled_of_name {s : String} (h : n.name = .str s) : n.Titled := fun _ _ _ _ => ⟨s, h⟩

theorem Titled.kept (h : n.Titled) (hk : n.Kept n') : n'.Titled := by
  intro slot arguments link hbody
  rw [hk.name]
  have hslot := hk.slot?
  rcases hn : n.body with _ | _ | _ | _ | _ | _ | _ | ⟨slot', arguments', link'⟩ | slot'
  case property => exact h _ _ _ hn
  case parameter =>
    have hb := hk.body
    rw [hbody, hn] at hb
    cases link <;> cases hb
  all_goals
    rw [slot?, slot?, hbody, hn] at hslot
    cases hslot

theorem Titled.addArgument (h : n.Titled) (argument : Option NodeId) : (n.addArgument argument).Titled := by
  unfold Node.addArgument
  split
  · next hbody =>
    obtain ⟨s, hs⟩ := h _ _ _ hbody
    exact titled_of_name hs
  · exact h

end Node

namespace Graph

variable {g g' : Graph} {i prop : NodeId} {f : Node → Node} {n : Node}

/-- A node that is bound under a text is called by it. -/
def Called (g : Graph) (e : Key × NodeId) : Prop := ∀ s, e.1 = .text s → (g.node e.2).name = .str s

/-- All properties have names and are bound under them, each name once. -/
structure Tidy (g : Graph) : Prop where
  called : ∀ j, ∀ e ∈ (g.node j).props, g.Called e
  distinct : ∀ j, Distinct (keys (g.node j).props)
  titled : ∀ j, (g.node j).Titled

/-- A node with a name is there. -/
theorem lt_size_of_name {s : String} (h : (g.node i).name = .str s) : i.index < g.size := by
  refine Nat.lt_of_not_le fun hle => ?_
  rw [node_of_size_le hle] at h
  cases h

theorem Called.grow {e : Key × NodeId} (h : g.Called e)
    (hnames : ∀ j, j.index < g.size → (g'.node j).name = (g.node j).name) : g'.Called e := by
  intro s hs
  have hname := h s hs
  rw [hnames e.2 (lt_size_of_name hname), hname]

theorem Tidy.grow (h : g.Tidy) (hnames : ∀ j, j.index < g.size → (g'.node j).name = (g.node j).name)
    (hprops : ∀ j, ∀ e ∈ (g'.node j).props, e ∈ (g.node j).props ∨ g'.Called e)
    (hdistinct : ∀ j, Distinct (keys (g'.node j).props)) (htitled : ∀ j, (g'.node j).Titled) : g'.Tidy :=
  ⟨fun j e he => (hprops j e he).elim (fun he => (h.called j e he).grow hnames) id, hdistinct, htitled⟩

theorem tidy_empty : ({} : Graph).Tidy := by
  have hbare : ∀ j, ({} : Graph).node j = { body := .bare } := fun j => node_of_size_le (Nat.zero_le _)
  refine ⟨fun j e he => ?_, fun j => ?_, fun j => ?_⟩ <;> rw [hbare] at *
  · cases he
  · exact .nil
  · exact Node.titled_of_slot?_eq_none rfl

/-- A node is changed that keeps its name and gets only properties under their names. -/
theorem Tidy.update (h : g.Tidy) (hname : (f (g.node i)).name = (g.node i).name)
    (hprops : ∀ e ∈ (f (g.node i)).props, e ∈ (g.node i).props ∨ g.Called e)
    (hdistinct : Distinct (keys (g.node i).props) → Distinct (keys (f (g.node i)).props))
    (htitled : (g.node i).Titled → (f (g.node i)).Titled) : (g.update i f).Tidy := by
  have hnames : ∀ j, ((g.update i f).node j).name = (g.node j).name := by
    intro j
    rw [node_update_eq]
    split
    · next hj => rw [hname, hj.1]
    · rfl
  refine h.grow (fun j _ => hnames j) (fun j e he => ?_) (fun j => ?_) fun j => ?_
  · rw [node_update_eq] at he
    split at he
    · next hj =>
      rw [hj.1]
      exact (hprops e he).imp id fun he => he.grow fun j _ => hnames j
    · exact .inl he
  · rw [node_update_eq]
    split
    · exact hdistinct (h.distinct i)
    · exact h.distinct j
  · rw [node_update_eq]
    split
    · exact htitled (h.titled i)
    · exact h.titled j

/-- A node is changed that keeps its name and its properties. -/
theorem Tidy.update_of_props (h : g.Tidy) (hname : (f (g.node i)).name = (g.node i).name)
    (hprops : (f (g.node i)).props = (g.node i).props)
    (htitled : (g.node i).Titled → (f (g.node i)).Titled) : (g.update i f).Tidy :=
  h.update hname (fun _ he => .inl (hprops ▸ he)) (fun hdistinct => by rwa [hprops]) htitled

/-- A node is called by the text that its name is. -/
theorem called_of_key {key : Key} (h : (g.node prop).name.key? = some key) : g.Called (key, prop) := by
  rintro s rfl
  exact (Key.toJson_of_key?_eq_some h).symm

/-- A property that is bound under an equal key is called by it as well. -/
theorem called_of_mem_insert {key : Key} (hkey : g.Called (key, prop)) {e : Key × NodeId}
    {m : OrderedMap Key NodeId} (he : e ∈ OrderedMap.insert key prop m) : e ∈ m ∨ g.Called e := by
  rcases mem_insert he with he | rfl | ⟨-, -, hbeq, hvalue⟩
  · exact .inl he
  · exact .inr hkey
  · refine .inr fun s hs => ?_
    rw [hs] at hbeq
    rw [hvalue]
    exact hkey s (Key.eq_text_of_beq (BEq.symm hbeq))

/-- A node is bound under a key. If the key is a text, the node has to be called by it. -/
theorem Tidy.put {key : Key} (h : g.Tidy) (hkey : g.Called (key, prop)) :
    (g.update i fun n => n.putProperty key prop).Tidy :=
  h.update (Node.name_putProperty _ _ _)
    (fun _ he => called_of_mem_insert hkey (Node.props_putProperty _ _ _ ▸ he))
    (fun hdistinct => by
      rw [Node.props_putProperty]
      exact distinct_keys_insert hdistinct key prop)
    fun htitled slot arguments link hbody => by
      rw [Node.body_putProperty] at hbody
      rw [Node.name_putProperty]
      exact htitled slot arguments link hbody

/-- A node without a name, which is bound nowhere, gets one. -/
theorem Tidy.rename (h : g.Tidy) (hunnamed : (g.node i).name = .null) {name : Json} :
    (g.update i fun n => { n with name := name }).Tidy := by
  have hprops : ∀ j, ((g.update i fun n => { n with name := name }).node j).props =
      (g.node j).props := by
    intro j
    rw [node_update_eq]
    split
    · next hj => rw [hj.1]
    · rfl
  refine ⟨fun j e he s hs => ?_, fun j => ?_, fun j => ?_⟩
  · rw [hprops] at he
    have hname := h.called j e he s hs
    have hne : e.2 ≠ i := by
      intro heq
      rw [heq, hunnamed] at hname
      cases hname
    rw [node_update_of_ne g hne, hname]
  · rw [hprops]
    exact h.distinct j
  · rw [node_update_eq]
    split
    · intro slot arguments link hbody
      obtain ⟨s, hs⟩ := h.titled i slot arguments link hbody
      rw [hunnamed] at hs
      cases hs
    · exact h.titled j

theorem called_insertAll {m more : OrderedMap Key NodeId} (hm : ∀ e ∈ m, g.Called e)
    (hmore : ∀ e ∈ more, g.Called e) : ∀ e ∈ insertAll m more, g.Called e := by
  induction more generalizing m with
  | nil => exact hm
  | cons e rest ih =>
    obtain ⟨he, hrest⟩ := List.forall_mem_cons.1 hmore
    exact ih (fun e' he' => (called_of_mem_insert he he').elim (hm e') id) hrest

/-- What a node brings into a composition is called by its name. -/
theorem Tidy.called_of_propertiesWithin (h : g.Tidy) {steps : Nat} {props : OrderedMap Key NodeId}
    (hprops : g.propertiesWithin steps i = .ok props) : ∀ e ∈ props, g.Called e := by
  induction steps generalizing i with
  | zero => cases hprops
  | succ steps ih =>
    rw [propertiesWithin] at hprops
    split at hprops
    · exact ih hprops
    · cases hprops
      exact h.called i
    · cases hprops
      exact h.called i
    · cases hprops
      exact nofun

theorem Tidy.alloc (h : g.Tidy) (hprops : n.props = []) (htitled : n.Titled) : (g.alloc n).2.Tidy := by
  have hnew : ∀ j, g.size ≤ j.index → ((g.alloc n).2.node j).props = [] ∧ ((g.alloc n).2.node j).Titled := by
    intro j hj
    rcases Nat.eq_or_lt_of_le hj with heq | hlt
    · rw [← eq_of_index_eq (i := (g.alloc n).1) heq, node_alloc_self]
      exact ⟨hprops, htitled⟩
    · rw [node_of_size_le (by rw [size_alloc]; exact hlt)]
      exact ⟨rfl, Node.titled_of_slot?_eq_none rfl⟩
  refine h.grow (fun j hj => by rw [node_alloc_of_lt g n hj]) (fun j e he => .inl ?_) (fun j => ?_)
    fun j => ?_ <;> by_cases hj : j.index < g.size
  · rwa [node_alloc_of_lt g n hj] at he
  · rw [(hnew j (Nat.not_lt.1 hj)).1] at he
    cases he
  · rw [node_alloc_of_lt g n hj]
    exact h.distinct j
  · rw [(hnew j (Nat.not_lt.1 hj)).1]
    exact .nil
  · rw [node_alloc_of_lt g n hj]
    exact h.titled j
  · exact (hnew j (Nat.not_lt.1 hj)).2

/-- A new node is changed after a declaration was planted. It keeps its name and its properties. -/
theorem Tidy.fill {parent : Option NodeId} {schema : Schema}
    (h : ((g.alloc n).2.plant parent schema).2.Tidy) (hname : (f n).name = n.name)
    (hprops : (f n).props = n.props) (htitled : (f n).Titled) :
    (((g.alloc n).2.plant parent schema).2.update (g.alloc n).1 f).Tidy := by
  have hold : (g.alloc n).1.index < (g.alloc n).2.size := by
    rw [size_alloc]
    exact Nat.lt_succ_self g.size
  have hself : ((g.alloc n).2.plant parent schema).2.node (g.alloc n).1 = n := by
    rw [(planted_plant parent (g.alloc n).2 schema).1.node_eq _ hold, node_alloc_self]
  refine h.update_of_props ?_ ?_ fun _ => ?_ <;> rw [hself]
  · exact hname
  · exact hprops
  · exact htitled

mutual

/-- Planting a declaration keeps a graph tidy. -/
theorem tidy_plant (parent : Option NodeId) (g : Graph) (h : g.Tidy) : ∀ schema : Schema,
    (g.plant parent schema).2.Tidy
  | .ref _ => by
    rw [plant]
    exact h.alloc rfl (Node.titled_of_slot?_eq_none rfl)
  | .composed _ _ => by
    rw [plant]
    exact h.alloc rfl (Node.titled_of_slot?_eq_none rfl)
  | .scalar _ => by
    rw [plant]
    exact h.alloc rfl (Node.titled_of_slot?_eq_none rfl)
  | .array items => by
    rw [plant]
    have halloc : (g.alloc { body := .array none, parent := parent }).2.Tidy :=
      h.alloc rfl (Node.titled_of_slot?_eq_none rfl)
    exact (tidy_plant _ _ halloc items).fill rfl rfl (Node.titled_of_slot?_eq_none rfl)
  | .object properties => by
    rw [plant]
    have halloc : (g.alloc { body := .object, parent := parent }).2.Tidy :=
      h.alloc rfl (Node.titled_of_slot?_eq_none rfl)
    exact tidy_plantEach _ _ halloc properties

theorem tidy_plantProperty (parent : Option NodeId) (g : Graph) (h : g.Tidy) :
    ∀ p : PropertyOf Schema, (g.plantProperty parent p).2.Tidy
  | ⟨_, _, _, .ref _⟩ => by
    rw [plantProperty]
    exact h.alloc rfl (Node.titled_of_name rfl)
  | ⟨name, required, declaration, .composed kind members⟩ => by
    rw [plantProperty_plain parent g name required declaration (by simp)]
    exact (tidy_plant _ _ (h.alloc rfl (Node.titled_of_name rfl)) _).fill rfl rfl (Node.titled_of_name rfl)
  | ⟨name, required, declaration, .scalar type⟩ => by
    rw [plantProperty_plain parent g name required declaration (by simp)]
    exact (tidy_plant _ _ (h.alloc rfl (Node.titled_of_name rfl)) _).fill rfl rfl (Node.titled_of_name rfl)
  | ⟨name, required, declaration, .array items⟩ => by
    rw [plantProperty_plain parent g name required declaration (by simp)]
    exact (tidy_plant _ _ (h.alloc rfl (Node.titled_of_name rfl)) _).fill rfl rfl (Node.titled_of_name rfl)
  | ⟨name, required, declaration, .object properties⟩ => by
    rw [plantProperty_plain parent g name required declaration (by simp)]
    exact (tidy_plant _ _ (h.alloc rfl (Node.titled_of_name rfl)) _).fill rfl rfl (Node.titled_of_name rfl)

theorem tidy_plantEach (object : NodeId) (g : Graph) (h : g.Tidy) :
    ∀ properties : List (PropertyOf Schema), (g.plantEach object properties).Tidy
  | [] => h
  | p :: rest => by
    have hname := (planted_plantProperty (some object) g p).2.1.1
    rw [plantEach]
    refine tidy_plantEach object _ (Tidy.put (tidy_plantProperty _ g h p) fun s hs => ?_) rest
    cases hs
    exact hname

end

end Graph

end ApiGraph
