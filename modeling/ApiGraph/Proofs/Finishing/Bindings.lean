import ApiGraph.Proofs.Finishing.Gathering

/-!
# Properties and children side by side

A node that starts without properties and children gets properties one after another, any of them
more than once and several of one name. At any time its children are its properties.

* `Graph.Abreast` — the children of a node are its properties, each under its own name and no name
  twice;
* `Graph.Abreast.put`, `Graph.Abreast.gather` — binding a property, or any number of them, keeps
  them so;
* `Context.forM_put_eq` — properties whose names are keys can all be bound;
* `Context.abreast_of_puts` — what a node is after any sequence of bindings.
-/

namespace ApiGraph

open OrderedMap

/-- Of all that is bound under a key, the last one is found. -/
theorem OrderedMap.get?_insertAll_eq_find? {κ α : Type} [BEq κ] [EquivBEq κ] (key : κ)
    (m more : OrderedMap κ α) :
    get? key (insertAll m more) =
      ((more.reverse.find? fun e => e.1 == key).map Prod.snd).or (get? key m) := by
  induction more generalizing m with
  | nil => rfl
  | cons e rest ih =>
    have hstep : get? key (insertAll m (e :: rest)) = _ := ih (insert e.1 e.2 m)
    rw [hstep, get?_insert, List.reverse_cons, List.find?_append]
    cases hrest : rest.reverse.find? fun e => e.1 == key with
    | some found => rfl
    | none => by_cases hkey : e.1 == key <;> simp [hkey]

namespace Graph

variable {g g' : Graph} {i prop : NodeId} {key : Key}

/-- The key that a node is bound under, unless its name is none. -/
def nameKey? (g : Graph) (i : NodeId) : Option Key := (g.node i).name.key?

/-- The nodes with the keys that they are bound under. -/
def entries (g : Graph) (props : List NodeId) : OrderedMap Key NodeId :=
  props.filterMap fun p => (g.nameKey? p).map fun key => (key, p)

theorem keys_entries (g : Graph) (props : List NodeId) :
    keys (g.entries props) = props.filterMap g.nameKey? := by
  rw [keys, entries, List.map_filterMap]
  congr 1
  funext p
  cases g.nameKey? p <;> rfl

/-- The last of some nodes that is bound under a key. -/
theorem find?_reverse_entries (g : Graph) (props : List NodeId) (key : Key) :
    ((g.entries props).reverse.find? fun e => e.1 == key).map Prod.snd =
      props.reverse.find? fun p => (g.nameKey? p).any (· == key) := by
  rw [entries, ← List.filterMap_reverse]
  induction props.reverse with
  | nil => rfl
  | cons p rest ih =>
    cases hname : g.nameKey? p with
    | none => simpa [hname] using ih
    | some own =>
      by_cases hkey : own == key
      · simp [hname, hkey]
      · simpa [hname, hkey] using ih

/-- A property is bound under its own name, which may be spelt in another way. -/
def Named (g : Graph) (e : Key × NodeId) : Prop :=
  ∃ own, g.nameKey? e.2 = some own ∧ (e.1 == own) = true

theorem Named.congr {e : Key × NodeId} (h : g.Named e)
    (hnames : ∀ j, g'.nameKey? j = g.nameKey? j) : g'.Named e := by
  rwa [Named, hnames]

theorem nameKey?_put (g : Graph) (i : NodeId) (key : Key) (prop j : NodeId) :
    (g.update i fun n => n.putProperty key prop).nameKey? j = g.nameKey? j := by
  rw [nameKey?, node_update_eq]
  split
  · next hj => rw [Node.name_putProperty, hj.1, nameKey?]
  · rfl

theorem nameKey?_gather (g : Graph) (i : NodeId) (m : OrderedMap Key NodeId) (j : NodeId) :
    (g.gather i m).nameKey? j = g.nameKey? j := by
  induction m generalizing g with
  | nil => rfl
  | cons e rest ih => exact (ih _).trans (nameKey?_put g i e.1 e.2 j)

/-- The children of a node are its properties in their order, each under its own name and no name
twice. -/
structure Abreast (g : Graph) (i : NodeId) : Prop where
  children : (g.node i).children = (values (g.node i).props).map some
  distinct : Distinct (keys (g.node i).props)
  named : ∀ e ∈ (g.node i).props, g.Named e

namespace Abreast

/-- A property is found under its own name only. -/
theorem get?_of_mem_values (h : g.Abreast i) (hprop : prop ∈ values (g.node i).props)
    (hkey : g.nameKey? prop = some key) : get? key (g.node i).props = some prop := by
  obtain ⟨e, he, rfl⟩ := List.mem_map.1 hprop
  obtain ⟨own, hown, hbeq⟩ := h.named e he
  obtain rfl : own = key := Option.some.inj (hown.symm.trans hkey)
  rw [← get?_congr hbeq]
  exact get?_of_mem h.distinct he

/-- No property is bound under two names. -/
theorem nodup_values (h : g.Abreast i) : (values (g.node i).props).Nodup := by
  have hkeys : (g.node i).props.Pairwise fun a b => (a.1 == b.1) = false :=
    List.pairwise_map.1 h.distinct
  refine List.pairwise_map.2 (hkeys.imp_of_mem fun {a b} ha hb hne heq => ?_)
  obtain ⟨own, hown, hbeq⟩ := h.named a ha
  obtain ⟨own', hown', hbeq'⟩ := h.named b hb
  rw [heq, hown'] at hown
  cases hown
  rw [BEq.trans hbeq (BEq.symm hbeq')] at hne
  cases hne

/-- One more property is bound under its name: a new one, one in the place of another one, or one
that is there already. -/
theorem put (h : g.Abreast i) (hi : i.index < g.size) (hkey : g.nameKey? prop = some key) :
    (g.update i fun n => n.putProperty key prop).Abreast i := by
  have hself := node_update_self g hi fun n => n.putProperty key prop
  refine ⟨?_, ?_, ?_⟩ <;> rw [hself, Node.props_putProperty]
  · -- Unless its name is new, it is found under it if it is there at all.
    refine Node.children_putProperty h.children h.nodup_values fun hnone hmem => ?_
    rw [h.get?_of_mem_values hmem hkey] at hnone
    cases hnone
  · exact distinct_keys_insert h.distinct key prop
  · intro e he
    refine Named.congr ?_ (nameKey?_put g i key prop)
    rcases mem_insert he with he | rfl | ⟨old, -, hbeq, hvalue⟩
    · exact h.named e he
    · exact ⟨key, hkey, BEq.rfl⟩
    · exact ⟨key, hvalue ▸ hkey, hbeq⟩

/-- Any number of properties are bound under their names, one after the other. -/
theorem gather (h : g.Abreast i) (hi : i.index < g.size) {m : OrderedMap Key NodeId}
    (hm : ∀ e ∈ m, g.nameKey? e.2 = some e.1) : (g.gather i m).Abreast i := by
  induction m generalizing g with
  | nil => exact h
  | cons e rest ih =>
    obtain ⟨he, hrest⟩ := List.forall_mem_cons.1 hm
    refine ih (h.put hi he) (by rwa [size_update]) fun e' he' => ?_
    rw [nameKey?_put, hrest e' he']

end Abreast

theorem nameKey?_of_mem_entries {props : List NodeId} {e : Key × NodeId}
    (he : e ∈ g.entries props) : g.nameKey? e.2 = some e.1 := by
  obtain ⟨p, -, hp⟩ := List.mem_filterMap.1 he
  obtain ⟨key, hkey, rfl⟩ := Option.map_eq_some_iff.1 hp
  exact hkey

end Graph

namespace Context

variable {c : Context} {i : NodeId} {puts : List NodeId}

/-- Properties can be bound one after the other if their names are keys. -/
theorem forM_put_eq (hkeys : ∀ p ∈ puts, (c.graph.nameKey? p).isSome) (i : NodeId) :
    puts.forM (Run.put i) c =
      .ok () { c with graph := c.graph.gather i (c.graph.entries puts) } := by
  induction puts generalizing c with
  | nil => rfl
  | cons p rest ih =>
    obtain ⟨hp, hrest⟩ := List.forall_mem_cons.1 hkeys
    obtain ⟨key, hkey⟩ := Option.isSome_iff_exists.1 hp
    set g' := c.graph.update i fun n => n.putProperty key p with hg'
    have hnames : g'.nameKey? = c.graph.nameKey? :=
      funext (Graph.nameKey?_put c.graph i key p)
    have hentries : c.graph.entries (p :: rest) = (key, p) :: g'.entries rest := by
      simp only [Graph.entries, hnames, List.filterMap_cons, hkey, Option.map_some]
    show (Run.put i p >>= fun _ => rest.forM (Run.put i)) c = _
    rw [bind_of_ok (put_of_key_eq_some hkey i), hentries]
    exact ih fun p' hp' => by
      rw [show Graph.nameKey? _ = _ from hnames]
      exact hrest p' hp'

/-- Properties are bound at a node that has none, any of them any number of times, under names that
are keys. Whatever has been bound so far, the children of the node are its properties in their order,
all different. Each is bound under its own name, the names stand in the order in which they came
first, and under each name stands the last property that came with it. A property without a key for
a name is refused, and changes nothing. -/
theorem abreast_of_puts (hi : i.index < c.graph.size) (hprops : (c.graph.node i).props = [])
    (hchildren : (c.graph.node i).children = [])
    (hkeys : ∀ p ∈ puts, (c.graph.nameKey? p).isSome) :
    ∃ c', puts.forM (Run.put i) c = .ok () c' ∧
      (c'.graph.node i).children = (values (c'.graph.node i).props).map some ∧
      (c'.graph.node i).children.Nodup ∧
      (∀ e ∈ (c'.graph.node i).props, c'.graph.Named e) ∧
      keys (c'.graph.node i).props = (puts.filterMap c.graph.nameKey?).eraseDups ∧
      (∀ key, get? key (c'.graph.node i).props =
        puts.reverse.find? fun p => (c.graph.nameKey? p).any (· == key)) ∧
      (∀ j, c'.graph.nameKey? j = c.graph.nameKey? j) ∧
      (∀ j ≠ i, c'.graph.node j = c.graph.node j) ∧
      ∀ p, c'.graph.nameKey? p = none → Run.put i p c' = .error .malformed c' := by
  have hstart : c.graph.Abreast i := by
    refine ⟨?_, ?_, ?_⟩ <;> rw [hprops]
    · exact hchildren
    · exact List.Pairwise.nil
    · exact nofun
  have habreast := hstart.gather hi (m := c.graph.entries puts)
    fun _ he => Graph.nameKey?_of_mem_entries he
  have hmap : ((c.graph.gather i (c.graph.entries puts)).node i).props =
      insertAll [] (c.graph.entries puts) := by
    rw [Graph.props_gather hi, hprops]
  refine ⟨_, forM_put_eq hkeys i, habreast.children, ?_, habreast.named, ?_, fun key => ?_,
    Graph.nameKey?_gather c.graph i _, fun j hj => Graph.node_gather_of_ne hj _,
    fun p hp => put_of_key_eq_none hp i⟩
  · rw [habreast.children]
    exact List.pairwise_map.2 (habreast.nodup_values.imp fun hne he => hne (Option.some.inj he))
  · simp only [hmap, keys_insertAll, Graph.keys_entries]
    simp [keys, contains]
  · simp only [hmap, get?_insertAll_eq_find?, Graph.find?_reverse_entries]
    simp

/-- A node without properties, and three properties for it, two of them of one name. -/
def twoNames : Context where
  graph :=
    { nodes := #[
        { body := .object },
        { body := .property {} [] none, name := .str "name" },
        { body := .property {} [] none, name := .str "tag" },
        { body := .property {} [] none, name := .str "name" }] }

/-- A property is replaced, put again and replaced by the first one. -/
theorem abreast_of_puts_twoNames :
    (twoNames.graph.node ⟨0⟩).props = [] ∧ ∃ c',
      [⟨1⟩, ⟨2⟩, ⟨3⟩, ⟨3⟩, ⟨1⟩].forM (Run.put ⟨0⟩) twoNames = .ok () c' ∧
      (c'.graph.node ⟨0⟩).children = (values (c'.graph.node ⟨0⟩).props).map some ∧
      keys (c'.graph.node ⟨0⟩).props = [.text "name", .text "tag"] ∧
      get? (.text "name") (c'.graph.node ⟨0⟩).props = some ⟨1⟩ := by
  have hkeys : ∀ p ∈ [⟨1⟩, ⟨2⟩, ⟨3⟩, ⟨3⟩, ⟨1⟩], (twoNames.graph.nameKey? p).isSome := by
    simp only [List.forall_mem_cons]
    exact ⟨rfl, rfl, rfl, rfl, rfl, nofun⟩
  obtain ⟨c', hrun, hchildren, -, -, hnames, hlast, -⟩ :=
    abreast_of_puts (c := twoNames) (i := ⟨0⟩) (by decide) rfl rfl hkeys
  exact ⟨rfl, c', hrun, hchildren, hnames, hlast _⟩

end Context

end ApiGraph
