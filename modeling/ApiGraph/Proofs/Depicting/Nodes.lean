import Mathlib.Data.List.Forall2
import ApiGraph.Proofs.Depicting.Declarations
import ApiGraph.Proofs.Visiting.Visits

/-!
# Nodes that depict declarations

A node depicts the declaration that it was made for, with all that is below it, and goes on doing so
while it is visited.

* `OrderedMap.Aligned` — maps with the same keys and with values that belong together;
* `Graph.Depicts`, `Graph.DepictsProperty` — a node depicts a declaration or a property;
* `Graph.depicts_plant` — new nodes depict the declaration that they were planted for;
* `Graph.Depicts.kept` — they still do when the graph has grown;
* `Graph.DepictsEach.aligned` — the properties of an object are depicted under their names;
* `Graph.Shows` — what can be seen of a declaration in the node itself and in its properties.
-/

namespace ApiGraph

open OrderedMap Context

/-! ## Maps side by side -/

namespace OrderedMap

variable {κ α β γ : Type}

/-- Maps with the same keys in the same order, and with values that belong together. -/
def Aligned (R : α → β → Prop) (m : OrderedMap κ α) (m' : OrderedMap κ β) : Prop :=
  List.Forall₂ (fun e e' => e.1 = e'.1 ∧ R e.2 e'.2) m m'

variable {R R' : α → β → Prop} {m : OrderedMap κ α} {m' : OrderedMap κ β}

theorem Aligned.imp (h : Aligned R m m') (hR : ∀ a b, R a b → R' a b) : Aligned R' m m' :=
  List.Forall₂.imp (fun _ _ he => ⟨he.1, hR _ _ he.2⟩) h

theorem Aligned.keys_eq (h : Aligned R m m') : keys m = keys m' := by
  induction h with
  | nil => rfl
  | cons he _ ih => exact congrArg₂ List.cons he.1 ih

/-- The values of maps side by side belong together. -/
theorem Aligned.forall₂_values (h : Aligned R m m') : List.Forall₂ R (values m) (values m') := by
  induction h with
  | nil => exact .nil
  | cons he _ ih => exact .cons he.2 ih

theorem Aligned.exists_left (h : Aligned R m m') {b : β} (hb : b ∈ values m') :
    ∃ a ∈ values m, R a b :=
  exists_of_forall₂_left (R := flip R) h.forall₂_values.flip hb

/-- What holds of values of one key holds of values side by side. -/
theorem Aligned.imp_of_mem (h : Aligned R m m')
    (hR : ∀ key a b, (key, a) ∈ m → (key, b) ∈ m' → R a b → R' a b) : Aligned R' m m' := by
  induction h with
  | nil => exact .nil
  | @cons e e' rest rest' he _ ih =>
    obtain ⟨k, x⟩ := e
    obtain ⟨k', y⟩ := e'
    obtain ⟨hkey, hxy⟩ := he
    cases hkey
    refine .cons ⟨rfl, hR k x y List.mem_cons_self List.mem_cons_self hxy⟩ (ih fun key a b ha hb => ?_)
    exact hR key a b (List.mem_cons_of_mem _ ha) (List.mem_cons_of_mem _ hb)

variable [BEq κ]

theorem Aligned.insert (h : Aligned R m m') (key : κ) {a : α} {b : β} (hab : R a b) :
    Aligned R (OrderedMap.insert key a m) (OrderedMap.insert key b m') := by
  induction h with
  | nil => exact .cons ⟨rfl, hab⟩ .nil
  | @cons e e' rest rest' he hrest ih =>
    obtain ⟨k, x⟩ := e
    obtain ⟨k', y⟩ := e'
    obtain ⟨hkey, hxy⟩ := he
    cases hkey
    rw [OrderedMap.insert, OrderedMap.insert]
    split
    · exact .cons ⟨rfl, hab⟩ hrest
    · exact .cons ⟨rfl, hxy⟩ ih

theorem Aligned.insertAll (h : Aligned R m m') {more : OrderedMap κ α} {more' : OrderedMap κ β}
    (hmore : Aligned R more more') :
    Aligned R (OrderedMap.insertAll m more) (OrderedMap.insertAll m' more') := by
  induction hmore generalizing m m' with
  | nil => exact h
  | @cons e e' rest rest' he hrest ih =>
    obtain ⟨k, x⟩ := e
    obtain ⟨k', y⟩ := e'
    obtain ⟨hkey, hxy⟩ := he
    cases hkey
    exact ih (h.insert k hxy)

end OrderedMap

/-! ## Depiction -/

namespace Graph

mutual

/-- A node depicts a declaration. What a reference leads to and what a composition has gathered is not
part of it. -/
def Depicts (g : Graph) (i : NodeId) : Schema → Prop
  | .ref target => ∃ t, (g.node i).body = .ref ⟨target, t⟩
  | .composed kind parts => (g.node i).body = .composed kind (some parts)
  | .scalar type => (g.node i).body = .scalar type
  | .array items => ∃ k, (g.node i).body = .array (some k) ∧ Depicts g k items
  | .object properties =>
    (g.node i).body = .object ∧ DepictsEach g [] properties (g.node i).props

/-- A node depicts a property. -/
def DepictsProperty (g : Graph) (i : NodeId) : PropertyOf Schema → Prop
  | ⟨_, required, declaration, .ref target⟩ =>
    ∃ t, (g.node i).body = .property ⟨.bool required, declaration, none⟩ [] (some ⟨target, t⟩)
  | ⟨_, required, declaration, type⟩ =>
    ∃ t, (g.node i).body = .property ⟨.bool required, declaration, some t⟩ [] none ∧
      Depicts g t type

/-- A map grows by nodes that depict some properties, one by one. -/
def DepictsEach (g : Graph) (m : OrderedMap Key NodeId) :
    List (PropertyOf Schema) → OrderedMap Key NodeId → Prop
  | [], m' => m' = m
  | p :: rest, m' => ∃ k, DepictsProperty g k p ∧ DepictsEach g (insert (.text p.name) k m) rest m'

end

variable {g g' : Graph} {i : NodeId}

theorem depictsProperty_ref {name : String} {required : Bool} {declaration target : Json} :
    g.DepictsProperty i ⟨name, required, declaration, .ref target⟩ ↔
      ∃ t, (g.node i).body = .property ⟨.bool required, declaration, none⟩ []
        (some ⟨target, t⟩) := by
  rw [DepictsProperty]

theorem depictsProperty_plain {p : PropertyOf Schema} (h : ∀ target, p.type ≠ .ref target) :
    g.DepictsProperty i p ↔
      ∃ t, (g.node i).body = .property ⟨.bool p.required, p.declaration, some t⟩ [] none ∧
        g.Depicts t p.type := by
  obtain ⟨name, required, declaration, type⟩ := p
  rw [DepictsProperty]
  exact h

theorem lt_size_of_body {b : Body} (h : (g.node i).body = b) (hb : b ≠ .bare) : i.index < g.size := by
  refine Nat.lt_of_not_le fun hle => hb ?_
  rw [← h, node_of_size_le hle]

theorem Depicts.lt_size {s : Schema} (h : g.Depicts i s) : i.index < g.size := by
  cases s <;> simp only [Depicts] at h
  case ref => obtain ⟨t, h⟩ := h; exact lt_size_of_body h (by simp)
  case composed => exact lt_size_of_body h (by simp)
  case array => obtain ⟨k, h, -⟩ := h; exact lt_size_of_body h (by simp)
  case object => exact lt_size_of_body h.1 (by simp)
  case scalar => exact lt_size_of_body h (by simp)

/-- Only a reference is depicted by a reference. -/
theorem Depicts.eq_ref {s : Schema} {link : Link} (h : g.Depicts i s)
    (hbody : (g.node i).body = .ref link) : s = .ref link.ref := by
  cases s <;> simp only [Depicts, hbody] at h
  case ref =>
    obtain ⟨t, h⟩ := h
    cases h
    rfl
  case composed => cases h
  case array => obtain ⟨k, h, -⟩ := h; cases h
  case object => cases h.1
  case scalar => cases h

/-- A node that depicts a declaration has no slot. -/
theorem Depicts.slot? {s : Schema} (h : g.Depicts i s) : (g.node i).slot? = none := by
  cases s <;> simp only [Depicts] at h
  case ref => obtain ⟨t, h⟩ := h; rw [Node.slot?, h]
  case composed => rw [Node.slot?, h]
  case array => obtain ⟨k, h, -⟩ := h; rw [Node.slot?, h]
  case object => rw [Node.slot?, h.1]
  case scalar => rw [Node.slot?, h]

/-! ## Growth -/

end Graph

/-- Nodes of one kind, which have the same properties unless they gather them. -/
structure Node.Similar (n n' : Node) : Prop where
  body : n'.body.unlinked = n.body.unlinked
  props : n.body.isComposed = false → n'.props = n.props

theorem Node.Kept.similar {n n' : Node} (h : n.Kept n') : n.Similar n' := ⟨h.body, h.props⟩

/-- A body without a link stays the same. -/
theorem Node.Similar.body_eq {n n' : Node} (h : n.Similar n') (hlink : n.body.link? = none) :
    n'.body = n.body := by
  have hkept : n.Kept { n' with name := n.name, parent := n.parent, attached := n.attached } :=
    ⟨h.body, rfl, rfl, rfl, h.props⟩
  exact hkept.body_eq hlink

/-- A body with a link may get another target. -/
theorem Node.Similar.linked {n n' : Node} (h : n.Similar n') (link : Link)
    (hlink : n.body.link? = some link) : ∃ t, (n.body = .ref link ∧ n'.body = .ref ⟨link.ref, t⟩) ∨
      ∃ slot arguments, n.body = .property slot arguments (some link) ∧
        n'.body = .property slot arguments (some ⟨link.ref, t⟩) := by
  have hb := h.body
  rcases hn : n.body with _ | _ | _ | _ | _ | _ | l | ⟨s, as, _ | l⟩ | _ <;> rw [hn] at hlink hb <;>
    simp [Body.link?] at hlink <;> subst hlink <;>
    rcases hn' : n'.body with _ | _ | _ | _ | _ | _ | l' | ⟨s', as', _ | l'⟩ | _ <;> rw [hn'] at hb <;>
    simp [Body.unlinked] at hb
  · exact ⟨l'.target, .inl ⟨rfl, by rw [← hb]⟩⟩
  · obtain ⟨rfl, rfl, hb⟩ := hb
    exact ⟨l'.target, .inr ⟨s', as', rfl, by rw [← hb]⟩⟩

namespace Graph

variable {g g' : Graph} {i : NodeId}

/-- A set of nodes that has all fields, and whatever lies below a node of it. -/
structure Enclosed (g : Graph) (P : NodeId → Prop) : Prop where
  field : ∀ {i slot arguments link}, (g.node i).body = .property slot arguments link → P i
  below : ∀ {i}, P i → ∀ k ∈ (g.node i).below, P k

theorem enclosed_true (g : Graph) : g.Enclosed fun _ => True := ⟨fun _ => trivial, fun _ _ _ => trivial⟩

variable {P : NodeId → Prop}

mutual

/-- What a node depicts does not change as long as all nodes around it stay of their kinds. -/
theorem Depicts.similar (hP : g.Enclosed P)
    (hsame : ∀ j, P j → j.index < g.size → (g.node j).Similar (g'.node j)) : ∀ (s : Schema) (i : NodeId),
    P i → g.Depicts i s → g'.Depicts i s
  | .ref target, i, hi, h => by
    have hlt := h.lt_size
    rw [Depicts] at h ⊢
    obtain ⟨t, hbody⟩ := h
    obtain ⟨t', ⟨-, hbody'⟩ | ⟨slot, arguments, hbody', -⟩⟩ :=
      (hsame i hi hlt).linked ⟨target, t⟩ (by rw [hbody]; rfl)
    · exact ⟨t', hbody'⟩
    · rw [hbody] at hbody'
      cases hbody'
  | .composed kind parts, i, hi, h => by
    have hlt := h.lt_size
    rw [Depicts] at h ⊢
    rw [(hsame i hi hlt).body_eq (by rw [h]; rfl), h]
  | .scalar type, i, hi, h => by
    have hlt := h.lt_size
    rw [Depicts] at h ⊢
    rw [(hsame i hi hlt).body_eq (by rw [h]; rfl), h]
  | .array items, i, hi, h => by
    have hlt := h.lt_size
    rw [Depicts] at h ⊢
    obtain ⟨k, hbody, hk⟩ := h
    exact ⟨k, by rw [(hsame i hi hlt).body_eq (by rw [hbody]; rfl), hbody],
      Depicts.similar hP hsame items k (hP.below hi k (by simp [Node.below, hbody])) hk⟩
  | .object properties, i, hi, h => by
    have hlt := h.lt_size
    rw [Depicts] at h ⊢
    obtain ⟨hbody, heach⟩ := h
    rw [(hsame i hi hlt).body_eq (by rw [hbody]; rfl), (hsame i hi hlt).props (by rw [hbody]; rfl)]
    exact ⟨hbody, DepictsEach.similar hP hsame properties _ _ heach⟩

theorem DepictsProperty.similar (hP : g.Enclosed P)
    (hsame : ∀ j, P j → j.index < g.size → (g.node j).Similar (g'.node j)) :
    ∀ (p : PropertyOf Schema) (i : NodeId), g.DepictsProperty i p → g'.DepictsProperty i p
  | ⟨name, required, declaration, type⟩, i, h => by
    by_cases href : ∃ target, type = .ref target
    · obtain ⟨target, rfl⟩ := href
      rw [depictsProperty_ref] at h ⊢
      obtain ⟨t, hbody⟩ := h
      have hlt := lt_size_of_body hbody (by simp)
      obtain ⟨t', ⟨hbody', -⟩ | ⟨slot, arguments, hbody', hbody''⟩⟩ :=
        (hsame i (hP.field hbody) hlt).linked ⟨target, t⟩ (by rw [hbody]; rfl)
      · rw [hbody] at hbody'
        cases hbody'
      · rw [hbody] at hbody'
        cases hbody'
        exact ⟨t', hbody''⟩
    · have hplain : ∀ target, type ≠ .ref target := fun target he => href ⟨target, he⟩
      rw [depictsProperty_plain hplain] at h ⊢
      obtain ⟨t, hbody, ht⟩ := h
      have hi := hP.field hbody
      have hlt := lt_size_of_body hbody (by simp)
      exact ⟨t, by rw [(hsame i hi hlt).body_eq (by rw [hbody]; rfl), hbody],
        Depicts.similar hP hsame type t (hP.below hi t (by simp [Node.below, hbody])) ht⟩

theorem DepictsEach.similar (hP : g.Enclosed P)
    (hsame : ∀ j, P j → j.index < g.size → (g.node j).Similar (g'.node j)) :
    ∀ (properties : List (PropertyOf Schema)) (m m' : OrderedMap Key NodeId),
      g.DepictsEach m properties m' → g'.DepictsEach m properties m'
  | [], m, m', h => by
    rw [DepictsEach] at h ⊢
    exact h
  | p :: rest, m, m', h => by
    rw [DepictsEach] at h ⊢
    obtain ⟨k, hk, hrest⟩ := h
    exact ⟨k, DepictsProperty.similar hP hsame p k hk, DepictsEach.similar hP hsame rest _ _ hrest⟩

end

theorem Depicts.kept {s : Schema} (h : g.Depicts i s)
    (hkept : ∀ j, j.index < g.size → (g.node j).Kept (g'.node j)) : g'.Depicts i s :=
  Depicts.similar (enclosed_true g) (fun j _ hj => (hkept j hj).similar) s i trivial h

theorem DepictsProperty.kept {p : PropertyOf Schema} (h : g.DepictsProperty i p)
    (hkept : ∀ j, j.index < g.size → (g.node j).Kept (g'.node j)) : g'.DepictsProperty i p :=
  DepictsProperty.similar (enclosed_true g) (fun j _ hj => (hkept j hj).similar) p i h

/-! ## Planting -/

/-- A new node, in a graph that has it. -/
theorem node_of_alloc {n : Node}
    (hsame : ∀ j, g.size ≤ j.index → j.index < (g.alloc n).2.size → g'.node j = (g.alloc n).2.node j) :
    g'.node (g.alloc n).1 = n := by
  rw [hsame (g.alloc n).1 le_rfl (by rw [size_alloc]; exact Nat.lt_succ_self g.size), node_alloc_self]

/-- A new node and what is planted after it, in a graph that has them. -/
theorem node_of_planted {g₁ : Graph} {n : Node} {k : NodeId} {f : Node → Node}
    (hk : Planted (g.alloc n).2 g₁ k)
    (hsame : ∀ j, g.size ≤ j.index → j.index < (g₁.update (g.alloc n).1 f).size →
      g'.node j = (g₁.update (g.alloc n).1 f).node j) :
    g'.node (g.alloc n).1 = f n ∧
      ∀ j, (g.alloc n).2.size ≤ j.index → j.index < g₁.size → g'.node j = g₁.node j := by
  have hindex := hk.index
  have hlt := hk.sprout.lt_size
  rw [size_alloc] at hindex
  have hi : (g.alloc n).1.index < g₁.size := by
    show g.size < _
    omega
  rw [size_update] at hsame
  refine ⟨?_, fun j hj hj' => ?_⟩
  · have hold : (g.alloc n).1.index < (g.alloc n).2.size := by
      rw [size_alloc]
      exact Nat.lt_succ_self g.size
    rw [hsame (g.alloc n).1 le_rfl hi, node_update_self g₁ hi, hk.node_eq _ hold, node_alloc_self]
  · rw [size_alloc] at hj
    have hne : j ≠ (g.alloc n).1 := by
      rintro rfl
      exact absurd hj (Nat.not_succ_le_self g.size)
    rw [hsame j (by omega) hj', node_update_of_ne g₁ hne]

mutual

/-- New nodes depict the declaration that they were planted for, wherever they are found. -/
theorem depicts_plant (parent : Option NodeId) (g g' : Graph) : ∀ schema : Schema,
    (∀ j, g.size ≤ j.index → j.index < (g.plant parent schema).2.size →
      g'.node j = (g.plant parent schema).2.node j) →
    g'.Depicts (g.plant parent schema).1 schema
  | .ref target, hsame => by
    rw [plant] at hsame ⊢
    rw [Depicts, node_of_alloc hsame]
    exact ⟨none, rfl⟩
  | .composed kind members, hsame => by
    rw [plant] at hsame ⊢
    rw [Depicts, node_of_alloc hsame]
  | .scalar type, hsame => by
    rw [plant] at hsame ⊢
    rw [Depicts, node_of_alloc hsame]
  | .array items, hsame => by
    rw [plant] at hsame ⊢
    obtain ⟨hself, hitems⟩ := node_of_planted (planted_plant _ _ items).1 hsame
    rw [Depicts, hself]
    exact ⟨_, rfl, depicts_plant _ _ g' items hitems⟩
  | .object properties, hsame => by
    rw [plant] at hsame ⊢
    have halloc := planted_alloc g (n := { body := .object, parent := parent })
      (loose_of_body rfl (by simp)) (by simp) rfl rfl rfl rfl
    have hbody : ((g.alloc { body := .object, parent := parent }).2.node
        (g.alloc { body := .object, parent := parent }).1).body = .object := by
      rw [node_alloc_self]
    have hmore := extended_plantEach _ _ properties halloc.sprout hbody
    have hself := hsame (g.alloc { body := .object, parent := parent }).1 le_rfl hmore.sprout.lt_size
    have heach := depictsEach_plantEach _ _ g' properties halloc.sprout hbody fun j hj hj' =>
      hsame j ((Nat.le_succ _).trans (by rwa [size_alloc] at hj)) hj'
    rw [node_alloc_self] at heach
    rw [Depicts, hself]
    exact ⟨hmore.body, heach⟩

theorem depictsProperty_plantProperty (parent : Option NodeId) (g g' : Graph) :
    ∀ p : PropertyOf Schema,
    (∀ j, g.size ≤ j.index → j.index < (g.plantProperty parent p).2.size →
      g'.node j = (g.plantProperty parent p).2.node j) →
    g'.DepictsProperty (g.plantProperty parent p).1 p
  | ⟨name, required, declaration, type⟩, hsame => by
    by_cases href : ∃ target, type = .ref target
    · obtain ⟨target, rfl⟩ := href
      rw [plantProperty] at hsame ⊢
      rw [depictsProperty_ref, node_of_alloc hsame]
      exact ⟨none, rfl⟩
    · have hplain : ∀ target, type ≠ .ref target := fun target he => href ⟨target, he⟩
      rw [plantProperty_plain parent g name required declaration hplain] at hsame ⊢
      obtain ⟨hself, htype⟩ := node_of_planted (planted_plant _ _ type).1 hsame
      rw [depictsProperty_plain hplain, hself]
      exact ⟨_, rfl, depicts_plant _ _ g' type htype⟩

theorem depictsEach_plantEach (object : NodeId) (g g' : Graph) :
    ∀ properties : List (PropertyOf Schema), Sprout g object g.size →
      (g.node object).body = .object →
      (∀ j, g.size ≤ j.index → j.index < (g.plantEach object properties).size →
        g'.node j = (g.plantEach object properties).node j) →
      g'.DepictsEach (g.node object).props properties
        ((g.plantEach object properties).node object).props
  | [], _, _, _ => by
    rw [DepictsEach]
    rfl
  | p :: rest, h, hobject, hsame => by
    obtain ⟨hplanted, hprop, hparent⟩ := planted_plantProperty (some object) g p
    have hfirst := extended_put h hobject hplanted hprop hparent
    have hmore := extended_plantEach object _ rest hfirst.sprout hfirst.body
    have hlt : object.index < (g.plantProperty (some object) p).2.size :=
      hfirst.sprout.lt_size.trans_eq (size_update _ _ _)
    rw [plantEach] at hsame ⊢
    rw [DepictsEach]
    refine ⟨_, depictsProperty_plantProperty (some object) g g' p fun j hj hj' => ?_, ?_⟩
    · have hne : j ≠ object := by
        rintro rfl
        exact absurd h.lt_size (Nat.not_lt.2 hj)
      rw [hsame j hj (hj'.trans_le ((size_update _ _ _).ge.trans hmore.size_le)),
        hmore.node_eq j (by rwa [size_update]) hne, node_update_of_ne _ hne]
    · have heach := depictsEach_plantEach object _ g' rest hfirst.sprout hfirst.body fun j hj hj' =>
        hsame j (hfirst.size_le.trans hj) hj'
      rwa [node_update_self _ hlt, Node.props_putProperty, hplanted.node_eq object h.lt_size] at heach

end

/-! ## Properties of objects -/

variable {m m' : OrderedMap Key NodeId} {properties : List (PropertyOf Schema)}

theorem DepictsEach.aligned {declared : OrderedMap Key (PropertyOf Schema)}
    (h : g.DepictsEach m properties m') (hm : Aligned g.DepictsProperty m declared) :
    Aligned g.DepictsProperty m'
      (OrderedMap.insertAll declared (properties.map fun p => (.text p.name, p))) := by
  induction properties generalizing m declared with
  | nil =>
    rw [DepictsEach] at h
    rwa [h]
  | cons p rest ih =>
    rw [DepictsEach] at h
    obtain ⟨k, hk, hrest⟩ := h
    exact ih hrest (hm.insert (.text p.name) hk)

/-- The properties of an object are depicted under their names. -/
theorem Depicts.aligned (h : g.Depicts i (.object properties)) :
    Aligned g.DepictsProperty (g.node i).props (Document.declared properties) := by
  rw [Depicts] at h
  exact h.2.aligned .nil

theorem Depicts.exists_property (h : g.Depicts i (.object properties)) {k : NodeId}
    (hk : k ∈ values (g.node i).props) : ∃ p ∈ properties, g.DepictsProperty k p := by
  obtain ⟨p, hp, hdepicts⟩ := exists_of_forall₂_left h.aligned.forall₂_values hk
  exact ⟨p, Document.mem_of_mem_declared hp, hdepicts⟩

/-! ## What a node shows of its declaration -/

/-- A property is required and declared as a property says. -/
def ShowsProperty (g : Graph) (k : NodeId) (p : PropertyOf Schema) : Prop :=
  ∃ type link, (g.node k).body = .property ⟨.bool p.required, p.declaration, type⟩ [] link

/-- A node is of the kind of a declaration, and holds the properties that an object declares. Other than
depicting, this does not depend on what lies further below. -/
def Shows (g : Graph) (i : NodeId) : Schema → Prop
  | .ref target => ∃ t, (g.node i).body = .ref ⟨target, t⟩
  | .composed kind parts => (g.node i).body = .composed kind (some parts)
  | .scalar type => (g.node i).body = .scalar type
  | .array _ => ∃ k, (g.node i).body = .array (some k)
  | .object properties => (g.node i).body = .object ∧
    Aligned g.ShowsProperty (g.node i).props (Document.declared properties)

theorem DepictsProperty.shows {k : NodeId} {p : PropertyOf Schema} (h : g.DepictsProperty k p) :
    g.ShowsProperty k p := by
  obtain ⟨name, required, declaration, type⟩ := p
  by_cases href : ∃ target, type = .ref target
  · obtain ⟨target, rfl⟩ := href
    obtain ⟨t, hbody⟩ := depictsProperty_ref.1 h
    exact ⟨none, _, hbody⟩
  · obtain ⟨t, hbody, -⟩ := (depictsProperty_plain fun target he => href ⟨target, he⟩).1 h
    exact ⟨some t, none, hbody⟩

theorem Depicts.shows {s : Schema} (h : g.Depicts i s) : g.Shows i s := by
  cases s with
  | object properties =>
    refine ⟨?_, h.aligned.imp fun _ _ hk => hk.shows⟩
    rw [Depicts] at h
    exact h.1
  | array items =>
    rw [Depicts] at h
    obtain ⟨k, hbody, -⟩ := h
    exact ⟨k, hbody⟩
  | ref target => rwa [Depicts] at h
  | composed kind parts => rwa [Depicts] at h
  | scalar type => rwa [Depicts] at h

theorem ShowsProperty.kept {k : NodeId} {p : PropertyOf Schema} (h : g.ShowsProperty k p)
    (hkept : (g.node k).Kept (g'.node k)) : g'.ShowsProperty k p := by
  obtain ⟨type, link, hbody⟩ := h
  cases link with
  | none => exact ⟨type, none, by rw [hkept.body_eq (by rw [hbody]; rfl), hbody]⟩
  | some link =>
    obtain ⟨t, ⟨hbody', -⟩ | ⟨slot, arguments, hbody', hbody''⟩⟩ :=
      hkept.similar.linked link (by rw [hbody]; rfl) <;> rw [hbody] at hbody' <;> cases hbody'
    exact ⟨type, _, hbody''⟩

/-- What a node shows stays as long as the node and its properties are kept. -/
theorem Shows.kept {s : Schema} (h : g.Shows i s) (hi : (g.node i).Kept (g'.node i))
    (hprops : ∀ k ∈ values (g.node i).props, k.index < g.size → (g.node k).Kept (g'.node k)) :
    g'.Shows i s := by
  cases s with
  | ref target =>
    obtain ⟨t, hbody⟩ := h
    obtain ⟨t', ⟨-, hbody'⟩ | ⟨slot, arguments, hbody', -⟩⟩ :=
      hi.similar.linked ⟨target, t⟩ (by rw [hbody]; rfl)
    · exact ⟨t', hbody'⟩
    · rw [hbody] at hbody'
      cases hbody'
  | composed kind parts =>
    have hbody : (g.node i).body = .composed kind (some parts) := h
    exact (hi.body_eq (by rw [hbody]; rfl)).trans hbody
  | scalar type =>
    have hbody : (g.node i).body = .scalar type := h
    exact (hi.body_eq (by rw [hbody]; rfl)).trans hbody
  | array items =>
    obtain ⟨k, hbody⟩ := h
    exact ⟨k, (hi.body_eq (by rw [hbody]; rfl)).trans hbody⟩
  | object properties =>
    obtain ⟨hbody, haligned⟩ := h
    refine ⟨(hi.body_eq (by rw [hbody]; rfl)).trans hbody, ?_⟩
    rw [hi.props (by rw [hbody]; rfl)]
    have hmem := (List.forall₂_and_left (p := (· ∈ (g.node i).props)) _ _).2 ⟨fun _ => id, haligned⟩
    refine hmem.imp fun e e' h => ⟨h.2.1, h.2.2.kept (hprops e.2 (List.mem_map_of_mem h.1) ?_)⟩
    obtain ⟨type, link, hprop⟩ := h.2.2
    exact lt_size_of_body hprop (by simp)

end Graph

/-! ## New nodes of a run -/

variable {d : Document} {c c' : Context} {i : NodeId}

/-- New nodes depict their declaration in every graph that has them. -/
theorem Sprouted.depicts_of_eq {parent : Option NodeId} {schema : Json}
    (h : Sprouted c parent schema i c') {g : Graph} (hsame : ∀ j, c.graph.size ≤ j.index →
      j.index < c'.graph.size → g.node j = c'.graph.node j) :
    ∃ s, schema.Declares s ∧ g.Depicts i s := by
  obtain ⟨owner, s, hread, hplant⟩ := h.grown
  have hdepicts := Graph.depicts_plant parent c.graph g s
  rw [hplant] at hdepicts
  exact ⟨s, ⟨owner, hread⟩, hdepicts hsame⟩

theorem Sprouted.depicts {parent : Option NodeId} {schema : Json}
    (h : Sprouted c parent schema i c') : ∃ s, schema.Declares s ∧ c'.graph.Depicts i s :=
  h.depicts_of_eq fun _ _ _ => rfl

theorem Bound.depicts {owner : Option NodeId} {ref : Json} (h : Bound d c owner ref i c') :
    ∃ s, d.Declares ref s ∧ c'.graph.Depicts i s := by
  obtain ⟨declaration, c₁, c₂, hlookup, -, hsprouted, hgraph'⟩ := h.built
  obtain ⟨s, hdeclares, hdepicts⟩ := hsprouted.depicts
  refine ⟨s, ⟨declaration, hlookup, hdeclares⟩, ?_⟩
  refine Graph.Depicts.similar (Graph.enclosed_true c₂.graph) (fun j _ hj => ?_) s i trivial hdepicts
  rw [hgraph']
  by_cases hne : j = i
  · rw [hne, Graph.node_update_self c₂.graph hdepicts.lt_size]
    exact ⟨rfl, fun _ => rfl⟩
  · rw [Graph.node_update_of_ne c₂.graph hne]
    exact ⟨rfl, fun _ => rfl⟩

end ApiGraph
