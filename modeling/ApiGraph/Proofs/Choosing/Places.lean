import ApiGraph.Proofs.Selecting.Reflections
import ApiGraph.Proofs.Succeeding.Declarations

/-!
# Corresponding places

Two runs that have read the same declarations hold the same types, though at other places of their
graphs. Types correspond that are stored under one reference, and those to which the same way leads from
types that correspond. As no node has two owners, nor a second place below the one it has, they
correspond one to one.

* `Branch`, `View.Leads` — from a node to one that it owns;
* `View.Settled` — the graph of a run between visits, seen from the field of an operation;
* `View.Placed` — nodes in corresponding places;
* `View.Placed.functional` — one node has one counterpart;
* `View.mirrors` — the graphs mirror each other.
-/

namespace ApiGraph

open OrderedMap Context

/-- The place that a node has below its owner. -/
inductive Branch where
  | items
  | type
  | child
  | property (name : String)
  | member (position : Nat)

/-- The graph of a run as it is seen from a field, with what the members of its compositions hold. -/
structure View where
  context : Context
  field : NodeId
  held : NodeId → List (NodeId × OrderedMap Key NodeId)

/-- The values of a key in maps side by side belong together. -/
theorem OrderedMap.Aligned.get? {κ α β : Type} [BEq κ] {R : α → β → Prop} {m : OrderedMap κ α}
    {m' : OrderedMap κ β} (h : Aligned R m m') (key : κ) :
    Option.Rel R (OrderedMap.get? key m) (OrderedMap.get? key m') := by
  induction h with
  | nil => exact .none
  | @cons e e' rest rest' he _ ih =>
    obtain ⟨k, x⟩ := e
    obtain ⟨k', y⟩ := e'
    obtain ⟨hkey, hxy⟩ := he
    cases hkey
    rw [get?_cons, get?_cons]
    split
    · exact .some hxy
    · exact ih

/-- Maps side by side that are bound one after the other. -/
theorem OrderedMap.Aligned.mergeAll {κ α β : Type} [BEq κ] {R : α → β → Prop}
    {maps : List (OrderedMap κ α)} {maps' : List (OrderedMap κ β)}
    (h : List.Forall₂ (Aligned R) maps maps') :
    Aligned R (OrderedMap.mergeAll maps) (OrderedMap.mergeAll maps') := by
  have hfold : ∀ {m m'}, Aligned R m m' →
      Aligned R (maps.foldl OrderedMap.insertAll m) (maps'.foldl OrderedMap.insertAll m') := by
    intro m m' hm
    induction h generalizing m m' with
    | nil => exact hm
    | cons hfirst _ ih => exact ih (hm.insertAll hfirst)
  exact hfold .nil

namespace View

/-- The graph that is seen. -/
abbrev graph (v : View) : Graph := v.context.graph

/-- From a node to one that it owns. A composition owns its members, but not their properties. -/
inductive Leads (v : View) (i : NodeId) : Branch → NodeId → Prop
  | items {k : NodeId} (body : (v.graph.node i).body = .array (some k)) : v.Leads i .items k
  | type {slot : Slot} {arguments : List (Option NodeId)} {k : NodeId}
      (body : (v.graph.node i).body = .property slot arguments none) (type : slot.type = some k) :
      v.Leads i .type k
  | union {parts : Option Json} {u : NodeId} (body : (v.graph.node i).body = .composed .oneOf parts)
      (children : (v.graph.node i).children = [some u]) : v.Leads i .child u
  | shape {shapes : List Json} {k : NodeId} (body : (v.graph.node i).body = .union shapes)
      (children : (v.graph.node i).children = [some k]) : v.Leads i .child k
  | property {name : String} {k : NodeId} (body : (v.graph.node i).body = .object)
      (bound : get? (.text name) (v.graph.node i).props = some k) : v.Leads i (.property name) k
  | member {parts : Option Json} {n : Nat} {k : NodeId}
      (body : (v.graph.node i).body = .composed .allOf parts)
      (held : ((v.held i).map Prod.fst)[n]? = some k) : v.Leads i (.member n) k

/-- The graph of a run between visits, seen from the field of an operation that was visited. -/
structure Settled (A : NodeId → Prop) (d : Document) (query : NodeId) (v : View) : Prop where
  rest : v.context.AtRest A d (some query)
  unvisited : ¬v.context.Visited query
  faithful : v.context.Faithful d
  visited : v.context.Visited v.field
  isField : (v.graph.node v.field).body.IsField
  parent : (v.graph.node v.field).parent = some query
  gathered : ∀ i members, v.context.Visited i → (v.graph.node i).body = .composed .allOf members →
    ∃ parts elements, members = some parts ∧ parts.elements = .ok elements ∧
      v.graph.Gathered i elements (v.held i) ∧
      (v.graph.node i).props = mergeAll ((v.held i).map Prod.snd)

end View

/-- The node at a place among the members of a composition depicts the declaration at that place. -/
theorem Graph.Gathered.exists_member {g : Graph} {i k : NodeId} {elements : List Json}
    {held : List (NodeId × OrderedMap Key NodeId)} (h : g.Gathered i elements held) {n : Nat}
    (hk : (held.map Prod.fst)[n]? = some k) :
    ∃ w s, elements[n]? = some w ∧ w.Declares s ∧ g.Depicts k s := by
  rw [List.getElem?_map, Option.map_eq_some_iff] at hk
  obtain ⟨e, he, rfl⟩ := hk
  obtain ⟨hlt, rfl⟩ := List.getElem?_eq_some_iff.1 he
  obtain ⟨hlength, hall⟩ := List.forall₂_iff_get.1 h.contributes
  have hlt' : n < elements.length := hlength ▸ hlt
  obtain ⟨s, hdeclares, hdepicts⟩ := (hall n hlt' hlt).member
  exact ⟨_, s, List.getElem?_eq_getElem hlt', hdeclares, hdepicts⟩

namespace View

variable {A A' : NodeId → Prop} {d : Document} {query query' : NodeId} {v v' : View} {b b' : Branch}
  {i i' j k k' : NodeId}

/-! ## Ways to owned nodes -/

namespace Settled

variable (h : v.Settled A d query)

include h

theorem exact : v.context.Exact A d := ⟨h.rest.whole, h.faithful⟩

theorem visited_of_leads (hi : v.context.Visited i) (hk : v.Leads i b k) : v.context.Visited k := by
  have hfollowed : k ∈ (v.graph.node i).followed → v.context.Visited k := h.exact.visited_of_followed hi
  cases hk with
  | items body => exact hfollowed (by simp [Node.followed, Node.items?, body])
  | type body type => exact hfollowed (by simp [Node.followed, Node.type?, Node.slot?, body, type])
  | union body children | shape body children => exact hfollowed (by simp [Node.followed, children])
  | property body bound =>
    obtain ⟨key, hmem, -⟩ := exists_mem_of_get? bound
    have hvalue : k ∈ values (v.graph.node i).props := List.mem_map_of_mem (f := Prod.snd) hmem
    exact hfollowed (by simp [Node.followed, hvalue])
  | member body held =>
    obtain ⟨parts, elements, -, -, hgathered, -⟩ := h.gathered i _ hi body
    obtain ⟨e, he, rfl⟩ := List.mem_map.1 (List.mem_of_getElem? held)
    obtain ⟨w, -, hcontributes⟩ := exists_of_forall₂_left hgathered.contributes.flip he
    exact hcontributes.visited

/-- A node owns those that it leads to. -/
theorem owns_of_leads (hi : v.context.Visited i) (hk : v.Leads i b k) : v.graph.Owns i k := by
  have hdrawn := h.faithful.drawn i hi
  cases hk with
  | items body => exact hdrawn.owns k (by simp [Node.below, body])
  | type body type => exact hdrawn.owns k (by simp [Node.below, body, type])
  | union body children => exact hdrawn.choice _ body k (by simp [children])
  | shape body children =>
    obtain ⟨first, rest, -, rfl, -⟩ := (h.rest.whole.ripe i hi).union _ body
    obtain ⟨k', s, hk', -, -, hown⟩ := hdrawn.union first rest body
    rw [children] at hk'
    cases hk'
    exact hown
  | property body bound =>
    obtain ⟨key, hmem, -⟩ := exists_mem_of_get? bound
    refine hdrawn.owns k ?_
    rw [Node.below, body]
    exact List.mem_map_of_mem hmem
  | member body held =>
    obtain ⟨parts, elements, -, -, hgathered, -⟩ := h.gathered i _ hi body
    obtain ⟨e, he, rfl⟩ := List.mem_map.1 (List.mem_of_getElem? held)
    exact hgathered.owns e he

/-- The properties of an object have the names that they are bound to. -/
theorem name_of_property {name : String} (hi : v.context.Visited i)
    (hk : v.Leads i (.property name) k) : (v.graph.node k).IsProperty name := by
  cases hk with
  | property body bound =>
    obtain ⟨key, hmem, hkey⟩ := exists_mem_of_get? bound
    obtain ⟨s, hs, hprop⟩ := h.rest.whole.entries i (.inl hi) _ hmem
    obtain rfl : key = .text s := hs
    obtain rfl : s = name := by simpa using hkey
    exact hprop

/-- A node is led to by one branch only. -/
theorem branch_eq (hi : v.context.Visited i) (hk : v.Leads i b k) (hk' : v.Leads i b' k) : b = b' := by
  have hnames : ∀ {name name'}, v.Leads i (.property name) k → v.Leads i (.property name') k →
      name = name' := by
    intro name name' hk hk'
    have hname := (h.name_of_property hi hk).1
    rw [(h.name_of_property hi hk').1] at hname
    exact (Json.str.inj hname).symm
  cases hk with
  | items body | type body type | union body children | shape body children =>
    cases hk' <;> first | rfl | simp_all
  | property body bound =>
    cases hk' with
    | property body' bound' => rw [hnames (.property body bound) (.property body' bound')]
    | _ => simp_all
  | member body held =>
    cases hk' with
    | member body' held' =>
      obtain ⟨parts, elements, -, -, hgathered, -⟩ := h.gathered i _ hi body
      obtain ⟨hlt, -⟩ := List.getElem?_eq_some_iff.1 held
      rw [(List.getElem?_inj hlt hgathered.nodup).1 (held.trans held'.symm)]
    | _ => simp_all

/-- No node that was visited owns the field. -/
theorem not_owns_field (hi : v.context.Visited i) : ¬v.graph.Owns i v.field := by
  intro hown
  have hparent := hown.parent
  rw [h.parent] at hparent
  cases hparent
  exact h.unvisited hi

/-- What is stored under a reference is named for it, and is no field. -/
theorem name_of_stored {ref : Json} (hi : v.context.stored? ref = some i) :
    (v.graph.node i).name = ref ∧ ref.isNull = false ∧ (v.graph.node i).slot? = none := by
  obtain ⟨⟨text, rfl, -⟩, -, -, hname, hslot, -⟩ :=
    h.rest.sound.built ref i (h.rest.sound.stored?_eq_some_iff.1 hi)
  exact ⟨hname, rfl, hslot⟩

/-- Nobody owns what is stored. -/
theorem not_owns_stored {ref : Json} (hk : v.context.stored? ref = some k) : ¬v.graph.Owns i k := by
  intro hown
  obtain ⟨hname, hnull, hslot⟩ := h.name_of_stored hk
  have hunnamed := hown.unnamed hslot
  rw [hname, hnull] at hunnamed
  cases hunnamed

/-- What a node brings into compositions is what it has, unless it is a reference. -/
theorem properties_eq (hi : v.context.Visited i) {s : Schema} (hdepicts : v.graph.Depicts i s)
    (hs : ∀ ref, s ≠ .ref ref) {props : OrderedMap Key NodeId}
    (hprops : v.graph.propertiesOf i = .ok props) : props = (v.graph.node i).props := by
  rw [Graph.propertiesOf, Graph.propertiesWithin] at hprops
  have hbare := (h.faithful.drawn i hi).bare
  split at hprops
  · next ref t hbody => exact absurd (hdepicts.eq_ref hbody) (hs ref)
  · exact (Except.ok.inj hprops).symm
  · exact (Except.ok.inj hprops).symm
  · next hobject hcomposed =>
    rw [hbare ?_ hobject]
    · exact (Except.ok.inj hprops).symm
    · cases hbody : (v.graph.node i).body <;> first | rfl | exact absurd hbody (hcomposed _ _)

theorem properties_eq_nil (hi : v.context.Visited i) {s : Schema} (hdepicts : v.graph.Depicts i s)
    (hs : ∀ ref, s ≠ .ref ref) (hbrings : d.Brings s []) {props : OrderedMap Key NodeId}
    (hprops : v.graph.propertiesOf i = .ok props) : props = [] := by
  obtain ⟨m, hm, haligned⟩ := (h.rest.sketched h.faithful (Eq s)).brings hi hdepicts rfl
    (fun ref href => absurd href (hs ref)) hprops
  cases hbrings.unique hm
  cases haligned
  rfl

/-- A reference brings into compositions what it was resolved to does. -/
theorem target_of_depicts (hi : v.context.Visited i) {ref : Json}
    (hdepicts : v.graph.Depicts i (.ref ref)) {props : OrderedMap Key NodeId}
    (hprops : v.graph.propertiesOf i = .ok props) :
    ∃ t s, v.context.stored? ref = some t ∧ d.Declares ref s ∧ v.graph.Depicts t s ∧
      v.graph.propertiesOf t = .ok props := by
  rw [Graph.Depicts] at hdepicts
  obtain ⟨t, hbody⟩ := hdepicts
  obtain ⟨t, rfl, hstored⟩ := (h.rest.whole.ripe i hi).target ⟨ref, t⟩ (by rw [hbody]; rfl)
  obtain ⟨s, hdeclares, hdepicts⟩ := h.faithful.stored ref t hstored
  rw [Graph.propertiesOf, Graph.propertiesWithin] at hprops
  simp only [hbody] at hprops
  exact ⟨t, s, hstored, hdeclares, hdepicts, Graph.propertiesOf_of_propertiesWithin hprops⟩

theorem field_ne_stored {ref : Json} : v.context.stored? ref ≠ some v.field := by
  intro hstored
  obtain ⟨-, -, hslot⟩ := h.name_of_stored hstored
  obtain ⟨slot, arguments, link, hbody⟩ := h.isField
  rw [Node.slot?, hbody] at hslot
  cases hslot

end Settled

/-- A branch leads to one node only. -/
theorem Leads.unique (hk : v.Leads i b k) (hk' : v.Leads i b k') : k = k' := by
  cases hk <;> cases hk' <;> simp_all

/-! ## Corresponding places -/

/-- Nodes in corresponding places, as they are seen from fields: the fields themselves, what is stored
under the same reference, and what is led to by the same branch. -/
inductive Placed (v v' : View) : NodeId → NodeId → Prop
  | field : Placed v v' v.field v'.field
  | stored {ref : Json} {i i' : NodeId} (stored : v.context.stored? ref = some i)
      (stored' : v'.context.stored? ref = some i') : Placed v v' i i'
  | branch {b : Branch} {i i' k k' : NodeId} (owner : Placed v v' i i') (leads : v.Leads i b k)
      (leads' : v'.Leads i' b k') : Placed v v' k k'

theorem Placed.symm (hp : v.Placed v' i i') : v'.Placed v i' i := by
  induction hp with
  | field => exact .field
  | stored stored stored' => exact .stored stored' stored
  | branch _ leads leads' ih => exact .branch ih leads' leads

variable (h : v.Settled A d query) (h' : v'.Settled A' d query')

section

include h h'

/-- Alike nodes lead to alike nodes. -/
theorem Settled.alike_of_leads (hi : v.context.Visited i) (hi' : v'.context.Visited i')
    (halike : v.graph.Alike v'.graph i i') (hk : v.Leads i b k) (hk' : v'.Leads i' b k') :
    v.graph.Alike v'.graph k k' := by
  have hmatching : ¬(v.graph.node i).body.IsField →
      (v.graph.node i).Matching (Paired v.context v'.context) (v'.graph.node i') := by
    intro hnot
    exact h.exact.matching h'.exact ⟨hi, hi', halike.twins hnot⟩
  have hinside : ¬(v.graph.node i).body.IsField → (v.graph.node i).inline = [some k] →
      (v'.graph.node i').inline = [some k'] → v.graph.Alike v'.graph k k' := by
    intro hnot hk hk'
    have hinline := (hmatching hnot).inline
    rw [hk, hk'] at hinline
    cases hinline with
    | cons hpaired _ =>
      cases hpaired with
      | some hpaired => exact hpaired.2.2.alike
  cases hk with
  | items body =>
    cases hk' with
    | items body' =>
      exact hinside (by simp [Body.IsField, body]) (by rw [Node.inline, body]) (by rw [Node.inline, body'])
  | type body type =>
    cases hk' with
    | type body' type' =>
      cases halike with
      | declaration depicts => exact absurd ⟨_, _, _, body⟩ depicts.not_isField
      | typed body₁ type₁ hk body₂ type₂ hk' =>
        rw [body] at body₁
        rw [body'] at body₂
        cases body₁
        cases body₂
        rw [type] at type₁
        rw [type'] at type₂
        cases type₁
        cases type₂
        exact .declaration hk hk'
      | _ => simp_all
  | union body children | shape body children =>
    -- children of one node are those of a composition, and so are those of the other, or of a union both
    refine hinside (by simp [Body.IsField, body]) (by rw [Node.inline, body]; exact children) ?_
    cases hk' with
    | union body' children' | shape body' children' => rw [Node.inline, body']; exact children'
  | @property name k body bound =>
    cases hk' with
    | property body' bound' =>
      have hprops := (hmatching (by simp [Body.IsField, body])).props.get? (.text name)
      rw [bound, bound'] at hprops
      cases hprops with
      | some hpaired => exact hpaired.2.2.alike
  | @member parts n k body held =>
    cases hk' with
    | member body' held' =>
      have hbody := (hmatching (by simp [Body.IsField, body])).body
      rw [body, body'] at hbody
      cases hbody
      obtain ⟨parts, elements, rfl, helements, hgathered, -⟩ := h.gathered i _ hi body
      obtain ⟨_, elements', ⟨⟩, helements', hgathered', -⟩ := h'.gathered i' _ hi' body'
      rw [helements] at helements'
      cases helements'
      obtain ⟨w, s, hw, hdeclares, hdepicts⟩ := hgathered.exists_member held
      obtain ⟨w', s', hw', hdeclares', hdepicts'⟩ := hgathered'.exists_member held'
      rw [hw] at hw'
      cases hw'
      cases hdeclares.unique hdeclares'
      exact .declaration hdepicts hdepicts'

/-- Nodes in corresponding places were visited, and are alike if the fields are. -/
theorem Placed.alike (hfield : v.graph.Alike v'.graph v.field v'.field) (hp : v.Placed v' i i') :
    v.context.Visited i ∧ v'.context.Visited i' ∧ v.graph.Alike v'.graph i i' := by
  induction hp with
  | field => exact ⟨h.visited, h'.visited, hfield⟩
  | stored stored stored' =>
    obtain ⟨hi, hi', htwins⟩ := h.exact.paired h'.exact stored stored'
    exact ⟨hi, hi', htwins.alike⟩
  | @branch b i i' k k' owner leads leads' ih =>
    obtain ⟨hi, hi', halike⟩ := ih
    exact ⟨h.visited_of_leads hi leads, h'.visited_of_leads hi' leads',
      h.alike_of_leads h' hi hi' halike leads leads'⟩

/-- A node has one counterpart. -/
theorem Placed.functional (hfield : v.graph.Alike v'.graph v.field v'.field) (hp : v.Placed v' i i')
    {j' : NodeId} (hp' : v.Placed v' i j') : i' = j' := by
  have hvisited : ∀ {i i'}, v.Placed v' i i' → v.context.Visited i := fun hp => (hp.alike h h' hfield).1
  induction hp generalizing j' with
  | field =>
    generalize hi : v.field = i at hp'
    cases hp' with
    | field => rfl
    | stored stored => exact absurd (hi ▸ stored) h.field_ne_stored
    | branch owner leads =>
      exact absurd (hi ▸ h.owns_of_leads (hvisited owner) leads) (h.not_owns_field (hvisited owner))
  | @stored ref i i' stored stored' =>
    cases hp' with
    | field => exact absurd stored h.field_ne_stored
    | stored again again' =>
      obtain rfl := (h.name_of_stored stored).1.symm.trans (h.name_of_stored again).1
      rw [stored'] at again'
      exact Option.some.inj again'
    | branch owner leads =>
      exact absurd (h.owns_of_leads (hvisited owner) leads) (h.not_owns_stored stored)
  | @branch b i i' k k' owner leads leads' ih =>
    have hown := h.owns_of_leads (hvisited owner) leads
    cases hp' with
    | field => exact absurd hown (h.not_owns_field (hvisited owner))
    | stored again => exact absurd hown (h.not_owns_stored again)
    | branch owner' again again' =>
      have hparent := hown.parent.symm.trans (h.owns_of_leads (hvisited owner') again).parent
      cases hparent
      obtain rfl := ih owner'
      obtain rfl := h.branch_eq (hvisited owner) leads again
      exact leads'.unique again'

/-- Nodes in corresponding places correspond one to one. -/
theorem Placed.eq_iff (hfield : v.graph.Alike v'.graph v.field v'.field) (hp : v.Placed v' i i')
    {j' : NodeId} (hp' : v.Placed v' j j') : i = j ↔ i' = j' := by
  constructor
  · rintro rfl
    exact hp.functional h h' hfield hp'
  · rintro rfl
    exact hp.symm.functional h' h hfield.symm hp'.symm

end

/-! ## Mirroring -/

/-- Types in corresponding places. -/
def Counterpart (v v' : View) (i i' : NodeId) : Prop :=
  v.Placed v' i i' ∧ ¬(v.graph.node i).body.IsField

section

include h h'

omit h' in
/-- What is stored under one reference corresponds. -/
theorem counterpart_stored {ref : Json} (hi : v.context.stored? ref = some i)
    (hi' : v'.context.stored? ref = some i') : v.Counterpart v' i i' := by
  obtain ⟨s, -, hdepicts⟩ := h.faithful.stored ref i hi
  exact ⟨.stored hi hi', hdepicts.not_isField⟩

omit h' in
/-- A union leads to the shape that it has kept. -/
theorem Settled.leads_variant (hi : v.context.Visited i) {shapes : List Json}
    (hbody : (v.graph.node i).body = .union shapes) (hk : v.graph.unionVariant i = .ok (some k)) :
    v.Leads i .child k := by
  obtain ⟨first, rest, -, rfl, -⟩ := (h.rest.whole.ripe i hi).union _ hbody
  obtain ⟨k', s, hchildren, -⟩ := (h.faithful.drawn i hi).union first rest hbody
  simp only [Graph.unionVariant, hbody, Node.firstChild, hchildren] at hk
  cases hk
  exact .shape hbody hchildren

omit h' in
/-- A choice leads to its union. -/
theorem Settled.leads_union (hi : v.context.Visited i) {parts : Option Json}
    (hbody : (v.graph.node i).body = .composed .oneOf parts) (hk : v.graph.unionOf i = .ok (some k)) :
    v.Leads i .child k ∧ ∃ shapes, (v.graph.node k).body = .union shapes := by
  obtain ⟨declared, shapes, u, -, -, hchildren, -, -, hunion⟩ := (h.rest.whole.ripe i hi).oneOf _ hbody
  simp only [Graph.unionOf, hbody, Node.firstChild, hchildren] at hk
  cases hk
  exact ⟨.union hbody hchildren, shapes, hunion⟩

variable (hfield : v.graph.Alike v'.graph v.field v'.field)

include hfield

/-- Types in corresponding places depict the same. -/
theorem Counterpart.twinned (hp : v.Counterpart v' i i') : v.context.Twinned v'.context i i' := by
  obtain ⟨hp, hnot⟩ := hp
  obtain ⟨hi, hi', halike⟩ := hp.alike h h' hfield
  exact ⟨⟨hi, hi', halike.twins hnot⟩, hnot⟩

/-- Types in corresponding places mirror each other. -/
theorem Counterpart.mirrored (hp : v.Counterpart v' i i') :
    Graph.Mirrored (v.Counterpart v') v.graph v'.graph i i' := by
  have htwinned := hp.twinned h h' hfield
  obtain ⟨hi, hi', -⟩ := htwinned.1
  cases h.exact.mirrored h'.exact htwinned with
  | scalar body body' => exact .scalar body body'
  | object body body' => exact .object body body'
  | allOf body body' => exact .allOf body body'
  | array body body' items =>
    exact .array body body' ⟨hp.1.branch (.items body) (.items body'), items.2⟩
  | @ref ref t t' body body' =>
    obtain ⟨_, ⟨⟩, hstored⟩ := (h.rest.whole.ripe i hi).target ⟨ref, some t⟩ (by rw [body]; rfl)
    obtain ⟨_, ⟨⟩, hstored'⟩ := (h'.rest.whole.ripe i' hi').target ⟨ref, some t'⟩ (by rw [body']; rfl)
    exact .ref body body' (counterpart_stored h hstored hstored')
  | union body body' variant variant' shape =>
    exact .union body body' variant variant'
      ⟨hp.1.branch (h.leads_variant hi body variant) (h'.leads_variant hi' body' variant'), shape.2⟩
  | oneOf body body' union union' choice variant variant' shape =>
    obtain ⟨hleads, shapes, hunion⟩ := h.leads_union hi body union
    obtain ⟨hleads', shapes', hunion'⟩ := h'.leads_union hi' body' union'
    have hu := hp.1.branch hleads hleads'
    exact .oneOf body body' union union' ⟨hu, choice.2⟩ variant variant'
      ⟨hu.branch (h.leads_variant choice.1.1 hunion variant)
        (h'.leads_variant choice.1.2.1 hunion' variant'), shape.2⟩

/-- Fields of one name in corresponding places have values in corresponding places. -/
theorem Placed.sameField (hp : v.Placed v' i i') (hi : (v.graph.node i).body.IsField)
    (hname : (v.graph.node i).name = (v'.graph.node i').name) :
    v.graph.SameField (v.Counterpart v') v'.graph i i' := by
  obtain ⟨hvisited, hvisited', halike⟩ := hp.alike h h' hfield
  obtain ⟨t, t', ht, ht', htwinned, hplaces⟩ :=
    h.exact.exists_value h'.exact ⟨hvisited, hvisited', hi, hname, halike⟩
  refine ⟨hi, halike.isField_iff.1 hi, hname, ?_⟩
  rw [ht, ht']
  refine .some ⟨?_, htwinned.2⟩
  rcases hplaces with ⟨ref, hstored, hstored'⟩ | ⟨⟨_, _, body, type⟩, _, _, body', type'⟩
  · exact .stored hstored hstored'
  · exact hp.branch (.type body type) (.type body' type')

/-- Objects in corresponding places have the same fields. -/
theorem Counterpart.aligned_object (hp : v.Counterpart v' i i') {properties : List (PropertyOf Schema)}
    (hdepicts : v.graph.Depicts i (.object properties))
    (hdepicts' : v'.graph.Depicts i' (.object properties)) :
    Aligned (v.graph.SameField (v.Counterpart v') v'.graph) (v.graph.node i).props
      (v'.graph.node i').props := by
  obtain ⟨hi, hi', -⟩ := hp.1.alike h h' hfield
  have haligned := hdepicts.aligned
  have haligned' := hdepicts'.aligned
  have hdistinct : Distinct (keys (Document.declared properties)) :=
    (Document.Brings.object (d := d) properties).distinct
  rw [Graph.Depicts] at hdepicts hdepicts'
  refine (haligned.join haligned').imp_of_mem fun key k k' hk hk' _ => ?_
  obtain ⟨name, rfl, hname⟩ := h.rest.whole.entries i (.inl hi) _ hk
  obtain ⟨_, ⟨⟩, hname'⟩ := h'.rest.whole.entries i' (.inl hi') _ hk'
  have hbound := get?_of_mem (haligned.keys_eq ▸ hdistinct) hk
  have hbound' := get?_of_mem (haligned'.keys_eq ▸ hdistinct) hk'
  refine Placed.sameField h h' hfield
    (hp.1.branch (.property hdepicts.1 hbound) (.property hdepicts'.1 hbound')) hname.2 ?_
  rw [hname.1, hname'.1]

omit h h' hfield in
/-- The members of compositions in corresponding places are in corresponding places. -/
theorem Counterpart.forall₂_members (hp : v.Counterpart v' i i') {parts : Option Json}
    (hbody : (v.graph.node i).body = .composed .allOf parts)
    (hbody' : (v'.graph.node i').body = .composed .allOf parts) {elements : List Json}
    (hgathered : v.graph.Gathered i elements (v.held i))
    (hgathered' : v'.graph.Gathered i' elements (v'.held i')) :
    List.Forall₂ (fun e e' => v.Counterpart v' e.1 e'.1) (v.held i) (v'.held i') := by
  have hlength := hgathered.contributes.length_eq
  have hlength' := hgathered'.contributes.length_eq
  refine List.forall₂_iff_get.2 ⟨hlength.symm.trans hlength', fun n hn hn' => ?_⟩
  have hk : ((v.held i).map Prod.fst)[n]? = some (v.held i)[n].1 := by simp [hn]
  have hk' : ((v'.held i').map Prod.fst)[n]? = some (v'.held i')[n].1 := by simp [hn']
  obtain ⟨w, s, -, -, hdepicts⟩ := hgathered.exists_member hk
  exact ⟨hp.1.branch (.member hbody hk) (.member hbody' hk'), hdepicts.not_isField⟩

end

mutual

/-- Types in corresponding places bring the same fields into compositions. -/
theorem Counterpart.aligned_properties (h : v.Settled A d query) (h' : v'.Settled A' d query')
    (hfield : v.graph.Alike v'.graph v.field v'.field) {s : Schema}
    {m : OrderedMap Key (PropertyOf Schema)} : d.Brings s m → ∀ {i i' : NodeId}, v.Counterpart v' i i' →
      v.graph.Depicts i s → v'.graph.Depicts i' s → ∀ {props props' : OrderedMap Key NodeId},
      v.graph.propertiesOf i = .ok props → v'.graph.propertiesOf i' = .ok props' →
      Aligned (v.graph.SameField (v.Counterpart v') v'.graph) props props'
  | .object properties, i, i', hp, hdepicts, hdepicts', props, props', hprops, hprops' => by
    obtain rfl := h.properties_eq (hp.1.alike h h' hfield).1 hdepicts (by simp) hprops
    obtain rfl := h'.properties_eq (hp.1.alike h h' hfield).2.1 hdepicts' (by simp) hprops'
    exact hp.aligned_object h h' hfield hdepicts hdepicts'
  | .scalar type, i, i', hp, hdepicts, hdepicts', props, props', hprops, hprops' => by
    obtain rfl := h.properties_eq_nil (hp.1.alike h h' hfield).1 hdepicts (by simp) (.scalar type) hprops
    obtain rfl := h'.properties_eq_nil (hp.1.alike h h' hfield).2.1 hdepicts' (by simp) (.scalar type) hprops'
    exact .nil
  | .array items, i, i', hp, hdepicts, hdepicts', props, props', hprops, hprops' => by
    obtain rfl := h.properties_eq_nil (hp.1.alike h h' hfield).1 hdepicts (by simp) (.array items) hprops
    obtain rfl := h'.properties_eq_nil (hp.1.alike h h' hfield).2.1 hdepicts' (by simp) (.array items) hprops'
    exact .nil
  | .oneOf parts, i, i', hp, hdepicts, hdepicts', props, props', hprops, hprops' => by
    obtain rfl := h.properties_eq_nil (hp.1.alike h h' hfield).1 hdepicts (by simp) (.oneOf parts) hprops
    obtain rfl := h'.properties_eq_nil (hp.1.alike h h' hfield).2.1 hdepicts' (by simp) (.oneOf parts) hprops'
    exact .nil
  | .allOf helements hgathers, i, i', hp, hdepicts, hdepicts', props, props', hprops, hprops' => by
    obtain ⟨hi, hi', -⟩ := hp.1.alike h h' hfield
    obtain rfl := h.properties_eq hi hdepicts (by simp) hprops
    obtain rfl := h'.properties_eq hi' hdepicts' (by simp) hprops'
    rw [Graph.Depicts] at hdepicts hdepicts'
    obtain ⟨_, elements, ⟨⟩, helements₁, hgathered, hmerged⟩ := h.gathered i _ hi hdepicts
    obtain ⟨_, elements', ⟨⟩, helements₂, hgathered', hmerged'⟩ := h'.gathered i' _ hi' hdepicts'
    rw [helements] at helements₁ helements₂
    cases helements₁
    cases helements₂
    rw [hmerged, hmerged']
    exact .mergeAll (aligned_members h h' hfield hgathers hgathered.contributes hgathered'.contributes
      (hp.forall₂_members hdepicts hdepicts' hgathered hgathered'))
  | .ref hdeclares hbrings, i, i', hp, hdepicts, hdepicts', props, props', hprops, hprops' => by
    obtain ⟨hi, hi', -⟩ := hp.1.alike h h' hfield
    obtain ⟨t, s, hstored, hs, ht, hprops⟩ := h.target_of_depicts hi hdepicts hprops
    obtain ⟨t', s', hstored', hs', ht', hprops'⟩ := h'.target_of_depicts hi' hdepicts' hprops'
    cases hdeclares.unique hs
    cases hdeclares.unique hs'
    exact Counterpart.aligned_properties h h' hfield hbrings (counterpart_stored h hstored hstored') ht ht'
      hprops hprops'

theorem aligned_members (h : v.Settled A d query) (h' : v'.Settled A' d query')
    (hfield : v.graph.Alike v'.graph v.field v'.field) {m₀ m : OrderedMap Key (PropertyOf Schema)}
    {elements : List Json} : d.Gathers m₀ elements m → ∀ {held held' : List (NodeId × OrderedMap Key NodeId)},
      List.Forall₂ (fun w e => v.graph.Contributes w e.1 e.2) elements held →
      List.Forall₂ (fun w e => v'.graph.Contributes w e.1 e.2) elements held' →
      List.Forall₂ (fun e e' => v.Counterpart v' e.1 e'.1) held held' →
      List.Forall₂ (Aligned (v.graph.SameField (v.Counterpart v') v'.graph)) (held.map Prod.snd)
        (held'.map Prod.snd)
  | .nil _, held, held', hheld, hheld', _ => by
    cases hheld
    cases hheld'
    exact .nil
  | .cons hdeclares hbrings hgathers, held, held', hheld, hheld', hmembers => by
    cases hheld with
    | cons he hheld =>
      cases hheld' with
      | cons he' hheld' =>
        cases hmembers with
        | cons hp hmembers =>
          obtain ⟨s, hs, hdepicts⟩ := he.member
          obtain ⟨s', hs', hdepicts'⟩ := he'.member
          cases hdeclares.unique hs
          cases hdeclares.unique hs'
          exact .cons (Counterpart.aligned_properties h h' hfield hbrings hp hdepicts hdepicts'
            he.holds.properties he'.holds.properties) (aligned_members h h' hfield hgathers hheld hheld' hmembers)

end

section

include h h'

/-- Types in corresponding places have the same fields. -/
theorem Counterpart.aligned (hfield : v.graph.Alike v'.graph v.field v'.field)
    (hp : v.Counterpart v' i i') :
    Aligned (v.graph.SameField (v.Counterpart v') v'.graph) (v.graph.node i).props
      (v'.graph.node i').props := by
  obtain ⟨hi, hi', halike⟩ := hp.1.alike h h' hfield
  have hbare : (v.graph.node i).body.isComposed = false → (v.graph.node i).body ≠ .object →
      (v'.graph.node i').body.isComposed = false → (v'.graph.node i').body ≠ .object →
      Aligned (v.graph.SameField (v.Counterpart v') v'.graph) (v.graph.node i).props
        (v'.graph.node i').props := by
    intro hcomposed hobject hcomposed' hobject'
    rw [(h.faithful.drawn i hi).bare hcomposed hobject, (h'.faithful.drawn i' hi').bare hcomposed' hobject']
    exact .nil
  cases halike with
  | reference body | typed body => exact absurd ⟨_, _, _, body⟩ hp.2
  | choice body body' => exact hbare (by rw [body]; rfl) (by simp [body]) (by rw [body']; rfl) (by simp [body'])
  | @declaration s depicts depicts' =>
    cases s with
    | object properties => exact hp.aligned_object h h' hfield depicts depicts'
    | composed kind parts =>
      have hbody : (v.graph.node i).body = .composed kind (some parts) := by rwa [Graph.Depicts] at depicts
      have hbody' : (v'.graph.node i').body = .composed kind (some parts) := by
        rwa [Graph.Depicts] at depicts'
      obtain ⟨m, hbrings, -⟩ := (h.faithful.drawn i hi).composed kind parts hbody
      refine Counterpart.aligned_properties h h' hfield hbrings hp depicts depicts' ?_ ?_
      · simp only [Graph.propertiesOf, Graph.propertiesWithin, hbody]
      · simp only [Graph.propertiesOf, Graph.propertiesWithin, hbody']
    | scalar type =>
      rw [Graph.Depicts] at depicts depicts'
      exact hbare (by rw [depicts]; rfl) (by simp [depicts]) (by rw [depicts']; rfl) (by simp [depicts'])
    | array items =>
      rw [Graph.Depicts] at depicts depicts'
      obtain ⟨k, body, -⟩ := depicts
      obtain ⟨k', body', -⟩ := depicts'
      exact hbare (by rw [body]; rfl) (by simp [body]) (by rw [body']; rfl) (by simp [body'])
    | ref ref =>
      rw [Graph.Depicts] at depicts depicts'
      obtain ⟨t, body⟩ := depicts
      obtain ⟨t', body'⟩ := depicts'
      exact hbare (by rw [body]; rfl) (by simp [body]) (by rw [body']; rfl) (by simp [body'])

/-- The graphs mirror each other in what is seen from two fields that are alike. -/
theorem mirrors (hfield : v.graph.Alike v'.graph v.field v'.field) :
    Graph.Mirrors (v.Counterpart v') v.graph v'.graph where
  types hp := hp.mirrored h h' hfield
  props hp := hp.aligned h h' hfield
  unique hp hp' := hp.1.eq_iff h h' hfield hp'.1

end

end View

end ApiGraph
