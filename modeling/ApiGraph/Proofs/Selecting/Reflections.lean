import ApiGraph.Proofs.Depicting.Operations
import ApiGraph.Proofs.Depicting.Outlines
import ApiGraph.Proofs.Selecting.Mirrors

/-!
# Exact graphs reflect each other

Two runs over one document hold types that depict the same, though at other places of their graphs and
among other types. What such types lead to depicts the same again.

* `Graph.Alike` — what nodes of two graphs have in common that stand for the same;
* `Context.Twinned`, `Context.SameProperty` — types that depict the same, and properties of one name that
  declare the same;
* `Context.Exact.exists_value` — the values of properties that declare the same;
* `Context.Exact.mirrored`, `Context.Exact.aligned_properties` — types that depict the same are of one
  kind, and have properties that declare the same;
* `Context.Exact.reflects` — the graphs reflect each other.
-/

namespace ApiGraph

open OrderedMap Context

/-- Nodes of two graphs that depict the same declaration, choose between the same shapes, or are fields
with the same reference or the same declaration. -/
inductive Graph.Alike (g g' : Graph) (i i' : NodeId) : Prop
  | declaration {s : Schema} (depicts : g.Depicts i s) (depicts' : g'.Depicts i' s)
  | choice {shapes : List Json} (body : (g.node i).body = .union shapes)
      (body' : (g'.node i').body = .union shapes)
  | reference {slot slot' : Slot} {arguments arguments' : List (Option NodeId)} {ref : Json}
      {t t' : Option NodeId} (body : (g.node i).body = .property slot arguments (some ⟨ref, t⟩))
      (body' : (g'.node i').body = .property slot' arguments' (some ⟨ref, t'⟩))
  | typed {slot slot' : Slot} {arguments arguments' : List (Option NodeId)} {s : Schema} {k k' : NodeId}
      (body : (g.node i).body = .property slot arguments none) (type : slot.type = some k)
      (depicts : g.Depicts k s) (body' : (g'.node i').body = .property slot' arguments' none)
      (type' : slot'.type = some k') (depicts' : g'.Depicts k' s)

namespace Graph

variable {g g' : Graph} {i i' : NodeId} {op : Operation} {s : Schema}

theorem Depicts.not_isField (h : g.Depicts i s) : ¬(g.node i).body.IsField := by
  rintro ⟨slot, arguments, link, hbody⟩
  have hslot := h.slot?
  rw [Node.slot?, hbody] at hslot
  cases hslot

theorem Alike.symm (h : g.Alike g' i i') : g'.Alike g i' i := by
  cases h with
  | declaration depicts depicts' => exact .declaration depicts' depicts
  | choice body body' => exact .choice body' body
  | reference body body' => exact .reference body' body
  | typed body type depicts body' type' depicts' => exact .typed body' type' depicts' body type depicts

theorem Alike.isField_iff (h : g.Alike g' i i') :
    (g.node i).body.IsField ↔ (g'.node i').body.IsField := by
  cases h with
  | declaration depicts depicts' => exact iff_of_false depicts.not_isField depicts'.not_isField
  | choice body body' => simp [Body.IsField, body, body']
  | reference body body' | typed body _ _ body' => simp [Body.IsField, body, body']

theorem DepictsProperty.isField {p : PropertyOf Schema} (h : g.DepictsProperty i p) :
    (g.node i).body.IsField := by
  obtain ⟨name, required, declaration, type⟩ := p
  cases type with
  | ref target =>
    obtain ⟨t, hbody⟩ := depictsProperty_ref.1 h
    exact ⟨_, _, _, hbody⟩
  | _ =>
    obtain ⟨t, hbody, -⟩ := (depictsProperty_plain (by simp)).1 h
    exact ⟨_, _, _, hbody⟩

theorem DepictsProperty.alike {p : PropertyOf Schema} (h : g.DepictsProperty i p)
    (h' : g'.DepictsProperty i' p) : g.Alike g' i i' := by
  obtain ⟨name, required, declaration, type⟩ := p
  by_cases href : ∃ target, type = .ref target
  · obtain ⟨target, rfl⟩ := href
    rw [depictsProperty_ref] at h h'
    obtain ⟨t, hbody⟩ := h
    obtain ⟨t', hbody'⟩ := h'
    exact .reference hbody hbody'
  · have hplain : ∀ target, type ≠ .ref target := fun target he => href ⟨target, he⟩
    rw [depictsProperty_plain hplain] at h h'
    obtain ⟨k, hbody, hk⟩ := h
    obtain ⟨k', hbody', hk'⟩ := h'
    exact .typed hbody rfl hk hbody' rfl hk'

theorem Twins.alike (h : g.Twins g' i i') : g.Alike g' i i' := by
  cases h with
  | declaration depicts depicts' => exact .declaration depicts depicts'
  | property depicts depicts' => exact depicts.alike depicts'
  | choice body body' => exact .choice body body'

theorem Alike.twins (h : g.Alike g' i i') (hi : ¬(g.node i).body.IsField) : g.Twins g' i i' := by
  cases h with
  | declaration depicts depicts' => exact .declaration depicts depicts'
  | choice body body' => exact .choice body body'
  | reference body | typed body => exact absurd ⟨_, _, _, body⟩ hi

theorem Serves.isField (h : g.Serves op i) : (g.node i).body.IsField := by
  obtain ⟨slot, arguments, link, hbody, -⟩ := h.offers.body
  exact ⟨slot, _, link, hbody⟩

/-- Fields that stand for the same operation are alike. -/
theorem Serves.alike (h : g.Serves op i) (h' : g'.Serves op i') : g.Alike g' i i' := by
  obtain ⟨slot, arguments, link, hbody, hbears, -⟩ := h.offers.body
  obtain ⟨slot', arguments', link', hbody', hbears', -⟩ := h'.offers.body
  cases hbears with
  | reference hwritten =>
    cases hbears' with
    | reference hwritten' =>
      rw [hwritten] at hwritten'
      cases hwritten'
      exact .reference hbody hbody'
    | plain hwritten' =>
      rw [hwritten] at hwritten'
      cases hwritten'
  | plain hwritten hdeclares hdepicts =>
    cases hbears' with
    | reference hwritten' =>
      rw [hwritten] at hwritten'
      cases hwritten'
    | plain _ hdeclares' hdepicts' =>
      cases hdeclares.unique hdeclares'
      exact .typed hbody rfl hdepicts hbody' rfl hdepicts'

theorem Serves.name_eq (h : g.Serves op i) (h' : g'.Serves op i') :
    (g.node i).name = (g'.node i').name := by
  obtain ⟨s, hs, hname⟩ := h.name
  obtain ⟨s', hs', hname'⟩ := h'.name
  rw [hs] at hs'
  cases hs'
  rw [hname, hname']

end Graph

/-- Types of two runs that were visited, and that depict the same. -/
def Context.Twinned (c c' : Context) (i i' : NodeId) : Prop :=
  Paired c c' i i' ∧ ¬(c.graph.node i).body.IsField

/-- Properties of one name that two runs have visited, and that declare the same. -/
structure Context.SameProperty (c c' : Context) (p p' : NodeId) : Prop where
  visited : c.Visited p
  visited' : c'.Visited p'
  field : (c.graph.node p).body.IsField
  name : (c.graph.node p).name = (c'.graph.node p').name
  alike : c.graph.Alike c'.graph p p'

namespace Context.Exact

variable {A A' : NodeId → Prop} {d : Document} {c c' : Context} {i i' p p' : NodeId}
  (h : c.Exact A d) (h' : c'.Exact A' d)

include h h'

/-! ## Properties -/

/-- The values of properties that declare the same are stored under one reference, or they depict one
declaration. -/
theorem exists_value (hp : c.SameProperty c' p p') :
    ∃ t t', (c.graph.node p).valueType? = some t ∧ (c'.graph.node p').valueType? = some t' ∧
      c.Twinned c' t t' ∧
      ((∃ ref, c.stored? ref = some t ∧ c'.stored? ref = some t') ∨
        ((∃ slot arguments, (c.graph.node p).body = .property slot arguments none ∧ slot.type = some t) ∧
          ∃ slot' arguments', (c'.graph.node p').body = .property slot' arguments' none ∧
            slot'.type = some t')) := by
  obtain ⟨hvisited, hvisited', hfield, -, halike⟩ := hp
  cases halike with
  | declaration depicts => exact absurd hfield depicts.not_isField
  | choice body => simp [Body.IsField, body] at hfield
  | reference body body' =>
    obtain ⟨t, ht, hstored⟩ := (h.whole.ripe p hvisited).target _ (by rw [body]; rfl)
    obtain ⟨t', ht', hstored'⟩ := (h'.whole.ripe p' hvisited').target _ (by rw [body']; rfl)
    cases ht
    cases ht'
    obtain ⟨s, -, hdepicts⟩ := h.faithful.stored _ _ hstored
    exact ⟨t, t', by rw [Node.valueType?, body], by rw [Node.valueType?, body'],
      ⟨h.paired h' hstored hstored', hdepicts.not_isField⟩, .inl ⟨_, hstored, hstored'⟩⟩
  | @typed slot slot' arguments arguments' s k k' body type depicts body' type' depicts' =>
    have hk : c.Visited k :=
      h.visited_of_followed hvisited (by simp [Node.followed, Node.type?, Node.slot?, body, type])
    have hk' : c'.Visited k' :=
      h'.visited_of_followed hvisited' (by simp [Node.followed, Node.type?, Node.slot?, body', type'])
    exact ⟨k, k', by simp [Node.valueType?, body, type], by simp [Node.valueType?, body', type'],
      ⟨⟨hk, hk', .declaration depicts depicts'⟩, depicts.not_isField⟩,
      .inr ⟨⟨slot, arguments, body, type⟩, slot', arguments', body', type'⟩⟩

theorem sameField (hp : c.SameProperty c' p p') :
    c.graph.SameField (c.Twinned c') c'.graph p p' := by
  obtain ⟨t, t', ht, ht', htwinned, -⟩ := h.exists_value h' hp
  refine ⟨hp.field, hp.alike.isField_iff.1 hp.field, hp.name, ?_⟩
  rw [ht, ht']
  exact .some htwinned

/-- Types that depict the same have properties that declare the same. -/
theorem aligned_properties (hp : Paired c c' i i') :
    Aligned (c.SameProperty c') (c.graph.node i).props (c'.graph.node i').props := by
  refine (h.matching h' hp).props.imp_of_mem fun key k k' hk hk' hpaired => ?_
  obtain ⟨name, rfl, hname⟩ := h.whole.entries i (.inl hp.1) _ hk
  obtain ⟨_, ⟨⟩, hname'⟩ := h'.whole.entries i' (.inl hp.2.1) _ hk'
  exact ⟨hpaired.1, hpaired.2.1, hname.2, hname.1.trans hname'.1.symm, hpaired.2.2.alike⟩

/-! ## Types -/

/-- Unions that choose between the same shapes have kept shapes that depict the same. -/
theorem exists_variant (hp : Paired c c' i i') {shapes : List Json}
    (hbody : (c.graph.node i).body = .union shapes) (hbody' : (c'.graph.node i').body = .union shapes) :
    ∃ k k', c.graph.unionVariant i = .ok (some k) ∧ c'.graph.unionVariant i' = .ok (some k') ∧
      c.Twinned c' k k' := by
  obtain ⟨first, rest, -, rfl, -⟩ := (h.whole.ripe i hp.1).union _ hbody
  obtain ⟨k, s, hchildren, -, hdepicts, -⟩ := (h.faithful.drawn i hp.1).union first rest hbody
  obtain ⟨k', -, hchildren', -⟩ := (h'.faithful.drawn i' hp.2.1).union first rest hbody'
  have hinline := (h.matching h' hp).inline
  simp only [Node.inline, hbody, hbody', hchildren, hchildren'] at hinline
  cases hinline with
  | cons hfirst _ =>
    cases hfirst with
    | some hpaired =>
      refine ⟨k, k', ?_, ?_, hpaired, hdepicts.not_isField⟩
      · simp only [Graph.unionVariant, hbody, Node.firstChild, hchildren]
        rfl
      · simp only [Graph.unionVariant, hbody', Node.firstChild, hchildren']
        rfl

/-- Types that depict the same mirror each other. -/
theorem mirrored (hp : c.Twinned c' i i') :
    Graph.Mirrored (c.Twinned c') c.graph c'.graph i i' := by
  obtain ⟨hpaired, hnot⟩ := hp
  obtain ⟨hi, hi', htwins⟩ := id hpaired
  have hripe := h.whole.ripe i hi
  have hripe' := h'.whole.ripe i' hi'
  have hinline := (h.matching h' hpaired).inline
  cases htwins with
  | property depicts => exact absurd depicts.isField hnot
  | choice body body' =>
    obtain ⟨k, k', hk, hk', hshape⟩ := h.exists_variant h' hpaired body body'
    exact .union body body' hk hk' hshape
  | @declaration s depicts depicts' =>
    cases s with
    | scalar type =>
      rw [Graph.Depicts] at depicts depicts'
      exact .scalar depicts depicts'
    | object properties =>
      rw [Graph.Depicts] at depicts depicts'
      exact .object depicts.1 depicts'.1
    | array items =>
      rw [Graph.Depicts] at depicts depicts'
      obtain ⟨k, body, hk⟩ := depicts
      obtain ⟨k', body', -⟩ := depicts'
      simp only [Node.inline, body, body'] at hinline
      cases hinline with
      | cons hitems _ =>
        cases hitems with
        | some hitems => exact .array body body' ⟨hitems, hk.not_isField⟩
    | ref ref =>
      rw [Graph.Depicts] at depicts depicts'
      obtain ⟨t, body⟩ := depicts
      obtain ⟨t', body'⟩ := depicts'
      obtain ⟨t, rfl, hstored⟩ := hripe.target ⟨ref, t⟩ (by rw [body]; rfl)
      obtain ⟨t', rfl, hstored'⟩ := hripe'.target ⟨ref, t'⟩ (by rw [body']; rfl)
      obtain ⟨s, -, hdepicts⟩ := h.faithful.stored _ _ hstored
      exact .ref body body' ⟨h.paired h' hstored hstored', hdepicts.not_isField⟩
    | composed kind parts =>
      rw [Graph.Depicts] at depicts depicts'
      cases kind with
      | allOf => exact .allOf depicts depicts'
      | oneOf =>
        obtain ⟨_, shapes, u, ⟨⟩, helements, hchildren, -, -, hunion⟩ := hripe.oneOf _ depicts
        obtain ⟨_, shapes', u', ⟨⟩, helements', hchildren', -, -, hunion'⟩ := hripe'.oneOf _ depicts'
        rw [helements] at helements'
        cases helements'
        simp only [Node.inline, depicts, depicts', hchildren, hchildren'] at hinline
        cases hinline with
        | cons hfirst _ =>
          cases hfirst with
          | some hu =>
            obtain ⟨k, k', hk, hk', hshape⟩ := h.exists_variant h' hu hunion hunion'
            refine .oneOf depicts depicts' ?_ ?_ ⟨hu, by simp [Body.IsField, hunion]⟩ hk hk' hshape
            · simp only [Graph.unionOf, depicts, Node.firstChild, hchildren]
              rfl
            · simp only [Graph.unionOf, depicts', Node.firstChild, hchildren']
              rfl

/-- The graphs reflect each other in types that depict the same. -/
theorem reflects : Graph.Reflects (c.Twinned c') c.graph c'.graph where
  types hp := h.mirrored h' hp
  props hp := (h.aligned_properties h' hp.1).imp fun _ _ hk => h.sameField h' hk

end Context.Exact

end ApiGraph
