import ApiGraph.Proofs.Depicting.Merges
import ApiGraph.Proofs.Finishing.Gathering

/-!
# Graphs that say what the document says

While a visit goes on under an obliging oracle, what is stored depicts what it was
looked up for, and what was visited has gathered what the document says. The nodes whose visits are
owed belong to declarations that lead to the one that is being read.

* `Graph.Drawn` — what a node has gathered is what the document says;
* `Oracle.Obliging` — an oracle that lets compositions keep all their properties;
* `Context.Faithful` — what holds of the store and of the nodes that were visited;
* `Context.Pending` — the named nodes of a set lead to a declaration;
* `Context.Sketched` — the state in which a declaration is read;
* `Context.Sketched.brings` — what a node brings into a composition is what its declaration brings.
-/

namespace ApiGraph

open OrderedMap Context

/-- A value was read: there is a node that depicts it, and that was visited. -/
def Graph.Shown (g : Graph) (v : Json) : Prop :=
  ∃ k s, v.Declares s ∧ g.Depicts k s ∧ (g.node k).visited = true

/-- What a node has gathered is what the document says: a composition the properties that it declares,
which its members hold, a union its first shape, and other nodes nothing. The nodes that it gathers,
besides properties, are its own. -/
structure Graph.Drawn (d : Document) (g : Graph) (i : NodeId) : Prop where
  bare : (g.node i).body.isComposed = false → (g.node i).body ≠ .object → (g.node i).props = []
  composed : ∀ kind parts, (g.node i).body = .composed kind (some parts) →
    ∃ m, d.Brings (.composed kind parts) m ∧ Aligned g.DepictsProperty (g.node i).props m
  merged : ∀ members, (g.node i).body = .composed .allOf members → ∃ parts elements held,
    members = some parts ∧ parts.elements = .ok elements ∧ g.Gathered i elements held ∧
      (g.node i).props = mergeAll (held.map Prod.snd)
  union : ∀ first rest, (g.node i).body = .union (first :: rest) →
    ∃ v s, (g.node i).children = [some v] ∧ first.Declares s ∧ g.Depicts v s ∧ g.Owns i v
  shapes : ∀ shapes, (g.node i).body = .union shapes → ∀ shape ∈ shapes, g.Shown shape
  choice : ∀ parts, (g.node i).body = .composed .oneOf parts → ∀ u, some u ∈ (g.node i).children →
    g.Owns i u
  owns : ∀ k ∈ (g.node i).below, g.Owns i k

/-- An oracle that decides by the question alone, and agrees whenever a composition asks which properties
to keep. -/
def Oracle.Obliging (o : Oracle) : Prop :=
  ∃ decide, o = .policy decide ∧ ∀ text, decide ⟨.yesNoSubset, text⟩ = .yes

theorem Oracle.obliging_always : Oracle.always.Obliging := ⟨_, rfl, fun _ => rfl⟩

/-- What is stored depicts what it was looked up for, what was visited has gathered what the document
says, and the oracle is obliging. -/
structure Context.Faithful (d : Document) (c : Context) : Prop where
  oracle : c.oracle.Obliging
  stored : ∀ ref i, c.stored? ref = some i → ∃ s, d.Declares ref s ∧ c.graph.Depicts i s
  drawn : ∀ i, c.Visited i → c.graph.Drawn d i

/-- The references that nodes of a set `X` are named for lead to all declarations of a set `S`. An
object made by hand is named for no reference. -/
def Context.Pending (d : Document) (q : Option NodeId) (X : NodeId → Prop) (S : Schema → Prop)
    (c : Context) : Prop :=
  ∀ j, X j → q ≠ some j → (c.graph.node j).slot? = none → (c.graph.node j).name.isNull = false →
    ∀ s, S s → d.Reaches (.ref (c.graph.node j).name) s

/-- A state in which the declarations of a set `S` are read while the visits of the nodes of a set `X`
are owed. The nodes of a set `A` are arguments that no visit goes to. -/
structure Context.Sketched (A : NodeId → Prop) (d : Document) (q : Option NodeId) (X : NodeId → Prop)
    (S : Schema → Prop) (c : Context) : Prop where
  sound : c.Sound d q
  whole : Whole A X c
  spurned_lt : ∀ a, A a → a.index < c.graph.size
  faithful : c.Faithful d
  pending : c.Pending d q X S

variable {A : NodeId → Prop} {d : Document} {q : Option NodeId} {X Y : NodeId → Prop}
  {S S' : Schema → Prop} {P : NodeId → Prop} {c c' : Context} {i : NodeId} {s s' : Schema}

/-! ## Growth -/

theorem Graph.Drawn.congr {g g' : Graph} (h : g.Drawn d i) (hsize : g.size ≤ g'.size)
    (hkept : ∀ j, j.index < g.size → (g.node j).Kept (g'.node j))
    (hvisited : ∀ j, (g.node j).visited = true → g'.node j = g.node j)
    (hbody : (g'.node i).body = (g.node i).body) (hprops : (g'.node i).props = (g.node i).props)
    (hchildren : (g'.node i).children = (g.node i).children) : g'.Drawn d i := by
  have howns : ∀ k, g.Owns i k → g'.Owns i k := fun k hk => hk.kept (hkept k hk.lt_size)
  refine ⟨?_, ?_, ?_, ?_, ?_, ?_, ?_⟩ <;> try rw [hbody]
  · rw [hprops]
    exact h.bare
  · intro kind parts hi
    obtain ⟨m, hbrings, haligned⟩ := h.composed kind parts hi
    rw [hprops]
    exact ⟨m, hbrings, haligned.imp fun k p hk => hk.kept hkept⟩
  · intro members hi
    obtain ⟨parts, elements, held, hparts, helements, hgathered, hmerged⟩ := h.merged members hi
    rw [hprops]
    exact ⟨parts, elements, held, hparts, helements, hgathered.congr hsize hkept hvisited, hmerged⟩
  · intro first rest hi
    obtain ⟨v, s, hv, hdeclares, hdepicts, hown⟩ := h.union first rest hi
    rw [hchildren]
    exact ⟨v, s, hv, hdeclares, hdepicts.kept hkept, howns v hown⟩
  · intro shapes hi shape hshape
    obtain ⟨k, s, hdeclares, hdepicts, hk⟩ := h.shapes shapes hi shape hshape
    exact ⟨k, s, hdeclares, hdepicts.kept hkept, by rwa [hvisited k hk]⟩
  · intro parts hi u hu
    rw [hchildren] at hu
    exact howns u (h.choice parts hi u hu)
  · intro k hk
    rw [Node.below, hbody, hprops] at hk
    exact howns k (h.owns k hk)

/-- A node that is neither a composition nor a union gathers nothing. -/
theorem Graph.drawn_of_plain {g : Graph} (hcomposed : (g.node i).body.isComposed = false)
    (hunion : ∀ shapes, (g.node i).body ≠ .union shapes)
    (hbare : (g.node i).body ≠ .object → (g.node i).props = [])
    (howns : ∀ k ∈ (g.node i).below, g.Owns i k) : g.Drawn d i := by
  have hnot : ∀ kind parts, (g.node i).body ≠ .composed kind parts := by
    intro kind parts hi
    rw [hi] at hcomposed
    cases hcomposed
  exact ⟨fun _ => hbare, fun kind parts hi => absurd hi (hnot kind (some parts)),
    fun members hi => absurd hi (hnot .allOf members), fun first rest hi => absurd hi (hunion _),
    fun shapes hi => absurd hi (hunion shapes), fun parts hi => absurd hi (hnot .oneOf parts), howns⟩

namespace Context

/-- Steps that visit no node and leave alone what was visited. What they store depicts what it was
looked up for. -/
theorem Faithful.grow (h : c.Faithful d) (hg : c.Grows P c') (horacle : c'.oracle = c.oracle)
    (hspared : ∀ j, c.Visited j → P j) (hvisited : ∀ j, c'.Visited j → c.Visited j)
    (hstored : ∀ ref i, c'.stored? ref = some i → c.stored? ref = some i ∨
      ∃ s, d.Declares ref s ∧ c'.graph.Depicts i s) : c'.Faithful d := by
  refine ⟨horacle ▸ h.oracle, fun ref i hi => ?_, fun i hi => ?_⟩
  · rcases hstored ref i hi with hi | hi
    · obtain ⟨s, hdeclares, hdepicts⟩ := h.stored ref i hi
      exact ⟨s, hdeclares, hdepicts.kept hg.kept⟩
    · exact hi
  · have hsame : ∀ j, c.Visited j → c'.graph.node j = c.graph.node j := fun j hj =>
      (hg.spared j (hspared j hj)).1
    have hsamei := hsame i (hvisited i hi)
    exact (h.drawn i (hvisited i hi)).congr hg.size_le hg.kept hsame (by rw [hsamei]) (by rw [hsamei])
      (by rw [hsamei])

theorem Faithful.still (h : c.Faithful d) (hstill : c.Still c') (horacle : c'.oracle = c.oracle) :
    c'.Faithful d := by
  refine h.grow (hstill.grows (P := fun _ => True)) horacle (fun _ _ => trivial) (fun j hj => ?_)
    fun ref i hi => ?_
  · rwa [Visited, hstill.graph] at hj
  · rw [hstill.stored?] at hi
    exact .inl hi

/-- The visit of a node is over, and it has gathered what the document says. -/
theorem Faithful.finish (h : c.Faithful d) (hlt : i.index < c.graph.size)
    (hdrawn : c.graph.Drawn d i) :
    Faithful d { c with graph := c.graph.update i fun n => { n with visited := true } } := by
  have hself := Graph.node_update_self c.graph hlt fun n => { n with visited := true }
  have hother : ∀ j, j ≠ i → (c.graph.update i fun n => { n with visited := true }).node j =
      c.graph.node j := fun j hj => Graph.node_update_of_ne c.graph hj _
  have hkept : ∀ j, j.index < c.graph.size →
      (c.graph.node j).Kept ((c.graph.update i fun n => { n with visited := true }).node j) := by
    intro j _
    by_cases hj : j = i
    · rw [hj, hself]
      exact (Node.Kept.refl _).visit
    · rw [hother j hj]
      exact Node.Kept.refl _
  have hsize := (Graph.size_update c.graph i fun n => { n with visited := true }).ge
  have hvisited : ∀ j, (c.graph.node j).visited = true →
      (c.graph.update i fun n => { n with visited := true }).node j = c.graph.node j := by
    intro j hj
    by_cases hne : j = i
    · rw [hne] at hj ⊢
      rw [hself, ← hj]
    · exact hother j hne
  refine ⟨h.oracle, fun ref j hj => ?_, fun j hj => ?_⟩
  · obtain ⟨s, hdeclares, hdepicts⟩ := h.stored ref j hj
    exact ⟨s, hdeclares, hdepicts.kept hkept⟩
  · by_cases hne : j = i
    · rw [hne]
      exact hdrawn.congr hsize hkept hvisited (by rw [hself]) (by rw [hself]) (by rw [hself])
    · rw [Visited, hother j hne] at hj
      exact (h.drawn j hj).congr hsize hkept hvisited (by rw [hother j hne]) (by rw [hother j hne])
        (by rw [hother j hne])

/-! ## What is owed -/

theorem Pending.grows (h : c.Pending d q X S) (hX : ∀ j, X j → j.index < c.graph.size)
    (hg : c.Grows P c') : c'.Pending d q X S := by
  intro j hj hq hslot hname
  have hkept := hg.kept j (hX j hj)
  rw [hkept.slot?] at hslot
  rw [hkept.name] at hname ⊢
  exact h j hj hq hslot hname

theorem Pending.reaches (h : c.Pending d q X S) (hS : ∀ s', S' s' → ∃ s, S s ∧ d.Reaches s s') :
    c.Pending d q X S' := by
  intro j hj hq hslot hname s' hs'
  obtain ⟨s, hs, hreaches⟩ := hS s' hs'
  exact (h j hj hq hslot hname s hs).trans hreaches

theorem Pending.mono (h : c.Pending d q X S) (hY : ∀ j, Y j → X j) : c.Pending d q Y S :=
  fun j hj => h j (hY j hj)

/-- Nodes without names of their own lead nowhere. -/
theorem Pending.or (h : c.Pending d q X S)
    (hY : ∀ j, Y j → (c.graph.node j).slot? = none → (c.graph.node j).name.isNull = true) :
    c.Pending d q (fun j => X j ∨ Y j) S := by
  rintro j (hj | hj) hq hslot hname
  · exact h j hj hq hslot hname
  · rw [hY j hj hslot] at hname
    cases hname

namespace Sketched

theorem reaches (h : c.Sketched A d q X S) (hS : ∀ s', S' s' → ∃ s, S s ∧ d.Reaches s s') :
    c.Sketched A d q X S' :=
  ⟨h.sound, h.whole, h.spurned_lt, h.faithful, h.pending.reaches hS⟩

/-- One declaration is read at a time. -/
theorem only (h : c.Sketched A d q X S) (hs : S s) : c.Sketched A d q X (Eq s) :=
  h.reaches fun _ hs' => ⟨s, hs, hs' ▸ Relation.ReflTransGen.refl⟩

theorem still (h : c.Sketched A d q X S) (hstill : c.Still c') (horacle : c'.oracle = c.oracle) :
    c'.Sketched A d q X S := by
  refine ⟨hstill.sound h.sound, h.whole.still hstill, ?_, h.faithful.still hstill horacle,
    h.pending.grows h.whole.owed_lt (hstill.grows (P := fun _ => True))⟩
  rw [hstill.graph]
  exact h.spurned_lt

theorem congr (h : c.Sketched A d q X S) (hY : ∀ j, X j ↔ Y j) : c.Sketched A d q Y S :=
  ⟨h.sound, h.whole.congr hY, h.spurned_lt, h.faithful, h.pending.mono fun j => (hY j).2⟩

/-- What is stored was visited, unless its reference leads to all declarations that are read. -/
theorem visited (h : c.Sketched A d q X S) {ref : Json} (hi : c.stored? ref = some i) (hs : S s)
    (hfree : ¬d.Reaches (.ref ref) s) : c.Visited i := by
  refine (h.whole.stored ref i hi).resolve_right fun hX => hfree ?_
  obtain ⟨s', -, hdepicts⟩ := h.faithful.stored ref i hi
  obtain ⟨⟨text, rfl, -⟩, -, hq, hname, -⟩ := h.sound.built ref i (h.sound.stored?_eq_some_iff.1 hi)
  have hreaches := h.pending i hX hq hdepicts.slot? (by rw [hname]; rfl) s hs
  rwa [hname] at hreaches

/-- A reference that does not lead to what is read was resolved to a node that was visited, and that
depicts what the reference stands for. -/
theorem target (h : c.Sketched A d q X S) (hi : c.Visited i) {ref : Json}
    (hdepicts : c.graph.Depicts i (.ref ref)) (hs : S s) (hfree : ¬d.Reaches (.ref ref) s) :
    ∃ t s', (c.graph.node i).body = .ref ⟨ref, some t⟩ ∧ c.Visited t ∧ d.Declares ref s' ∧
      c.graph.Depicts t s' ∧ ∀ ref', s' = .ref ref' → ¬d.Reaches (.ref ref') s := by
  rw [Graph.Depicts] at hdepicts
  obtain ⟨target, hbody⟩ := hdepicts
  obtain ⟨t, rfl, hstored⟩ := (h.whole.ripe i hi).target ⟨ref, target⟩ (by rw [hbody]; rfl)
  obtain ⟨s', hdeclares, ht⟩ := h.faithful.stored ref t hstored
  refine ⟨t, s', hbody, h.visited hstored hs hfree, hdeclares, ht, ?_⟩
  -- an alias of a reference that does not lead to the declaration does not either
  rintro ref' rfl hreaches
  exact hfree (Relation.ReflTransGen.head (.target hdeclares) hreaches)

/-- A node that was visited brings into a composition what its declaration brings, unless it is a
reference that leads to the composition. -/
theorem brings (h : c.Sketched A d q X S) (hi : c.Visited i) (hdepicts : c.graph.Depicts i s') (hs : S s)
    (hfree : ∀ ref, s' = .ref ref → ¬d.Reaches (.ref ref) s) {steps : Nat}
    {props : OrderedMap Key NodeId} (hprops : c.graph.propertiesWithin steps i = .ok props) :
    ∃ m, d.Brings s' m ∧ Aligned c.graph.DepictsProperty props m := by
  induction steps generalizing i s' with
  | zero => cases hprops
  | succ steps ih =>
    rw [Graph.propertiesWithin] at hprops
    cases s' with
    | scalar type =>
      rw [Graph.Depicts] at hdepicts
      simp only [hdepicts] at hprops
      cases hprops
      exact ⟨[], .scalar type, .nil⟩
    | array items =>
      rw [Graph.Depicts] at hdepicts
      obtain ⟨k, hbody, -⟩ := hdepicts
      simp only [hbody] at hprops
      cases hprops
      exact ⟨[], .array items, .nil⟩
    | object properties =>
      have haligned := hdepicts.aligned
      rw [Graph.Depicts] at hdepicts
      simp only [hdepicts.1] at hprops
      cases hprops
      exact ⟨_, .object properties, haligned⟩
    | composed kind parts =>
      rw [Graph.Depicts] at hdepicts
      simp only [hdepicts] at hprops
      cases hprops
      exact (h.faithful.drawn i hi).composed kind parts hdepicts
    | ref ref =>
      obtain ⟨t, s'', hbody, ht, hdeclares, hdepicts', hfree'⟩ := h.target hi hdepicts hs (hfree ref rfl)
      simp only [hbody] at hprops
      obtain ⟨m, hbrings, haligned⟩ := ih ht hdepicts' hfree' hprops
      exact ⟨m, .ref hdeclares hbrings, haligned⟩

/-- All references on the way from such a node were visited. -/
theorem visited_of_refers (h : c.Sketched A d q X S) (hi : c.Visited i)
    (hdepicts : c.graph.Depicts i s') (hs : S s)
    (hfree : ∀ ref, s' = .ref ref → ¬d.Reaches (.ref ref) s) {j : NodeId}
    (hj : Relation.ReflTransGen c.graph.Refers i j) : c.Visited j := by
  induction hj using Relation.ReflTransGen.head_induction_on generalizing s' with
  | refl => exact hi
  | @head i k hik _ ih =>
    obtain ⟨ref, hbody⟩ := hik
    obtain rfl : s' = .ref ref := hdepicts.eq_ref hbody
    obtain ⟨t, s'', hbody', ht, -, hdepicts', hfree'⟩ := h.target hi hdepicts hs (hfree ref rfl)
    rw [hbody] at hbody'
    cases hbody'
    exact ih ht hdepicts' hfree'

end Sketched

end Context

end ApiGraph
