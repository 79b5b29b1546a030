import ApiGraph.Proofs.Visiting.Steps

/-!
# How deep sprouts are

The nodes of a declaration lie at most as deep as the declaration, and what they refer to is referred
to by the declaration.

* `Json.references`, `Json.Within` — the references in a value, and values of bounded depth;
* `Schema.Low`, `Low` — schemas and nodes of bounded depth;
* `Schema.low_read` — a schema is as deep as the value that it is read from;
* `Graph.low_plant` — and the nodes are as deep as the schema.
-/

namespace ApiGraph

open OrderedMap

/-! ## Values -/

namespace Json

mutual

/-- The references in a value, at any depth. -/
def references : Json → List Json
  | .arr items => referencesItems items
  | .obj members => referencesMembers members
  | _ => []

/-- The references in the items of an array. -/
def referencesItems : List Json → List Json
  | [] => []
  | x :: xs => references x ++ referencesItems xs

/-- The references in the members of an object. -/
def referencesMembers : List (String × Json) → List Json
  | [] => []
  | (k, v) :: ms => (if k = "$ref" then [v] else []) ++ references v ++ referencesMembers ms

end

mutual

theorem length_references : ∀ v : Json, v.references.length = v.count "$ref"
  | .null => rfl
  | .bool _ => rfl
  | .int _ => rfl
  | .float _ => rfl
  | .str _ => rfl
  | .arr items => length_referencesItems items
  | .obj members => length_referencesMembers members

theorem length_referencesItems :
    ∀ items : List Json, (referencesItems items).length = countItems "$ref" items
  | [] => rfl
  | x :: xs => by
    rw [referencesItems, countItems, List.length_append, length_references x,
      length_referencesItems xs]

theorem length_referencesMembers : ∀ members : List (String × Json),
    (referencesMembers members).length = countMembers "$ref" members
  | [] => rfl
  | (k, v) :: ms => by
    rw [referencesMembers, countMembers, List.length_append, List.length_append,
      length_references v, length_referencesMembers ms]
    split <;> rfl

end

/-- A value is at most so deep, and refers to these references only. -/
structure Within (R : List Json) (k : Nat) (v : Json) : Prop where
  depth : v.depth ≤ k
  references : v.references ⊆ R

theorem within_self (v : Json) : v.Within v.references v.depth := ⟨le_rfl, List.Subset.refl _⟩

variable {R : List Json} {k : Nat}

theorem within_item {x : Json} {items : List Json} (h : x ∈ items)
    (hw : (Json.arr items).Within R (k + 1)) : x.Within R k := by
  obtain ⟨hdepth, hrefs⟩ := hw
  have hsub : x.depth ≤ depthItems items ∧ x.references ⊆ referencesItems items := by
    clear hdepth hrefs
    induction items with
    | nil => cases h
    | cons y items ih =>
      rw [depthItems, referencesItems]
      rcases List.mem_cons.1 h with rfl | h
      · exact ⟨le_max_left _ _, List.subset_append_left _ _⟩
      · obtain ⟨hle, hsub⟩ := ih h
        exact ⟨hle.trans (le_max_right _ _), List.subset_append_of_subset_right _ hsub⟩
  refine ⟨?_, List.Subset.trans hsub.2 hrefs⟩
  rw [Json.depth] at hdepth
  omega

theorem within_member {e : String × Json} {members : Members} (h : e ∈ members)
    (hw : (Json.obj members).Within R (k + 1)) : e.2.Within R k ∧ (e.1 = "$ref" → e.2 ∈ R) := by
  obtain ⟨hdepth, hrefs⟩ := hw
  obtain ⟨key, v⟩ := e
  have hsub : v.depth ≤ depthMembers members ∧ v.references ⊆ referencesMembers members ∧
      (key = "$ref" → v ∈ referencesMembers members) := by
    clear hdepth hrefs
    induction members with
    | nil => cases h
    | cons e members ih =>
      obtain ⟨key', v'⟩ := e
      rw [depthMembers, referencesMembers]
      rcases List.mem_cons.1 h with he | h
      · cases he
        refine ⟨le_max_left _ _, fun x hx => ?_, fun hkey => ?_⟩
        · exact List.mem_append_left _ (List.mem_append_right _ hx)
        · rw [if_pos hkey]
          exact List.mem_append_left _ (List.mem_append_left _ (List.mem_singleton_self v))
      · obtain ⟨hle, hsub, href⟩ := ih h
        exact ⟨hle.trans (le_max_right _ _), List.subset_append_of_subset_right _ hsub,
          fun hkey => List.mem_append_right _ (href hkey)⟩
  refine ⟨⟨?_, List.Subset.trans hsub.2.1 hrefs⟩, fun hkey => hrefs (hsub.2.2 hkey)⟩
  rw [Json.depth] at hdepth
  show v.depth ≤ k
  omega

theorem depth_pos (v : Json) : 0 < v.depth := by
  cases v <;> simp [depth]

theorem mem_of_get? {key : String} {v : Json} {members : Members}
    (h : OrderedMap.get? key members = some v) : (key, v) ∈ members := by
  obtain ⟨key', hmem, hkey⟩ := exists_mem_of_get? h
  rwa [beq_iff_eq.1 hkey] at hmem

/-- What a way of keys leads to is no deeper than the value. -/
theorem within_of_follow {v v' : Json} {keys : List String} (hw : v.Within R k)
    (h : Document.follow v keys = some v') : v'.Within R k := by
  induction keys generalizing v with
  | nil =>
    cases h
    exact hw
  | cons key rest ih =>
    rw [Document.follow] at h
    cases v with
    | obj members =>
      cases hget : OrderedMap.get? key members with
      | none => simp [Json.get?, hget] at h
      | some next =>
        simp only [Json.get?, hget] at h
        cases k with
        | zero => exact absurd hw.depth (Nat.not_le.2 (depth_pos _))
        | succ k =>
          have hnext := (within_member (mem_of_get? hget) hw).1
          exact ih ⟨hnext.depth.trans (Nat.le_succ k), hnext.references⟩ h
    | _ => simp [Json.get?] at h

end Json

/-- The declarations of a document are no deeper than the document. -/
theorem Document.within_of_lookupValue {d : Document} {ref : Json} {members : Json.Members}
    {R : List Json} {k : Nat} (hd : d.raw.Within R k) (h : d.lookupValue ref = .ok members) :
    (Json.obj members).Within R k := by
  cases ref with
  | str ref =>
    rw [lookupValue, lookup] at h
    split at h
    · cases h
    · split at h
      · cases h
      · next hfollow =>
        cases h
        exact Json.within_of_follow hd hfollow
      · cases h
  | _ => cases h

/-! ## Schemas -/

namespace Schema

mutual

/-- A schema of which all nodes lie at most so deep. -/
def Low (R : List Json) : Schema → Nat → Prop
  | .ref target, k => 0 < k ∧ target ∈ R
  | .composed _ members, k => ∃ m, k = m + 1 ∧ members.Within R m
  | .scalar _, k => 0 < k
  | .array items, k => ∃ m, k = m + 1 ∧ Low R items m
  | .object properties, k => ∃ m, k = m + 1 ∧ LowEach R properties m

/-- The same for properties: the types lie one level deeper. -/
def LowEach (R : List Json) : List (PropertyOf Schema) → Nat → Prop
  | [], _ => True
  | ⟨_, _, _, type⟩ :: rest, k => (∃ m, k = m + 1 ∧ Low R type m) ∧ LowEach R rest k

end

variable {R : List Json}

mutual

/-- A schema is as deep as the value that it is read from. -/
theorem low_read (owner : String) : ∀ (v : Json) {k : Nat} {schema : Schema}, v.Within R k →
    read owner v = .ok schema → schema.Low R k
  | .obj members, k, schema, hw, h => by
    cases k with
    | zero => exact absurd hw.depth (Nat.not_le.2 (Json.depth_pos _))
    | succ k =>
      have hmembers : ∀ e ∈ members, e.2.Within R k := fun e he =>
        (Json.within_member he hw).1
      rw [read] at h
      split at h
      · cases h
      · next hform =>
        cases h
        rcases Form.leaf_cases hform with
          ⟨target, rfl, hget⟩ | ⟨kind, parts, rfl, hget⟩ | ⟨primitive, rfl⟩
        · exact ⟨Nat.succ_pos k, (Json.within_member (Json.mem_of_get? hget) hw).2 rfl⟩
        · exact ⟨k, rfl, hmembers _ (Json.mem_of_get? hget)⟩
        · exact Nat.succ_pos k
      · cases hitems : readItems owner members with
        | error fault => rw [hitems] at h; cases h
        | ok items =>
          rw [hitems] at h
          cases h
          exact ⟨k, rfl, low_readItems owner members hmembers hitems⟩
      · next required hform =>
        cases hprops : readProperties required members with
        | error fault => rw [hprops] at h; cases h
        | ok properties =>
          rw [hprops] at h
          cases h
          exact ⟨k, rfl, low_readProperties required members hmembers hprops⟩
  | .null, _, _, _, h => by cases h
  | .bool _, _, _, _, h => by cases h
  | .int _, _, _, _, h => by cases h
  | .float _, _, _, _, h => by cases h
  | .str _, _, _, _, h => by cases h
  | .arr _, _, _, _, h => by cases h

theorem low_readItems (owner : String) : ∀ (members : List (String × Json)) {k : Nat}
    {schema : Schema}, (∀ e ∈ members, e.2.Within R k) → readItems owner members = .ok schema →
      schema.Low R k
  | [], _, _, _, h => by cases h
  | (key, value) :: rest, k, schema, hw, h => by
    rw [readItems] at h
    split at h
    · split at h
      · exact low_read owner value (hw _ List.mem_cons_self) h
      · cases h
    · exact low_readItems owner rest (fun e he => hw e (List.mem_cons_of_mem _ he)) h

theorem low_readProperties (required : List String) : ∀ (members : List (String × Json)) {k : Nat}
    {properties : List (PropertyOf Schema)}, (∀ e ∈ members, e.2.Within R k) →
      readProperties required members = .ok properties → LowEach R properties k
  | [], _, _, _, h => by
    cases h
    exact trivial
  | (key, value) :: rest, k, properties, hw, h => by
    have hrest : readProperties required rest = .ok properties → LowEach R properties k :=
      low_readProperties required rest fun e he => hw e (List.mem_cons_of_mem _ he)
    cases value with
    | obj declared =>
      have hvalue := hw _ List.mem_cons_self
      rw [readProperties] at h
      split at h
      · cases k with
        | zero => exact absurd hvalue.depth (Nat.not_le.2 (Json.depth_pos _))
        | succ k =>
          refine low_readEach required declared (fun e he => ?_) h
          exact (Json.within_member he hvalue).1
      · exact hrest h
    | _ =>
      simp only [readProperties] at h
      split at h
      · split at h
        · cases h
        · cases h
          exact trivial
      · exact hrest h

theorem low_readEach (required : List String) : ∀ (members : List (String × Json)) {k : Nat}
    {properties : List (PropertyOf Schema)}, (∀ e ∈ members, e.2.Within R k) →
      readEach required members = .ok properties → LowEach R properties (k + 1)
  | [], _, _, _, h => by
    cases h
    exact trivial
  | (name, declaration) :: rest, k, properties, hw, h => by
    rw [readEach] at h
    cases hread : read name declaration with
    | error fault => rw [hread] at h; cases h
    | ok type =>
      rw [hread] at h
      cases hrest : readEach required rest with
      | error fault => rw [hrest] at h; cases h
      | ok others =>
        rw [hrest] at h
        cases h
        exact ⟨⟨k, rfl, low_read name declaration (hw _ List.mem_cons_self) hread⟩,
          low_readEach required rest (fun e he => hw e (List.mem_cons_of_mem _ he)) hrest⟩

end

end Schema

/-! ## Nodes -/

/-- What a node keeps to read later is at most so deep, and it refers to these references only. -/
structure Node.Shallow (R : List Json) (k : Nat) (n : Node) : Prop where
  reference : ∀ link, n.body.link? = some link → link.ref ∈ R
  members : ∀ kind parts, n.body = .composed kind (some parts) → parts.Within R k
  shapes : ∀ shapes, n.body = .union shapes → ∀ e ∈ shapes, e.isObject = true → e.Within R k

/-- A node of which everything below lies at most so deep. -/
def Low (R : List Json) (g : Graph) : Nat → NodeId → Prop
  | 0, _ => False
  | k + 1, i => (g.node i).Shallow R k ∧ ∀ j ∈ (g.node i).below, Low R g k j

variable {R : List Json} {g g' : Graph} {i : NodeId} {top k : Nat}

theorem Node.Shallow.kept {n n' : Node} (h : n.Shallow R k) (hk : n.Kept n') : n'.Shallow R k := by
  have hb := hk.body
  refine ⟨fun link hlink => ?_, fun kind parts hbody => ?_, fun shapes hbody => ?_⟩
  · obtain ⟨link', hlink', href⟩ := hk.link hlink
    rw [← href]
    exact h.reference link' hlink'
  · rw [hbody] at hb
    rcases hn : n.body with _ | _ | _ | _ | _ | _ | _ | ⟨_, _, _ | _⟩ | _ <;> rw [hn] at hb <;>
      simp [Body.unlinked] at hb
    obtain ⟨rfl, rfl⟩ := hb
    exact h.members _ _ hn
  · rw [hbody] at hb
    rcases hn : n.body with _ | _ | _ | _ | _ | _ | _ | ⟨_, _, _ | _⟩ | _ <;> rw [hn] at hb <;>
      simp [Body.unlinked] at hb
    rw [hb]
    exact h.shapes _ hn

/-- A sprout is as deep as before as long as its nodes are kept. -/
theorem Low.kept (hlow : Low R g k i) (h : Sprout g i top)
    (hkept : ∀ j, i.index ≤ j.index → j.index < top → (g.node j).Kept (g'.node j)) :
    Low R g' k i := by
  induction k generalizing i top with
  | zero => exact hlow
  | succ k ih =>
    obtain ⟨hshallow, hbelow⟩ := hlow
    obtain ⟨ends, inside, below_size, bud, order, apart, sprouts⟩ := h
    have hi := hkept i le_rfl inside
    refine ⟨hshallow.kept hi, ?_⟩
    rw [hi.below]
    intro j hj
    obtain ⟨hlt, hle⟩ := order j hj
    exact ih (hbelow j hj) (sprouts j hj) fun m hm htop => hkept m (by omega) (by omega)

theorem Low.mono {m : Nat} (h : Low R g k i) (hkm : k ≤ m) : Low R g m i := by
  induction k generalizing m i with
  | zero => exact h.elim
  | succ k ih =>
    obtain ⟨m, rfl⟩ : ∃ l, m = l + 1 := ⟨m - 1, by omega⟩
    obtain ⟨⟨hreference, hmembers, hshapes⟩, hbelow⟩ := h
    refine ⟨⟨hreference, fun kind parts hbody => ?_, fun shapes hbody e he hobject => ?_⟩,
      fun j hj => ih (hbelow j hj) (by omega)⟩
    · have hw := hmembers kind parts hbody
      exact ⟨hw.depth.trans (by omega), hw.references⟩
    · have hw := hshapes shapes hbody e he hobject
      exact ⟨hw.depth.trans (by omega), hw.references⟩

theorem Low.pos (h : Low R g k i) : 0 < k := by
  cases k with
  | zero => exact h.elim
  | succ k => exact Nat.succ_pos k

namespace Graph

/-- A node that neither refers to anything nor keeps anything to read. -/
theorem shallow_of_body {n : Node} (hlink : n.body.link? = none)
    (hcomposed : ∀ kind parts, n.body ≠ .composed kind (some parts))
    (hunion : ∀ shapes, n.body ≠ .union shapes) : n.Shallow R k where
  reference link h := by
    rw [hlink] at h
    cases h
  members kind parts h := absurd h (hcomposed kind parts)
  shapes shapes h := absurd h (hunion shapes)

theorem low_alloc {n : Node} (h : n.Shallow R k) (hbelow : n.below = []) :
    Low R (g.alloc n).2 (k + 1) (g.alloc n).1 := by
  rw [Low, node_alloc_self, hbelow]
  exact ⟨h, fun _ hj => absurd hj List.not_mem_nil⟩

theorem low_update {n : Node} {j : NodeId} {f : Node → Node} (hj : Planted (g.alloc n).2 g' j)
    (hlow : Low R g' k j) (hself : (g'.update (g.alloc n).1 f).node (g.alloc n).1 = f n)
    (h : (f n).Shallow R k) (hbelow : (f n).below = [j]) :
    Low R (g'.update (g.alloc n).1 f) (k + 1) (g.alloc n).1 := by
  have hindex := hj.index
  rw [size_alloc] at hindex
  rw [Low, hself, hbelow]
  refine ⟨h, fun m hm => ?_⟩
  rw [List.mem_singleton.1 hm]
  refine hlow.kept hj.sprout fun m hjm _ => ?_
  rw [node_update_of_ne g' (by rintro rfl; exact absurd hjm (by rw [hindex]; exact Nat.not_succ_le_self _))]
  exact Node.Kept.refl _

/-- A property whose type is no reference lies one level above its type. -/
theorem low_plain (parent : Option NodeId) (g : Graph) (name : String) (required : Bool)
    (declaration : Json) {type : Schema} (htype : ∀ target, type ≠ .ref target)
    (hlow : ∀ {n : Node}, Low R (plant (some (g.alloc n).1) (g.alloc n).2 type).2 k
      (plant (some (g.alloc n).1) (g.alloc n).2 type).1) :
    Low R (g.plantProperty parent ⟨name, required, declaration, type⟩).2 (k + 1)
      (g.plantProperty parent ⟨name, required, declaration, type⟩).1 := by
  let slot : Slot := ⟨.bool required, declaration, none⟩
  let n : Node := { body := .property slot [] none, name := .str name, parent := parent }
  let t := (plant (some (g.alloc n).1) (g.alloc n).2 type).1
  have hplanted := (planted_plant (some (g.alloc n).1) (g.alloc n).2 type).1
  have hupdate := planted_update
    (f := fun n => { n with
      body := .property { slot with type := some t } [] none
      children := [some t] })
    hplanted (loose_property rfl (by simp)) rfl (by simp) rfl rfl rfl (owns_plant _ _ type)
  have hplantProperty : g.plantProperty parent ⟨name, required, declaration, type⟩ =
      ((g.alloc n).1, (plant (some (g.alloc n).1) (g.alloc n).2 type).2.update (g.alloc n).1
        fun n => { n with
          body := .property { slot with type := some t } [] none
          children := [some t] }) := by
    rw [plantProperty]
    exact htype
  rw [hplantProperty]
  exact low_update hplanted hlow hupdate.2 (shallow_of_body rfl (by simp) (by simp)) rfl

/-- The properties of an object, to which one is added, lie as deep as before. -/
theorem low_put {object p : NodeId} {name : String} (h : Sprout g object g.size)
    (hobject : (g.node object).body = .object) (hp : Planted g g' p)
    (hbelow : ∀ j ∈ (g.node object).below, Low R g k j) (hlow : Low R g' k p) :
    ∀ j ∈ ((g'.update object fun n => n.putProperty (.text name) p).node object).below,
      Low R (g'.update object fun n => n.putProperty (.text name) p) k j := by
  have hlt := h.lt_size
  have hindex := hp.index
  have hsize : object.index < g'.size := by
    have := hp.sprout.inside
    omega
  have hsame : g'.node object = g.node object := hp.node_eq object hlt
  have hother : ∀ m : NodeId, object.index < m.index →
      (g'.node m).Kept ((g'.update object fun n => n.putProperty (.text name) p).node m) := by
    intro m hm
    rw [node_update_of_ne g' (by rintro rfl; exact hm.false)]
    exact Node.Kept.refl _
  have hself : ((g'.update object fun n => n.putProperty (.text name) p).node object).below =
      values (OrderedMap.insert (.text name) p (g.node object).props) := by
    rw [node_update_self g' hsize, Node.below, Node.body_putProperty, hsame, hobject]
    exact congrArg values (Node.props_putProperty _ _ _)
  rw [hself]
  intro j hj
  obtain ⟨e, he, rfl⟩ := List.mem_map.1 hj
  have hold : ∀ j ∈ (g.node object).below,
      Low R (g'.update object fun n => n.putProperty (.text name) p) k j := by
    obtain ⟨ends, -, -, -, order, -, sprouts⟩ := h
    intro j hj
    obtain ⟨horder, hends⟩ := order j hj
    refine (hbelow j hj).kept (sprouts j hj) fun m hm htop => ?_
    rw [← hp.node_eq m (by omega)]
    exact hother m (by omega)
  have hnew : Low R (g'.update object fun n => n.putProperty (.text name) p) k p :=
    hlow.kept hp.sprout fun m hm _ => hother m (by omega)
  have hmem : ∀ e ∈ (g.node object).props, e.2 ∈ (g.node object).below := fun e he => by
    rw [Node.below, hobject]
    exact List.mem_map_of_mem he
  rcases mem_insert he with he | rfl | ⟨old, -, -, hvalue⟩
  · exact hold _ (hmem e he)
  · exact hnew
  · rw [hvalue]
    exact hnew

mutual

/-- The nodes of a schema lie at most as deep as the schema. -/
theorem low_plant (parent : Option NodeId) (g : Graph) : ∀ (schema : Schema) {k : Nat},
    schema.Low R k → Low R (g.plant parent schema).2 k (g.plant parent schema).1
  | .ref target, k, h => by
    obtain ⟨k, rfl⟩ : ∃ m, k = m + 1 := ⟨k - 1, by have := h.1; omega⟩
    rw [plant]
    refine low_alloc ⟨?_, (by simp), (by simp)⟩ rfl
    rintro link ⟨⟩
    exact h.2
  | .composed kind members, k, h => by
    obtain ⟨m, rfl, hw⟩ := h
    rw [plant]
    refine low_alloc ⟨(by rintro _ ⟨⟩), ?_, (by simp)⟩ rfl
    rintro kind' parts ⟨⟩
    exact hw
  | .scalar type, k, h => by
    obtain ⟨k, rfl⟩ : ∃ m, k = m + 1 := ⟨k - 1, by have : 0 < k := h; omega⟩
    rw [plant]
    exact low_alloc (shallow_of_body rfl (by simp) (by simp)) rfl
  | .array items, k, h => by
    obtain ⟨m, rfl, hitems⟩ := h
    let n : Node := { body := .array none, parent := parent }
    have hlow := low_plant (some (g.alloc n).1) (g.alloc n).2 items hitems
    have hplanted := (planted_plant (some (g.alloc n).1) (g.alloc n).2 items).1
    let item := (plant (some (g.alloc n).1) (g.alloc n).2 items).1
    have hupdate := planted_update
      (f := fun n => { n with body := .array (some item), children := [some item] })
      hplanted ⟨rfl, rfl, fun _ => rfl, (by simp), rfl⟩ rfl (by simp) rfl rfl rfl (owns_plant _ _ items)
    rw [plant]
    exact low_update hplanted hlow hupdate.2 (shallow_of_body rfl (by simp) (by simp)) rfl
  | .object properties, k, h => by
    obtain ⟨m, rfl, hproperties⟩ := h
    let n : Node := { body := .object, parent := parent }
    have halloc := planted_alloc g (n := n) (loose_of_body rfl (by simp)) (by simp [n]) rfl rfl rfl rfl
    have hbody : ((g.alloc n).2.node (g.alloc n).1).body = .object := by rw [node_alloc_self]
    have hbelow : ∀ j ∈ ((g.alloc n).2.node (g.alloc n).1).below, Low R (g.alloc n).2 m j := by
      rw [node_alloc_self]
      exact fun _ hj => absurd hj List.not_mem_nil
    have hmore := extended_plantEach (g.alloc n).1 (g.alloc n).2 properties halloc.sprout hbody
    rw [plant]
    refine ⟨?_, low_plantEach (g.alloc n).1 (g.alloc n).2 properties halloc.sprout hbody
      hproperties hbelow⟩
    refine shallow_of_body ?_ ?_ ?_
    · rw [hmore.body]
      rfl
    · rw [hmore.body]
      simp
    · rw [hmore.body]
      simp

theorem low_plantProperty (parent : Option NodeId) (g : Graph) :
    ∀ (p : PropertyOf Schema) {k : Nat}, p.type.Low R k →
      Low R (g.plantProperty parent p).2 (k + 1) (g.plantProperty parent p).1
  | ⟨name, required, declaration, .ref target⟩, k, h => by
    rw [plantProperty]
    refine low_alloc ⟨?_, (by simp), (by simp)⟩ rfl
    rintro link ⟨⟩
    exact h.2
  | ⟨name, required, declaration, .composed kind members⟩, k, h =>
    low_plain parent g name required declaration (by simp) (low_plant _ _ _ h)
  | ⟨name, required, declaration, .scalar type⟩, k, h =>
    low_plain parent g name required declaration (by simp) (low_plant _ _ _ h)
  | ⟨name, required, declaration, .array items⟩, k, h =>
    low_plain parent g name required declaration (by simp) (low_plant _ _ _ h)
  | ⟨name, required, declaration, .object properties⟩, k, h =>
    low_plain parent g name required declaration (by simp) (low_plant _ _ _ h)

theorem low_plantEach (object : NodeId) (g : Graph) :
    ∀ (properties : List (PropertyOf Schema)) {k : Nat}, Sprout g object g.size →
      (g.node object).body = .object → Schema.LowEach R properties k →
      (∀ j ∈ (g.node object).below, Low R g k j) →
      ∀ j ∈ ((g.plantEach object properties).node object).below,
        Low R (g.plantEach object properties) k j
  | [], k, _, _, _, hbelow => hbelow
  | p :: rest, k, h, hobject, hlow, hbelow => by
    have hboth : (∃ m, k = m + 1 ∧ p.type.Low R m) ∧ Schema.LowEach R rest k := by
      cases p
      exact hlow
    obtain ⟨⟨m, rfl, htype⟩, hrest⟩ := hboth
    obtain ⟨hplanted, hprop, hparent⟩ := planted_plantProperty (some object) g p
    have hfirst := extended_put h hobject hplanted hprop hparent
    have hp := low_plantProperty (some object) g p htype
    rw [plantEach]
    exact low_plantEach object _ rest hfirst.sprout hfirst.body hrest
      (low_put h hobject hplanted hbelow hp)

end

end Graph

end ApiGraph
