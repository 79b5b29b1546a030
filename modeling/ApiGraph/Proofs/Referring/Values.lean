import ApiGraph.Json.Reader

/-!
# Values whose objects have each key once

A value is a list of members wherever it is an object, and nothing keeps a list from having a key
twice. Those values that are read from a text have no such list.

* `Json.Proper` — no object in a value has a key twice;
* `Json.Reaches` — what is found at the end of a way of keys through objects;
* `Json.proper_of_read?` — values that are read are proper.
-/

namespace ApiGraph

open OrderedMap

namespace Json

/-- Each object has each of its keys once. -/
inductive Proper : Json → Prop
  | single {v : Json} (hashable : v.isHashable = true) : Proper v
  | arr {items : List Json} (items_proper : ∀ v ∈ items, Proper v) : Proper (.arr items)
  | obj {members : Members} (distinct : Distinct (keys members))
      (members_proper : ∀ e ∈ members, Proper e.2) : Proper (.obj members)

/-- A way of keys leads from object to object, and to the value at its end. -/
inductive Reaches : Json → List String → Json → Prop
  | refl (v : Json) : Reaches v [] v
  | member {members : Members} {key : String} {way : List String} {v w : Json}
      (found : OrderedMap.get? key members = some v) (reaches : Reaches v way w) :
      Reaches (.obj members) (key :: way) w

variable {v w w' : Json} {way way' : List String} {members : Members} {key : String}

/-! ## Ways -/

theorem Reaches.unique (h : v.Reaches way w) (h' : v.Reaches way w') : w = w' := by
  induction h with
  | refl v =>
    cases h'
    rfl
  | member found _ ih =>
    cases h' with
    | member found' reaches' =>
      rw [found] at found'
      cases found'
      exact ih reaches'

theorem Reaches.trans (h : v.Reaches way w) (h' : w.Reaches way' w') :
    v.Reaches (way ++ way') w' := by
  induction h with
  | refl v => exact h'
  | member found _ ih => exact .member found (ih h')

theorem Reaches.snoc (h : v.Reaches way (.obj members)) (hget : OrderedMap.get? key members = some w) :
    v.Reaches (way ++ [key]) w :=
  h.trans (.member hget (.refl w))

theorem reaches_cons_iff : v.Reaches (key :: way) w ↔
    ∃ members u, v = .obj members ∧ OrderedMap.get? key members = some u ∧ u.Reaches way w := by
  constructor
  · intro h
    cases h with
    | member found reaches => exact ⟨_, _, rfl, found, reaches⟩
  · rintro ⟨members, u, rfl, hget, h⟩
    exact .member hget h

/-- The last key of a way is one of the object before. -/
theorem reaches_snoc_iff : v.Reaches (way ++ [key]) w ↔
    ∃ members, v.Reaches way (.obj members) ∧ OrderedMap.get? key members = some w := by
  constructor
  · intro h
    induction way generalizing v with
    | nil =>
      obtain ⟨members, u, rfl, hget, hu⟩ := reaches_cons_iff.1 h
      cases hu
      exact ⟨members, .refl _, hget⟩
    | cons first rest ih =>
      obtain ⟨outer, u, rfl, hget, hu⟩ := reaches_cons_iff.1 h
      obtain ⟨members, hmembers, hlast⟩ := ih hu
      exact ⟨members, .member hget hmembers, hlast⟩
  · rintro ⟨members, hmembers, hget⟩
    exact hmembers.snoc hget

theorem proper_null : Json.null.Proper := .single rfl

theorem proper_str (text : String) : (Json.str text).Proper := .single rfl

theorem proper_obj_nil : (Json.obj []).Proper := .obj List.Pairwise.nil (by simp)

theorem proper_obj_iff : (Json.obj members).Proper ↔
    Distinct (keys members) ∧ ∀ e ∈ members, e.2.Proper := by
  constructor
  · intro h
    cases h with
    | single hashable => exact absurd hashable (by simp [isHashable])
    | obj distinct members_proper => exact ⟨distinct, members_proper⟩
  · exact fun h => .obj h.1 h.2

/-- The objects in a proper value are proper. -/
theorem Proper.reaches (hv : v.Proper) (h : v.Reaches way w) : w.Proper := by
  induction h with
  | refl v => exact hv
  | member found _ ih =>
    obtain ⟨k, hmem, -⟩ := OrderedMap.exists_mem_of_get? found
    exact ih ((proper_obj_iff.1 hv).2 _ hmem)

/-! ## Reading -/

theorem Proper.obj_insert (h : (Json.obj members).Proper) (hv : v.Proper) :
    (Json.obj (OrderedMap.insert key v members)).Proper := by
  obtain ⟨hdistinct, hmembers⟩ := proper_obj_iff.1 h
  refine .obj (distinct_keys_insert hdistinct key v) fun e he => ?_
  rcases mem_insert he with he | rfl | ⟨old, -, -, he⟩
  · exact hmembers e he
  · exact hv
  · rwa [he]

namespace Reader

variable {negative : Bool} {s rest : List Char}

theorem isHashable_number? (h : number? negative s = some (v, rest)) : v.isHashable = true := by
  unfold number? at h
  dsimp only at h
  -- whatever the parts of the number are, it is a whole one or a fractional one
  repeat' split at h
  all_goals cases h <;> rfl

/-- What starts with neither a bracket nor a quote is neither an array nor an object. -/
theorem isHashable_word? (h : word? s = some (v, rest)) : v.isHashable = true := by
  rw [word?.eq_def] at h
  split at h
  all_goals first
    | exact isHashable_number? h
    | cases h; rfl

/-- What is read within a bound is proper, if what was read of it before is. -/
structure ReadsProper (n : Nat) : Prop where
  value : ∀ {s v rest}, value? n s = some (v, rest) → v.Proper
  items : ∀ {done s v rest}, (∀ w ∈ done, Proper w) → items? n done s = some (v, rest) → v.Proper
  members : ∀ {done s v rest}, (Json.obj done).Proper → members? n done s = some (v, rest) → v.Proper

theorem ReadsProper.zero : ReadsProper 0 where
  value h := by simp [value?] at h
  items _ h := by simp [items?] at h
  members _ h := by simp [members?] at h

/-- One more level reads a value, or an item or a member that was read with the levels below. -/
theorem ReadsProper.succ {n : Nat} (ih : ReadsProper n) : ReadsProper (n + 1) where
  value := by
    intro s v rest h
    rw [value?.eq_def] at h
    split at h
    · next heq => cases heq
    · obtain ⟨text, -, htext⟩ := Option.map_eq_some_iff.1 h
      cases htext
      exact .single rfl
    · next heq =>
      cases heq
      split at h
      · cases h
        exact .arr (by simp)
      · exact ih.items (by simp) h
    · next heq =>
      cases heq
      split at h
      · cases h
        exact proper_obj_nil
      · exact ih.members proper_obj_nil h
    · exact .single (isHashable_word? h)
  items := by
    intro done s v rest hdone h
    rw [items?] at h
    split at h
    · cases h
    · next w after hvalue =>
      have hall : ∀ u ∈ w :: done, u.Proper := List.forall_mem_cons.2 ⟨ih.value hvalue, hdone⟩
      split at h
      · exact ih.items hall h
      · cases h
        exact .arr fun u hu => hall u (List.mem_reverse.1 hu)
      · cases h
  members := by
    intro done s v rest hdone h
    rw [members?.eq_def] at h
    split at h
    · next heq => cases heq
    · next heq =>
      cases heq
      split at h
      · cases h
      · split at h
        · split at h
          · cases h
          · next w after hvalue =>
            have hall : ∀ key, (Json.obj (OrderedMap.insert key w _)).Proper :=
              fun key => hdone.obj_insert (ih.value hvalue)
            split at h
            · exact ih.members (hall _) h
            · cases h
              exact hall _
            · cases h
        · cases h
    · cases h

theorem readsProper (n : Nat) : ReadsProper n := by
  induction n with
  | zero => exact .zero
  | succ n ih => exact ih.succ

end Reader

/-- In a value that was read, each object has each key once. -/
theorem proper_of_read? {text : String} (h : read? text = some v) : v.Proper := by
  rw [read?] at h
  split at h
  · next w rest hvalue =>
    split at h
    · cases h
      exact (Reader.readsProper _).value hvalue
    · cases h
  · cases h

end Json

end ApiGraph
