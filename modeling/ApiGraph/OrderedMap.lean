/-!
# Maps in order of insertion

A map is the list of its entries, each key once, in the order in which the keys came. Keys are
compared by `==`, under which different spellings may be one key; a key keeps the spelling under
which it came first.

* `OrderedMap.get?` — the value of a key;
* `OrderedMap.insert` — binds a key: in its place when it is there already, at the end otherwise;
* `OrderedMap.keys`, `OrderedMap.values`, `OrderedMap.contains` — views.

Inserting changes the value of its key only (`get?_insert_self`, `get?_insert_of_beq_false`), keeps
the keys that are there as they are (`keys_insert`), and so never makes a key occur twice
(`distinct_keys_insert`). When all keys of a second map are bound, its values come before the old ones
(`get?_insertAll`), and its keys come after the old ones (`keys_insertAll`).
-/

namespace ApiGraph

/-- Entries in order of insertion. -/
abbrev OrderedMap (κ α : Type) := List (κ × α)

namespace OrderedMap

variable {κ α : Type}

/-- The keys in order. -/
def keys (m : OrderedMap κ α) : List κ := List.map Prod.fst m

/-- The values in order. -/
def values (m : OrderedMap κ α) : List α := List.map Prod.snd m

variable [BEq κ]

/-- The value of a key. -/
def get? (key : κ) : OrderedMap κ α → Option α
  | [] => none
  | (k, a) :: rest => if k == key then some a else get? key rest

/-- Binds a key, in its place when it is there already and at the end otherwise. -/
def insert (key : κ) (value : α) : OrderedMap κ α → OrderedMap κ α
  | [] => [(key, value)]
  | (k, a) :: rest => if k == key then (k, value) :: rest else (k, a) :: insert key value rest

/-- Binds all keys of a second map, in their order. -/
def insertAll (m : OrderedMap κ α) (more : OrderedMap κ α) : OrderedMap κ α :=
  more.foldl (fun m (k, a) => insert k a m) m

/-- Whether a key is bound. -/
def contains (key : κ) (m : OrderedMap κ α) : Bool := (get? key m).isSome

/-- Whether no key occurs twice. -/
def Distinct (ks : List κ) : Prop := ks.Pairwise fun a b => (a == b) = false

/-! ## Laws of insertion -/

@[simp] theorem get?_nil (key : κ) : get? key ([] : OrderedMap κ α) = none := rfl

theorem get?_cons (k key : κ) (a : α) (rest : OrderedMap κ α) :
    get? key ((k, a) :: rest) = if k == key then some a else get? key rest := rfl

@[simp] theorem get?_insert_self [ReflBEq κ] (key : κ) (value : α) (m : OrderedMap κ α) :
    get? key (insert key value m) = some value := by
  induction m with
  | nil => simp [insert, get?]
  | cons entry rest ih =>
    obtain ⟨k, a⟩ := entry
    by_cases h : k == key
    · simp [insert, get?, h]
    · simp [insert, get?, h, ih]

theorem get?_insert_of_beq_false [PartialEquivBEq κ] {key other : κ} (h : (key == other) = false)
    (value : α) (m : OrderedMap κ α) : get? other (insert key value m) = get? other m := by
  induction m with
  | nil => simp [insert, get?, h]
  | cons entry rest ih =>
    obtain ⟨k, a⟩ := entry
    by_cases hk : k == key
    · have hko : (k == other) = false := by rw [BEq.congr_left hk, h]
      simp [insert, get?, hk, hko]
    · rw [insert, if_neg hk, get?_cons, get?_cons, ih]

theorem get?_insert_of_ne [LawfulBEq κ] {key other : κ} (h : other ≠ key) (value : α)
    (m : OrderedMap κ α) : get? other (insert key value m) = get? other m :=
  get?_insert_of_beq_false (by simpa using Ne.symm h) value m

theorem get?_append_of_some {key : κ} {m more : OrderedMap κ α} {a : α}
    (h : get? key m = some a) : get? key (m ++ more) = some a := by
  induction m with
  | nil => cases h
  | cons entry rest ih =>
    obtain ⟨k, b⟩ := entry
    rw [List.cons_append, get?_cons]
    rw [get?_cons] at h
    split at h
    · next hk => rw [if_pos hk, h]
    · next hk => rw [if_neg hk, ih h]

theorem exists_mem_of_get? {key : κ} {m : OrderedMap κ α} {a : α} (h : get? key m = some a) :
    ∃ k, (k, a) ∈ m ∧ (k == key) = true := by
  induction m with
  | nil => cases h
  | cons entry rest ih =>
    obtain ⟨k, b⟩ := entry
    rw [get?_cons] at h
    split at h
    · next hk =>
      cases h
      exact ⟨k, List.mem_cons_self, hk⟩
    · obtain ⟨k', hmem, hk'⟩ := ih h
      exact ⟨k', List.mem_cons_of_mem _ hmem, hk'⟩

theorem get?_of_mem [ReflBEq κ] {key : κ} {m : OrderedMap κ α} {a : α} (hm : Distinct (keys m))
    (h : (key, a) ∈ m) : get? key m = some a := by
  induction m with
  | nil => cases h
  | cons entry rest ih =>
    obtain ⟨k, b⟩ := entry
    obtain ⟨hk, hrest⟩ := List.pairwise_cons.1 hm
    rw [get?_cons]
    rcases List.mem_cons.1 h with he | h
    · cases he
      rw [if_pos BEq.rfl]
    · have hne : (k == key) = false := hk key (List.mem_map_of_mem h)
      rw [if_neg (by rw [hne]; exact Bool.false_ne_true), ih hrest h]

theorem insert_of_get?_eq_none {key : κ} {m : OrderedMap κ α} (h : get? key m = none) (value : α) :
    insert key value m = m ++ [(key, value)] := by
  induction m with
  | nil => rfl
  | cons entry rest ih =>
    obtain ⟨k, a⟩ := entry
    rw [get?_cons] at h
    split at h
    · cases h
    · next hk => rw [insert, if_neg hk, ih h, List.cons_append]

theorem get?_eq_none_iff_beq {key : κ} {m : OrderedMap κ α} :
    get? key m = none ↔ ∀ k ∈ keys m, (k == key) = false := by
  induction m with
  | nil => simp [keys]
  | cons entry rest ih =>
    obtain ⟨k, a⟩ := entry
    by_cases h : k == key
    · simp [get?, keys, h]
    · simpa [get?, keys, h] using ih

theorem get?_eq_none_iff [LawfulBEq κ] {key : κ} {m : OrderedMap κ α} :
    get? key m = none ↔ key ∉ keys m := by
  rw [get?_eq_none_iff_beq]
  constructor
  · intro h hk
    simpa using h key hk
  · intro h k hk
    simpa using fun e : k = key => h (e ▸ hk)

/-- A key that is there keeps its place and spelling, and a new one comes last. -/
theorem keys_insert (key : κ) (value : α) (m : OrderedMap κ α) :
    keys (insert key value m) = if contains key m then keys m else keys m ++ [key] := by
  induction m with
  | nil => simp [insert, keys, contains]
  | cons entry rest ih =>
    obtain ⟨k, a⟩ := entry
    by_cases h : k == key
    · simp [insert, keys, contains, get?_cons, h]
    · simp only [keys, contains] at ih
      simp only [insert, keys, contains, get?_cons, h, Bool.false_eq_true, if_false, List.map_cons,
        List.cons_append, ih]
      split <;> simp_all

/-- A value takes the place of the one before, and a new one comes last. -/
theorem exists_values_insert (key : κ) (value : α) (m : OrderedMap κ α) :
    ∃ xs ys, values (insert key value m) = xs ++ value :: ys ∧
      ((get? key m = none ∧ values m = xs ∧ ys = []) ∨
        ∃ old, get? key m = some old ∧ values m = xs ++ old :: ys) := by
  induction m with
  | nil => exact ⟨[], [], rfl, .inl ⟨rfl, rfl, rfl⟩⟩
  | cons entry rest ih =>
    obtain ⟨k, a⟩ := entry
    by_cases h : k == key
    · exact ⟨[], values rest, by simp [insert, values, h], .inr ⟨a, by simp [get?, h], rfl⟩⟩
    · obtain ⟨xs, ys, hinsert, hold⟩ := ih
      refine ⟨a :: xs, ys, ?_, ?_⟩
      · rw [insert, if_neg h, List.cons_append, ← hinsert]
        rfl
      · rw [get?_cons, if_neg h]
        rcases hold with ⟨hnone, hvalues, hys⟩ | ⟨old, hsome, hvalues⟩
        · exact .inl ⟨hnone, congrArg (a :: ·) hvalues, hys⟩
        · exact .inr ⟨old, hsome, congrArg (a :: ·) hvalues⟩

/-- The values around a new one are old ones, in their order. -/
theorem exists_values_insert_sublist (key : κ) (value : α) (m : OrderedMap κ α) :
    ∃ xs ys, values (insert key value m) = xs ++ value :: ys ∧ (xs ++ ys).Sublist (values m) := by
  obtain ⟨xs, ys, hvalues, ⟨-, hold, rfl⟩ | ⟨old, -, hold⟩⟩ := exists_values_insert key value m
  · exact ⟨xs, [], hvalues, by simp [hold]⟩
  · refine ⟨xs, ys, hvalues, hold ▸ ?_⟩
    exact List.Sublist.append_left (List.sublist_cons_self old ys) xs

theorem mem_values_insert {key : κ} {value a : α} {m : OrderedMap κ α}
    (h : a ∈ values (insert key value m)) : a = value ∨ a ∈ values m := by
  obtain ⟨xs, ys, hvalues, hsub⟩ := exists_values_insert_sublist key value m
  rw [hvalues, List.mem_append, List.mem_cons, or_left_comm] at h
  exact h.imp_right fun h => hsub.subset (List.mem_append.2 h)

/-- The values of one map in another one are those of one of the two. -/
theorem mem_values_insertAll {m more : OrderedMap κ α} {a : α} (h : a ∈ values (insertAll m more)) :
    a ∈ values m ∨ a ∈ values more := by
  induction more generalizing m with
  | nil => exact .inl h
  | cons e rest ih =>
    obtain ⟨key, value⟩ := e
    rcases ih (m := insert key value m) h with h | h
    · rcases mem_values_insert h with rfl | h
      · exact .inr List.mem_cons_self
      · exact .inl h
    · exact .inr (List.mem_cons_of_mem _ h)

/-- The entries after an insertion are old ones and the new one, which may be under a key that is
spelt in another way. -/
theorem mem_insert {key : κ} {value : α} {m : OrderedMap κ α} {e : κ × α}
    (h : e ∈ insert key value m) :
    e ∈ m ∨ e = (key, value) ∨ ∃ old, (e.1, old) ∈ m ∧ (e.1 == key) = true ∧ e.2 = value := by
  induction m with
  | nil => exact .inr (.inl (List.mem_singleton.1 h))
  | cons entry rest ih =>
    obtain ⟨k, a⟩ := entry
    by_cases hk : k == key
    · rw [insert, if_pos hk] at h
      rcases List.mem_cons.1 h with rfl | h
      · exact .inr (.inr ⟨a, List.mem_cons_self, hk, rfl⟩)
      · exact .inl (List.mem_cons_of_mem _ h)
    · rw [insert, if_neg hk] at h
      rcases List.mem_cons.1 h with rfl | h
      · exact .inl List.mem_cons_self
      · rcases ih h with h | h | ⟨old, hold, hrest⟩
        · exact .inl (List.mem_cons_of_mem _ h)
        · exact .inr (.inl h)
        · exact .inr (.inr ⟨old, List.mem_cons_of_mem _ hold, hrest⟩)

/-- Equal keys have the same value. -/
theorem get?_congr [PartialEquivBEq κ] {key other : κ} (h : key == other) (m : OrderedMap κ α) :
    get? key m = get? other m := by
  induction m with
  | nil => rfl
  | cons entry rest ih => rw [get?_cons, get?_cons, BEq.congr_right h, ih]

theorem get?_insert [EquivBEq κ] (key other : κ) (value : α) (m : OrderedMap κ α) :
    get? other (insert key value m) = if key == other then some value else get? other m := by
  by_cases h : key == other
  · rw [if_pos h]
    induction m with
    | nil => simp [insert, get?, h]
    | cons entry rest ih =>
      obtain ⟨k, a⟩ := entry
      by_cases hk : k == key
      · simp [insert, get?, hk, BEq.trans hk h]
      · rw [insert, if_neg hk, get?_cons, ← BEq.congr_right h, if_neg hk]
        exact ih
  · rw [if_neg h, get?_insert_of_beq_false (Bool.eq_false_iff.2 h)]

/-- Insertion never makes a key occur twice. -/
theorem distinct_keys_insert {m : OrderedMap κ α} (h : Distinct (keys m)) (key : κ) (value : α) :
    Distinct (keys (insert key value m)) := by
  rw [keys_insert]
  split
  · exact h
  · next hk =>
    have hnone : get? key m = none := by simpa [contains] using hk
    refine List.pairwise_append.2 ⟨h, by simp, ?_⟩
    intro a ha b hb
    rw [List.mem_singleton.1 hb]
    exact get?_eq_none_iff_beq.1 hnone a ha

/-- Keys that are all new come last, in their order. -/
theorem insertAll_of_distinct {m more : OrderedMap κ α} (h : Distinct (keys (m ++ more))) :
    insertAll m more = m ++ more := by
  induction more generalizing m with
  | nil => exact (List.append_nil m).symm
  | cons e rest ih =>
    obtain ⟨key, value⟩ := e
    have hnone : get? key m = none := by
      rw [Distinct, keys, List.map_append, List.pairwise_append] at h
      exact get?_eq_none_iff_beq.2 fun k hk => h.2.2 k hk key List.mem_cons_self
    have hstep : insertAll m ((key, value) :: rest) = insertAll (m ++ [(key, value)]) rest := by
      rw [← insert_of_get?_eq_none hnone]
      rfl
    rw [hstep, ih (by rwa [List.append_assoc]), List.append_assoc]
    rfl

theorem distinct_keys_insertAll {m : OrderedMap κ α} (h : Distinct (keys m)) (more : OrderedMap κ α) :
    Distinct (keys (insertAll m more)) := by
  induction more generalizing m with
  | nil => exact h
  | cons e rest ih => exact ih (distinct_keys_insert h e.1 e.2)

/-- What the second map binds comes before what the first one does. -/
theorem get?_insertAll [EquivBEq κ] (key : κ) (m : OrderedMap κ α) {more : OrderedMap κ α}
    (h : Distinct (keys more)) : get? key (insertAll m more) = (get? key more).or (get? key m) := by
  induction more generalizing m with
  | nil => rfl
  | cons e rest ih =>
    obtain ⟨k, a⟩ := e
    obtain ⟨hnew, hrest⟩ := List.pairwise_cons.1 h
    have hstep : get? key (insertAll m ((k, a) :: rest)) =
        (get? key rest).or (get? key (insert k a m)) := ih _ hrest
    rw [hstep, get?_insert, get?_cons]
    by_cases hk : k == key
    · have hnone : get? key rest = none := get?_eq_none_iff_beq.2 fun k' hk' => by
        rw [← BEq.congr_right hk, BEq.comm]
        exact hnew k' hk'
      rw [if_pos hk, if_pos hk, hnone]
      rfl
    · rw [if_neg hk, if_neg hk]

theorem contains_iff {key : κ} {m : OrderedMap κ α} :
    contains key m = true ↔ ∃ k ∈ keys m, (k == key) = true := by
  rw [contains, Option.isSome_iff_ne_none, Ne, get?_eq_none_iff_beq]
  simp

theorem contains_insert [EquivBEq κ] (key other : κ) (value : α) (m : OrderedMap κ α) :
    contains other (insert key value m) = (key == other || contains other m) := by
  rw [contains, get?_insert, contains]
  cases key == other <;> rfl

theorem contains_insertAll [EquivBEq κ] (key : κ) (m more : OrderedMap κ α) :
    contains key (insertAll m more) = (contains key m || contains key more) := by
  induction more generalizing m with
  | nil => exact (Bool.or_false _).symm
  | cons e rest ih =>
    obtain ⟨k, a⟩ := e
    have hcons : contains key ((k, a) :: rest) = (k == key || contains key rest) := by
      rw [contains, get?_cons, contains]
      cases k == key <;> rfl
    have hstep : contains key (insertAll m ((k, a) :: rest)) =
        (contains key (insert k a m) || contains key rest) := ih _
    rw [hstep, contains_insert, hcons, Bool.or_left_comm, Bool.or_assoc, Bool.or_left_comm]

/-- The keys of the first map come first, and then those that are new, each once. -/
theorem keys_insertAll [EquivBEq κ] (m more : OrderedMap κ α) :
    keys (insertAll m more) = keys m ++ ((keys more).filter fun k => !contains k m).eraseDups := by
  induction more generalizing m with
  | nil => exact (List.append_nil _).symm
  | cons e rest ih =>
    obtain ⟨key, a⟩ := e
    have hstep : keys (insertAll m ((key, a) :: rest)) = keys (insert key a m) ++
        ((keys rest).filter fun k => !(key == k || contains k m)).eraseDups := by
      simp only [← contains_insert key _ a]
      exact ih _
    have hkeys : keys ((key, a) :: rest) = key :: keys rest := rfl
    rw [hstep, keys_insert, hkeys]
    by_cases hk : contains key m
    · have hold : ∀ k, (key == k || contains k m) = contains k m := fun k => by
        cases hkk : key == k with
        | false => rfl
        | true =>
          rw [contains, ← get?_congr hkk, Bool.true_or]
          exact hk.symm
      rw [if_pos hk, List.filter_cons_of_neg (by simp [hk])]
      simp only [hold]
    · rw [if_neg hk, List.filter_cons_of_pos (by simp [hk]), List.eraseDups_cons, List.filter_filter,
        List.append_assoc]
      simp only [Bool.not_or, BEq.comm (a := key), List.singleton_append]

end OrderedMap

end ApiGraph
