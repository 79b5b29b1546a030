import Mathlib.Data.List.Perm.Basic
import ApiGraph.Proofs.Depicting.Declarations
import ApiGraph.Proofs.Visiting.Depth

/-!
# The order of members

The named schemas of a document are found by their names. So their order, like that of all members
that no declaration is read from, does not matter for what is declared.

* `Schema.keywords`, `Schema.read_of_keywords` — the members that a declaration is read from;
* `Json.Shuffled` — values that differ in the order of other members;
* `Document.Declares.shuffled` — documents that differ so have the same declarations;
* `Document.Leads.mono`, `Document.Brings.mono`, `Document.Layered.mono` — and what follows from it.
-/

namespace ApiGraph

open OrderedMap

/-! ## The members that a declaration is read from -/

namespace Schema

/-- The keys of the members that a declaration is read from. -/
def keywords : List String :=
  ["$ref", "allOf", "oneOf", "anyOf", "not", "type", "enum", "required", "properties", "items"]

theorem readItems_eq (owner : String) (members : Json.Members) :
    readItems owner members =
      readItems owner ((get? "items" members).toList.map fun v => ("items", v)) := by
  induction members with
  | nil => rfl
  | cons e rest ih =>
    obtain ⟨key, value⟩ := e
    rw [readItems, get?_cons]
    by_cases hkey : key = "items"
    · rw [if_pos hkey, if_pos (beq_iff_eq.2 hkey)]
      simp only [Option.toList_some, List.map_cons, readItems, if_true]
    · rw [if_neg hkey, if_neg (by rwa [beq_iff_eq]), ih]

theorem readProperties_eq (required : List String) (members : Json.Members) :
    readProperties required members =
      readProperties required ((get? "properties" members).toList.map fun v => ("properties", v)) := by
  induction members with
  | nil => rfl
  | cons e rest ih =>
    obtain ⟨key, value⟩ := e
    by_cases hkey : key = "properties"
    · rw [get?_cons, if_pos (beq_iff_eq.2 hkey), hkey]
      cases value <;> simp only [Option.toList_some, List.map_cons, readProperties, if_true]
    · have hskip : readProperties required ((key, value) :: rest) = readProperties required rest := by
        cases value <;> simp only [readProperties, if_neg hkey]
      rw [hskip, get?_cons, if_neg (by rwa [beq_iff_eq]), ih]

variable {members members' : Json.Members}

theorem toOption_ofMembers_of_keywords (owner : String)
    (h : ∀ key ∈ keywords, get? key members' = get? key members) :
    (Form.ofMembers owner members').toOption = (Form.ofMembers owner members).toOption := by
  have hcontains : ∀ key ∈ keywords, contains key members' = contains key members := fun key hkey => by
    rw [contains, contains, h key hkey]
  have hfield : ∀ key ∈ keywords, Document.field key members' = Document.field key members :=
    fun key hkey => by rw [Document.field, Document.field, h key hkey]
  simp only [keywords, List.forall_mem_cons] at h hcontains hfield
  obtain ⟨href, hallOf, honeOf, -⟩ := h
  obtain ⟨-, -, -, hanyOf, hnot, -, henum, -, hproperties, -⟩ := hcontains
  obtain ⟨-, -, -, -, -, htype, -, hrequired, -⟩ := hfield
  have heffective : effectiveType owner members' = effectiveType owner members := by
    unfold effectiveType
    rw [htype, henum]
  unfold Form.ofMembers
  rw [href, hallOf, honeOf, hanyOf, hnot, heffective, hproperties, hrequired]
  split
  · rfl
  · split
    · rfl
    · rfl
    · split <;> rfl

/-- A declaration is read from the members with keywords only. -/
theorem read_of_keywords (owner : String)
    (h : ∀ key ∈ keywords, get? key members' = get? key members) :
    (read owner (.obj members')).toOption = (read owner (.obj members)).toOption := by
  have hform := toOption_ofMembers_of_keywords owner h
  have hitems : readItems owner members' = readItems owner members := by
    rw [readItems_eq, h "items" (by simp [keywords]), ← readItems_eq]
  have hproperties : ∀ required, readProperties required members' = readProperties required members :=
    fun required => by
      rw [readProperties_eq, h "properties" (by simp [keywords]), ← readProperties_eq]
  rw [read, read, hitems]
  rcases hf : Form.ofMembers owner members with fault | form <;>
    rcases hf' : Form.ofMembers owner members' with fault' | form' <;>
    rw [hf, hf'] at hform <;> cases hform
  · rfl
  · simp only [hproperties]

end Schema

/-! ## Shuffled members -/

/-- Values that differ in the order of members at one place at most, where no declaration is read on
the way. -/
inductive Json.Shuffled : Json → Json → Prop
  | refl (v : Json) : Shuffled v v
  | members {members members' : Json.Members} (distinct : Distinct (keys members))
      (perm : members.Perm members') : Shuffled (.obj members) (.obj members')
  | member (before after : Json.Members) {key : String} {v v' : Json}
      (plain : key ∉ Schema.keywords) (shuffled : Shuffled v v') :
      Shuffled (.obj (before ++ (key, v) :: after)) (.obj (before ++ (key, v') :: after))

namespace Json

theorem distinct_keys_perm {members members' : Members} (h : Distinct (keys members))
    (hperm : members.Perm members') : Distinct (keys members') := by
  refine (hperm.map Prod.fst).pairwise h ?_
  intro a b hne
  rwa [BEq.comm]

theorem Shuffled.symm {v v' : Json} (h : v.Shuffled v') : v'.Shuffled v := by
  induction h with
  | refl v => exact .refl v
  | members hdistinct hperm => exact .members (distinct_keys_perm hdistinct hperm) hperm.symm
  | member before after hplain _ ih => exact .member before after hplain ih

/-- The order of members does not matter for what is found under a key. -/
theorem get?_perm {members members' : Members} (h : Distinct (keys members))
    (hperm : members.Perm members') (key : String) :
    OrderedMap.get? key members' = OrderedMap.get? key members := by
  cases hget : OrderedMap.get? key members with
  | some v => exact get?_of_mem (distinct_keys_perm h hperm) (hperm.subset (mem_of_get? hget))
  | none =>
    cases hget' : OrderedMap.get? key members' with
    | none => rfl
    | some v =>
      rw [get?_of_mem h (hperm.symm.subset (mem_of_get? hget'))] at hget
      cases hget

/-- A member in the place of another one is found where that one was found. -/
theorem get?_member {before after : Members} {key key' : String} {v v' next : Json}
    (h : OrderedMap.get? key' (before ++ (key, v) :: after) = some next) :
    OrderedMap.get? key' (before ++ (key, v') :: after) = some next ∨
      key' = key ∧ next = v ∧ OrderedMap.get? key' (before ++ (key, v') :: after) = some v' := by
  induction before with
  | nil =>
    simp only [List.nil_append, get?_cons, beq_iff_eq] at h ⊢
    by_cases hkey : key = key'
    · simp only [hkey, if_true, Option.some.injEq] at h ⊢
      exact .inr ⟨trivial, h.symm, trivial⟩
    · simp only [if_neg hkey] at h ⊢
      exact .inl h
  | cons e before ih =>
    obtain ⟨k, w⟩ := e
    rw [List.cons_append, get?_cons] at h ⊢
    split at h
    · next hkey =>
      rw [if_pos hkey]
      exact .inl h
    · next hkey =>
      rw [if_neg hkey]
      exact ih h

/-- What is found under a key is shuffled too, and the same under a keyword. -/
theorem Shuffled.get? {v v' : Json} (h : v.Shuffled v') {key : String} {next : Json}
    (hnext : v.get? key = some next) :
    ∃ next', v'.get? key = some next' ∧ next.Shuffled next' ∧
      (key ∈ Schema.keywords → next' = next) := by
  cases h with
  | refl v => exact ⟨next, hnext, .refl next, fun _ => rfl⟩
  | members hdistinct hperm =>
    refine ⟨next, ?_, .refl next, fun _ => rfl⟩
    rw [← hnext]
    exact get?_perm hdistinct hperm key
  | member before after hplain hshuffled =>
    rcases get?_member hnext with hsame | ⟨rfl, rfl, hother⟩
    · exact ⟨next, hsame, .refl next, fun _ => rfl⟩
    · exact ⟨_, hother, hshuffled, fun hkey => absurd hkey hplain⟩

/-- What a way of keys leads to is shuffled too. -/
theorem Shuffled.follow {v v' : Json} (h : v.Shuffled v') {keys : List String} {found : Json}
    (hfound : Document.follow v keys = some found) :
    ∃ found', Document.follow v' keys = some found' ∧ found.Shuffled found' := by
  induction keys generalizing v v' with
  | nil =>
    cases hfound
    exact ⟨v', rfl, h⟩
  | cons key rest ih =>
    rw [Document.follow] at hfound ⊢
    split at hfound
    · next next hnext =>
      obtain ⟨next', hnext', hshuffled, -⟩ := h.get? hnext
      rw [hnext']
      exact ih hshuffled hfound
    · cases hfound

/-- Objects with shuffled members declare the same. -/
theorem Shuffled.declares {members : Members} {v' : Json} {s : Schema}
    (h : (Json.obj members).Shuffled v') (hdeclares : (Json.obj members).Declares s) :
    ∃ members', v' = .obj members' ∧ (Json.obj members').Declares s := by
  obtain ⟨members', rfl⟩ : ∃ members', v' = .obj members' := by
    cases h with
    | refl _ => exact ⟨members, rfl⟩
    | members _ _ => exact ⟨_, rfl⟩
    | member _ _ _ _ => exact ⟨_, rfl⟩
  have hkeywords : ∀ key ∈ Schema.keywords,
      OrderedMap.get? key members' = OrderedMap.get? key members := by
    intro key hkey
    cases hget : (Json.obj members).get? key with
    | some next =>
      obtain ⟨next', hnext', -, hsame⟩ := h.get? hget
      rw [hsame hkey] at hnext'
      exact hnext'.trans hget.symm
    | none =>
      refine Eq.trans ?_ hget.symm
      cases hget' : (Json.obj members').get? key with
      | none => exact hget'
      | some next' =>
        obtain ⟨next, hnext, -⟩ := h.symm.get? hget'
        rw [hget] at hnext
        cases hnext
  refine ⟨members', rfl, "", ?_⟩
  have hread := Schema.read_of_keywords "" hkeywords
  rw [hdeclares.read_eq ""] at hread
  cases hread' : Schema.read "" (.obj members') with
  | error fault =>
    rw [hread'] at hread
    cases hread
  | ok s' =>
    rw [hread'] at hread
    cases hread
    rfl

end Json

/-! ## Documents with the same declarations -/

namespace Document

variable {d d' : Document} {s s' : Schema}

/-- Documents of which the second has the declarations of the first. -/
def Keeps (d d' : Document) : Prop := ∀ ref s, d.Declares ref s → d'.Declares ref s

/-- The order of members does not matter for what is declared. -/
theorem keeps_of_shuffled (h : d.raw.Shuffled d'.raw) : d.Keeps d' := by
  rintro ref s ⟨members, hlookup, hdeclares⟩
  cases ref with
  | str ref =>
    rw [lookupValue, lookup] at hlookup
    split at hlookup
    · cases hlookup
    · next keys hkeys =>
      split at hlookup
      · cases hlookup
      · next hfollow =>
        cases hlookup
        obtain ⟨found, hfound, hshuffled⟩ := h.follow hfollow
        obtain ⟨members', rfl, hdeclares'⟩ := hshuffled.declares hdeclares
        refine ⟨members', ?_, hdeclares'⟩
        simp only [lookupValue, lookup, hkeys, hfound]
      · cases hlookup
  | _ => cases hlookup

theorem Leads.mono (hkeeps : d.Keeps d') (h : d.Leads s s') : d'.Leads s s' := by
  cases h with
  | items _ => exact .items _
  | property hmem => exact .property hmem
  | member helements hmem hdeclares => exact .member helements hmem hdeclares
  | target hdeclares => exact .target (hkeeps _ _ hdeclares)

theorem Reaches.mono (hkeeps : d.Keeps d') (h : d.Reaches s s') : d'.Reaches s s' :=
  Relation.ReflTransGen.mono (fun _ _ => Leads.mono hkeeps) _ _ h

/-- A document with fewer declarations is layered when the other one is. -/
theorem Layered.mono (hkeeps : d.Keeps d') (h : d'.Layered) : d.Layered :=
  fun parts elements v ref helements hv hdeclares hreaches =>
    h parts elements v ref helements hv hdeclares (hreaches.mono hkeeps)

mutual

theorem Brings.mono (hkeeps : d.Keeps d') {s : Schema} {m : OrderedMap Key (PropertyOf Schema)} :
    d.Brings s m → d'.Brings s m
  | .object properties => .object properties
  | .scalar type => .scalar type
  | .array items => .array items
  | .oneOf parts => .oneOf parts
  | .allOf helements hgathers => .allOf helements (hgathers.mono hkeeps)
  | .ref hdeclares hbrings => .ref (hkeeps _ _ hdeclares) (hbrings.mono hkeeps)

theorem Gathers.mono (hkeeps : d.Keeps d') {m m' : OrderedMap Key (PropertyOf Schema)}
    {vs : List Json} : d.Gathers m vs m' → d'.Gathers m vs m'
  | .nil m => .nil m
  | .cons hdeclares hbrings hgathers =>
    .cons hdeclares (hbrings.mono hkeeps) (hgathers.mono hkeeps)

end

end Document

end ApiGraph
