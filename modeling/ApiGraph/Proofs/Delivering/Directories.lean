import Mathlib.Data.List.Induction
import ApiGraph.Proofs.Delivering.Trees

/-!
# The directories around a place

In a tree whose entries all stand in directories, the directories that are missing around a place are
made from the outermost one on, unless a file is in the way or too many of them are missing. Then nothing
is made at all.

* `FileTree.Formed` — every entry stands in a directory;
* `FileTree.Blocked` — a file is where a directory around a place has to be;
* `FileTree.missing` — how many directories are missing on the way to a place;
* `FileTree.ChangedAt` — what is at a place has changed, and the directories around it are there;
* `Path.Short` — a path without steps back of which nothing is too long;
* `FileTree.walk_cases`, `FileTree.makeOne_cases` — where the components of a path lead, and what comes of
  making one directory;
* `FileTree.ensureReversed_of_open`, `FileTree.ensureReversed_of_blocked` — what comes of making all of
  them.
-/

namespace ApiGraph

namespace Path

variable {p : Path} {base : Place}

/-- The place that a path without steps back leads to from a working directory. -/
def target (base : Place) (p : Path) : Place := p.start base ++ p.place

/-- A path without steps back of which nothing is too long, neither a name nor the path on the way. -/
structure Short (p : Path) : Prop where
  forward : ".." ∉ p.parts
  names : ∀ name ∈ p.parts, byteCount name ≤ FileTree.nameLimit
  texts : ∀ n ≤ p.parts.length, byteCount (p.upTo n).text < FileTree.pathLimit

theorem Short.parent (h : p.Short) : p.parent.Short := by
  refine ⟨fun hmem => h.forward (List.dropLast_subset _ hmem),
    fun name hmem => h.names name (List.dropLast_subset _ hmem), fun n hn => ?_⟩
  have hn : n ≤ p.parts.length - 1 := by simpa [Path.parent] using hn
  have hparts : (p.parent.upTo n).parts = (p.upTo n).parts := by
    simp only [upTo, Path.parent, List.dropLast_eq_take, List.take_take, Nat.min_eq_left hn]
  have hpath : p.parent.upTo n = p.upTo n := by
    rw [upTo, upTo, Path.mk.injEq]
    exact ⟨rfl, hparts⟩
  rw [hpath]
  exact h.texts n (by omega)

theorem isNameable_parent (h : p.isNameable = true) : p.parent.isNameable = true := by
  rw [isNameable, List.all_eq_true] at h ⊢
  exact fun c hc => h c (List.dropLast_subset _ hc)

theorem Short.checkText (h : p.Short) (hname : p.isNameable = true) :
    FileTree.checkText p = .ok () := by
  have htext := h.texts _ (Nat.le_refl _)
  rw [upTo_length] at htext
  rw [FileTree.checkText, hname, if_neg (by simp), if_neg (Nat.not_le.2 htext)]

/-- A path that leads on from its working directory ends with a name in the directory that its parent
leads to. -/
theorem target_eq_concat {name : String} (hlast : p.parts.getLast? = some name) (base : Place) :
    p.target base = p.parent.target base ++ [Utf8.normal name] := by
  have hparts : p.parts = p.parent.parts ++ [name] := (List.dropLast_append_getLast? name hlast).symm
  have hplace : p.place = p.parent.place ++ [Utf8.normal name] := by
    rw [place, hparts, List.map_append]
    rfl
  rw [target, hplace, ← List.append_assoc]
  rfl

end Path

namespace FileTree

variable {t t' t₁ t₂ : FileTree} {base here place q r : Place} {p : Path} {name : String}
  {e : Option Entry}

/-! ## Trees -/

/-- Every entry stands in a directory. -/
def Formed (t : FileTree) : Prop := ∀ q, t.get? q ≠ none → t.get? q.dropLast = some .directory

/-- A file is where a directory around a place has to be. -/
def Blocked (t : FileTree) (place : Place) : Prop :=
  ∃ q, q <+: place ∧ q ≠ place ∧ ∃ text, t.get? q = some (.file text)

/-- Whether a file is in the way can be found out by going there. -/
instance (t : FileTree) (place : Place) : Decidable (t.Blocked place) :=
  decidable_of_iff (∃ n ∈ List.range place.length,
      (match t.get? (place.take n) with | some (.file _) => true | _ => false) = true) <| by
    constructor
    · rintro ⟨n, hn, hfile⟩
      have hlt := List.mem_range.1 hn
      split at hfile
      · next text hentry =>
        refine ⟨_, List.take_prefix n place, fun he => ?_, text, hentry⟩
        have hlength := congrArg List.length he
        rw [List.length_take] at hlength
        omega
      · cases hfile
    · rintro ⟨q, hq, hne, text, hentry⟩
      have hlt : q.length < place.length :=
        Nat.lt_of_le_of_ne hq.length_le fun he => hne (hq.eq_of_length he)
      refine ⟨q.length, List.mem_range.2 hlt, ?_⟩
      rw [← List.prefix_iff_eq_take.1 hq, hentry]

/-- How many places on the way to a place, with this one, are empty. -/
def missing (t : FileTree) (place : Place) : Nat :=
  (List.range (place.length + 1)).countP fun n => (t.get? (place.take n)).isNone

/-- A tree in which something is at a place, if anything, and the directories around it are there.
Nothing else has changed. -/
def ChangedAt (t : FileTree) (place : Place) (e : Option Entry) (t' : FileTree) : Prop :=
  ∀ q, t'.get? q = if q = place then e else if q <+: place then some .directory else t.get? q

theorem prefix_concat_iff {x : String} :
    q <+: place ++ [x] ↔ q <+: place ∨ q = place ++ [x] := by
  rw [List.prefix_concat_iff, or_comm]

theorem ne_concat_of_prefix {x : String} (h : q <+: place) : q ≠ place ++ [x] := by
  intro he
  have hlength := h.length_le
  rw [he, List.length_append, List.length_singleton] at hlength
  omega

theorem not_concat_prefix_self (place : Place) (x : String) : ¬place ++ [x] <+: place :=
  fun h => ne_concat_of_prefix h rfl

/-- Whether all entries stand in directories can be found out by looking at each of them. -/
theorem formed_of_entries
    (h : ∀ entry ∈ t.entries, t.get? entry.1.dropLast = some .directory) : t.Formed := by
  intro q hq
  by_cases hroot : q = []
  · rw [hroot]
    rfl
  · rw [get?, if_neg hroot, Option.ne_none_iff_exists'] at hq
    obtain ⟨e, he⟩ := hq
    obtain ⟨k, hmem, hk⟩ := OrderedMap.exists_mem_of_get? he
    obtain rfl : k = q := by simpa using hk
    exact h (k, e) hmem

namespace Formed

/-- What is around an entry is a directory. -/
theorem around (h : t.Formed) (hr : t.get? r ≠ none) (hq : q <+: r) (hne : q ≠ r) :
    t.get? q = some .directory := by
  obtain ⟨rest, rfl⟩ := hq
  induction rest using List.reverseRecOn with
  | nil => exact absurd (List.append_nil q).symm hne
  | append_singleton rest x ih =>
    have hstep := h _ hr
    rw [← List.append_assoc, List.dropLast_concat] at hstep
    by_cases hrest : rest = []
    · rwa [hrest, List.append_nil] at hstep
    · exact ih (by rw [hstep]; nofun) (fun he => hrest (List.self_eq_append_right.1 he))

theorem directory_of_prefix (h : t.Formed) (hr : t.get? r = some .directory) (hq : q <+: r) :
    t.get? q = some .directory := by
  by_cases hne : q = r
  · rw [hne, hr]
  · exact h.around (by rw [hr]; nofun) hq hne

/-- In what is no directory there is nothing. -/
theorem eq_none_of_prefix (h : t.Formed) (hq : t.get? q ≠ some .directory) (hqr : q <+: r)
    (hne : q ≠ r) : t.get? r = none := by
  by_contra hr
  exact hq (h.around hr hqr hne)

theorem eq_none_of_missing (h : t.Formed) (hq : t.get? q = none) (hqr : q <+: r) :
    t.get? r = none := by
  by_cases hne : q = r
  · rw [← hne, hq]
  · exact h.eq_none_of_prefix (by rw [hq]; nofun) hqr hne

theorem not_blocked (h : t.Formed) (hplace : t.get? place ≠ none) : ¬t.Blocked place := by
  rintro ⟨q, hq, hne, text, hfile⟩
  rw [h.around hplace hq hne] at hfile
  cases hfile

end Formed

/-- On the way to what is there, nothing is missing. -/
theorem missing_of_ne_none (h : t.Formed) (hplace : t.get? place ≠ none) : t.missing place = 0 := by
  rw [missing, List.countP_eq_zero]
  intro n _
  by_cases he : place.take n = place
  · rwa [he, Option.isNone_iff_eq_none]
  · rw [h.around hplace (List.take_prefix _ _) he]
    simp

theorem missing_concat (h : t.get? (place ++ [name]) = none) :
    t.missing (place ++ [name]) = t.missing place + 1 := by
  rw [missing, List.length_append, List.length_singleton, List.range_succ, List.countP_append, missing]
  congr 1
  · refine List.countP_congr fun n hn => ?_
    rw [List.take_append_of_le_length (Nat.lt_succ_iff.1 (List.mem_range.1 hn))]
  · have htake : (place ++ [name]).take (place.length + 1) = place ++ [name] :=
      List.take_of_length_le (by simp)
    simp [htake, h]

theorem missing_congr (h : ∀ q, q <+: place → t'.get? q = t.get? q) :
    t'.missing place = t.missing place := by
  rw [missing, missing]
  exact List.countP_congr fun n _ => by rw [h _ (List.take_prefix n place)]

theorem missing_pos (h : t.get? place = none) : 0 < t.missing place := by
  rw [missing, List.countP_pos_iff]
  refine ⟨place.length, List.mem_range.2 (Nat.lt_succ_self _), ?_⟩
  rw [List.take_length, h]
  rfl

namespace ChangedAt

theorem get?_self (h : t.ChangedAt place e t') : t'.get? place = e := by
  rw [h, if_pos rfl]

theorem get?_of_prefix (h : t.ChangedAt place (some .directory) t') (hq : q <+: place) :
    t'.get? q = some .directory := by
  rw [h, if_pos hq, ite_self]

theorem get?_of_not_prefix (h : t.ChangedAt place e t') (hq : ¬q <+: place) : t'.get? q = t.get? q := by
  rw [h, if_neg (fun he : q = place => hq (he ▸ List.prefix_refl _)), if_neg hq]

/-- A directory that is there has not changed. -/
theorem refl (h : t.Formed) (hplace : t.get? place = some .directory) :
    t.ChangedAt place (some .directory) t := by
  intro q
  split
  · next he => rw [he, hplace]
  · split
    · next hq => exact h.directory_of_prefix hplace hq
    · rfl

/-- What is in a directory changes after that directory is there. -/
theorem concat (h : t.ChangedAt place (some .directory) t₁) (hself : t₂.get? (place ++ [name]) = e)
    (hother : ∀ q, q ≠ place ++ [name] → t₂.get? q = t₁.get? q) :
    t.ChangedAt (place ++ [name]) e t₂ := by
  intro q
  split
  · next he => rw [he, hself]
  · next hne =>
    rw [hother q hne]
    split
    · next hq =>
      exact h.get?_of_prefix ((prefix_concat_iff.1 hq).resolve_right hne)
    · next hq => exact h.get?_of_not_prefix fun hpre => hq (prefix_concat_iff.2 (.inl hpre))

/-- What was at the place before makes no difference. -/
theorem of_erased (h : t₁.ChangedAt place e t') (hother : ∀ q, q ≠ place → t₁.get? q = t.get? q) :
    t.ChangedAt place e t' := by
  intro q
  rw [h q]
  split
  · rfl
  · next hne => rw [hother q hne]

/-- As long as no directory gives way to a file or to nothing, all entries stand in directories. -/
theorem formed (h : t.ChangedAt place e t') (ht : t.Formed)
    (hplace : e = some .directory ∨ t.get? place ≠ some .directory) : t'.Formed := by
  have habove : ∀ q, q <+: place → q ≠ [] → t'.get? q.dropLast = some .directory := by
    intro q hq hroot
    have hdrop : q.dropLast <+: place := (List.dropLast_prefix q).trans hq
    have hne : q.dropLast ≠ place := by
      intro he
      have hlength := hq.length_le
      rw [← he, List.length_dropLast] at hlength
      exact hroot (List.eq_nil_of_length_eq_zero (by omega))
    rw [h, if_neg hne, if_pos hdrop]
  intro q hq
  by_cases hroot : q = []
  · rw [hroot]
    rfl
  · by_cases hpre : q <+: place
    · exact habove q hpre hroot
    · rw [h.get?_of_not_prefix hpre] at hq
      have hdrop := ht q hq
      rw [h]
      split
      · next he =>
        rw [he] at hdrop
        exact hplace.resolve_right fun hne => hne hdrop
      · split
        · rfl
        · exact hdrop

/-- Directories stay where they are. -/
theorem directory (h : t.ChangedAt place e t')
    (hplace : e = some .directory ∨ t.get? place ≠ some .directory)
    (hq : t.get? q = some .directory) : t'.get? q = some .directory := by
  rw [h]
  split
  · next he =>
    rw [he] at hq
    exact hplace.resolve_right fun hne => hne hq
  · split
    · rfl
    · exact hq

end ChangedAt

/-! ## Where paths lead -/

/-- Components lead to their place where the directories around it are there. Else they end at a file, or
where there is nothing. -/
theorem walk_cases (ht : t.Formed) {parts : List String} (hforward : ".." ∉ parts)
    (hnames : ∀ name ∈ parts, Path.byteCount name ≤ nameLimit)
    (hhere : t.get? here = some .directory) (hplace : place = here ++ parts.map Utf8.normal) :
    (∀ q, q <+: place → q ≠ place → t.get? q = some .directory) ∧ t.walk here parts = .ok place ∨
      t.Blocked place ∧ t.walk here parts = .error .notDirectory ∨
      (¬t.Blocked place ∧ ∃ q, q <+: place ∧ q ≠ place ∧ t.get? q = none) ∧
        t.walk here parts = .error .missing := by
  subst hplace
  induction parts generalizing here with
  | nil =>
    left
    rw [List.map_nil, List.append_nil]
    exact ⟨fun q hq hne => ht.directory_of_prefix hhere hq, rfl⟩
  | cons name rest ih =>
    obtain ⟨hname, hforward⟩ := not_or.1 (mt List.mem_cons.2 hforward)
    obtain ⟨hshort, hnames⟩ := List.forall_mem_cons.1 hnames
    set next := here ++ [Utf8.normal name] with hnext
    have hstep : t.walk here (name :: rest) = t.walk next rest := by
      rw [walk, descend, hhere]
      simp only [if_neg (Ne.symm hname), if_neg (Nat.not_lt.2 hshort)]
      rfl
    have happend : here ++ (name :: rest).map Utf8.normal = next ++ rest.map Utf8.normal := by
      rw [hnext, List.append_assoc]
      rfl
    rw [hstep, happend]
    cases rest with
    | nil =>
      left
      rw [List.map_nil, List.append_nil]
      refine ⟨fun q hq hne => ?_, rfl⟩
      exact ht.directory_of_prefix hhere ((prefix_concat_iff.1 hq).resolve_right hne)
    | cons other rest =>
      have hpre : next <+: next ++ (other :: rest).map Utf8.normal := List.prefix_append _ _
      have hne : next ≠ next ++ (other :: rest).map Utf8.normal := by simp
      rcases hentry : t.get? next with _ | _ | text
      · refine .inr (.inr ⟨⟨?_, next, hpre, hne, hentry⟩, ?_⟩)
        · rintro ⟨r, hr, -, text, hfile⟩
          by_cases hnextr : next <+: r
          · rw [ht.eq_none_of_missing hentry hnextr] at hfile
            cases hfile
          · have hr := (List.prefix_or_prefix_of_prefix hr hpre).resolve_right hnextr
            have hr := (prefix_concat_iff.1 hr).resolve_right fun he => hnextr (he ▸ List.prefix_refl _)
            rw [ht.directory_of_prefix hhere hr] at hfile
            cases hfile
        · rw [walk, descend, hentry]
          rfl
      · exact ih hforward hnames hentry
      · refine .inr (.inl ⟨⟨next, hpre, hne, text, hentry⟩, ?_⟩)
        rw [walk, descend, hentry]
        rfl

/-- So do paths that name something. -/
theorem locate_cases (ht : t.Formed) (hp : p.Short) (hname : p.isNameable = true)
    (hstart : t.get? (p.start base) = some .directory) :
    (∀ q, q <+: p.target base → q ≠ p.target base → t.get? q = some .directory) ∧
        t.locate base p = .ok (p.target base) ∨
      t.Blocked (p.target base) ∧ t.locate base p = .error .notDirectory ∨
      (¬t.Blocked (p.target base) ∧ ∃ q, q <+: p.target base ∧ q ≠ p.target base ∧ t.get? q = none) ∧
        t.locate base p = .error .missing := by
  have hlocate : t.locate base p = t.walk (p.start base) p.parts := by
    rw [locate, hp.checkText hname]
    rfl
  rw [hlocate]
  exact walk_cases ht hp.forward hp.names hstart rfl

theorem locate_of_not_nameable (hname : p.isNameable = false) :
    t.locate base p = .error .unnameable := by
  rw [locate, checkText, hname]
  rfl

/-- A path leads to its place where something is. -/
theorem locate_eq_ok_of_ne_none (ht : t.Formed) (hp : p.Short) (hname : p.isNameable = true)
    (hstart : t.get? (p.start base) = some .directory) (hthere : t.get? (p.target base) ≠ none) :
    t.locate base p = .ok (p.target base) := by
  rcases locate_cases ht hp hname hstart with ⟨-, h⟩ | ⟨hblocked, -⟩ | ⟨⟨-, q, hq, hne, hnone⟩, -⟩
  · exact h
  · exact absurd hblocked (ht.not_blocked hthere)
  · rw [ht.around hthere hq hne] at hnone
    cases hnone

/-- A path leads to its place where the directory around that is there. -/
theorem locate_eq_ok_of_around (ht : t.Formed) (hp : p.Short) (hname : p.isNameable = true)
    (hstart : t.get? (p.start base) = some .directory) {around : Place}
    (htarget : p.target base = around ++ [name]) (haround : t.get? around = some .directory) :
    t.locate base p = .ok (p.target base) := by
  have hthere : ∀ q, q <+: p.target base → q ≠ p.target base → t.get? q = some .directory := by
    rw [htarget]
    exact fun q hq hne => ht.directory_of_prefix haround ((prefix_concat_iff.1 hq).resolve_right hne)
  rcases locate_cases ht hp hname hstart with
    ⟨-, h⟩ | ⟨⟨q, hq, hne, text, hfile⟩, -⟩ | ⟨⟨-, q, hq, hne, hnone⟩, -⟩
  · exact h
  · rw [hthere q hq hne] at hfile
    cases hfile
  · rw [hthere q hq hne] at hnone
    cases hnone

/-! ## Making directories -/

/-- There is a directory at a path, or going on is refused. -/
theorem expectDirectory_of_directory (ht : t.Formed) (hp : p.Short) (hname : p.isNameable = true)
    (hstart : t.get? (p.start base) = some .directory)
    (hthere : t.get? (p.target base) = some .directory) : expectDirectory base p t = .ok () t := by
  have hlookup : t.lookup? base p = some .directory := by
    rw [lookup?, stat, locate_eq_ok_of_ne_none ht hp hname hstart (by simp [hthere])]
    simp only [bind, Except.bind, hthere]
    rfl
  show (if t.lookup? base p = some .directory then pure () else throw .malformed : Changing Unit) t = _
  rw [hlookup, if_pos rfl]
  rfl

theorem expectDirectory_of_lookup? (h : t.lookup? base p ≠ some .directory) :
    expectDirectory base p t = .error .malformed t := by
  show (if t.lookup? base p = some .directory then pure () else throw .malformed : Changing Unit) t = _
  rw [if_neg h]
  rfl

theorem expectDirectory_of_ne (hp : ".." ∉ p.parts)
    (hthere : t.get? (p.target base) ≠ some .directory) :
    expectDirectory base p t = .error .malformed t := by
  refine expectDirectory_of_lookup? fun hlookup => hthere ?_
  rw [lookup?] at hlookup
  split at hlookup
  · next place e hstat =>
    cases hlookup
    obtain ⟨found, hlocate, h⟩ := exists_of_bind_eq_ok hstat
    obtain ⟨-, -, hwalk⟩ := exists_of_bind_eq_ok hlocate
    obtain rfl := walk_eq_ok hp hwalk
    split at h
    · next e hentry =>
      cases h
      exact hentry
    · cases h
  · cases hlookup

/-- What comes of making one directory. -/
theorem makeOne_cases (ht : t.Formed) (hp : p.Short) (hname : p.isNameable = true)
    (hstart : t.get? (p.start base) = some .directory) {last : String}
    (hlast : p.parts.getLast? = some last) :
    t.get? (p.target base) ≠ none ∧ makeOne base p t = .ok (some .taken) t ∨
      (t.get? (p.target base) = none ∧ t.get? (p.parent.target base) = some .directory ∧
        makeOne base p t = .ok none (t.put (p.target base) .directory)) ∨
      (t.Blocked (p.target base) ∧ makeOne base p t = .ok (some .notDirectory) t) ∨
      t.get? (p.parent.target base) = none ∧ ¬t.Blocked (p.target base) ∧
        makeOne base p t = .ok (some .missing) t := by
  have hmem : last ∈ p.parts := List.mem_of_getLast? hlast
  have hlong : ¬nameLimit < Path.byteCount last := Nat.not_lt.2 (hp.names _ hmem)
  have hdots : last ≠ ".." := fun he => hp.forward (he ▸ hmem)
  have htarget := p.target_eq_concat hlast base
  have hpre : p.parent.target base <+: p.target base := htarget ▸ List.prefix_append _ _
  have hne : p.parent.target base ≠ p.target base :=
    htarget ▸ ne_concat_of_prefix (List.prefix_refl _)
  have hmake : t.withDirectory base p = (do
      let around ← t.walk (p.start base) p.parent.parts
      let place ← t.descend around last
      if (t.get? place).isSome then throw .taken
      pure (t.put place .directory)) := by
    rw [withDirectory, hp.checkText hname, hlast]
    rfl
  rw [makeOne]
  rcases walk_cases ht hp.parent.forward hp.parent.names hstart
      (show p.parent.target base = p.start base ++ _ from rfl) with
    ⟨habove, hwalk⟩ | ⟨⟨q, hq, hqne, text, hfile⟩, hwalk⟩ |
      ⟨⟨hfree, q, hq, hqne, hnone⟩, hwalk⟩
  · rcases hparent : t.get? (p.parent.target base) with _ | _ | text
    · refine .inr (.inr (.inr ⟨rfl, ?_, ?_⟩))
      · rintro ⟨q, hq, hqne, text, hfile⟩
        rw [htarget] at hq hqne
        by_cases he : q = p.parent.target base
        · rw [he, hparent] at hfile
          cases hfile
        · rw [habove q ((prefix_concat_iff.1 hq).resolve_right hqne) he] at hfile
          cases hfile
      · rw [hmake, hwalk]
        simp only [bind, Except.bind, descend, hparent]
    · have hdescend : t.descend (p.parent.target base) last = .ok (p.target base) := by
        rw [descend, hparent, htarget]
        simp only [if_neg hdots, if_neg hlong]
      have hmade : t.withDirectory base p = if (t.get? (p.target base)).isSome then .error .taken
          else .ok (t.put (p.target base) .directory) := by
        rw [hmake, hwalk]
        simp only [bind, Except.bind, hdescend]
        split <;> rfl
      rw [hmade]
      cases t.get? (p.target base) with
      | none => exact .inr (.inl ⟨rfl, rfl, rfl⟩)
      | some e => exact .inl ⟨Option.some_ne_none e, rfl⟩
    · refine .inr (.inr (.inl ⟨⟨_, hpre, hne, text, hparent⟩, ?_⟩))
      rw [hmake, hwalk]
      simp only [bind, Except.bind, descend, hparent]
  · refine .inr (.inr (.inl ⟨⟨q, hq.trans hpre, ?_, text, hfile⟩, ?_⟩))
    · rintro rfl
      exact hqne (List.IsPrefix.eq_of_length_le hq hpre.length_le)
    · rw [hmake, hwalk]
      rfl
  · have hparent := ht.eq_none_of_prefix (by simp [hnone]) hq hqne
    refine .inr (.inr (.inr ⟨hparent, ?_, ?_⟩))
    · rintro ⟨r, hr, hrne, text, hfile⟩
      rw [htarget] at hr hrne
      have hr := (prefix_concat_iff.1 hr).resolve_right hrne
      refine hfree ⟨r, hr, ?_, text, hfile⟩
      rintro rfl
      rw [hparent] at hfile
      cases hfile
    · rw [hmake, hwalk]
      rfl

/-- A directory is made in a directory that is there. -/
theorem makeOne_eq_ok (ht : t.Formed) (hp : p.Short) (hname : p.isNameable = true)
    (hstart : t.get? (p.start base) = some .directory) {last : String}
    (hlast : p.parts.getLast? = some last) (hparent : t.get? (p.parent.target base) = some .directory)
    (hnone : t.get? (p.target base) = none) :
    makeOne base p t = .ok none (t.put (p.target base) .directory) := by
  rcases makeOne_cases ht hp hname hstart hlast with
    ⟨hthere, -⟩ | ⟨-, -, hmake⟩ | ⟨⟨q, hq, hne, text, hfile⟩, -⟩ | ⟨hgone, -⟩
  · exact absurd hnone hthere
  · exact hmake
  · rw [p.target_eq_concat hlast base] at hq hne
    rw [ht.directory_of_prefix hparent ((prefix_concat_iff.1 hq).resolve_right hne)] at hfile
    cases hfile
  · rw [hparent] at hgone
    cases hgone

/-! ## Making all directories of a path -/

section

variable {root text : String} {names above : List String}

theorem parent_reverse_cons (root name : String) (above : List String) :
    (⟨root, (name :: above).reverse⟩ : Path).parent = ⟨root, above.reverse⟩ := by
  rw [Path.parent, List.reverse_cons, List.dropLast_concat]

theorem getLast?_reverse_cons (name : String) (above : List String) :
    (name :: above).reverse.getLast? = some name := by
  rw [List.reverse_cons, List.getLast?_concat]

/-- Where something can not be named, nothing is made. -/
theorem ensureReversed_of_not_nameable (hname : (⟨root, names.reverse⟩ : Path).isNameable = false)
    (levels : Nat) : ensureReversed base root levels names t = .error .malformed t := by
  cases levels with
  | zero => cases names <;> rfl
  | succ levels =>
    cases names with
    | nil => cases hname
    | cons name above =>
      have hmake : makeOne base ⟨root, (name :: above).reverse⟩ t = .ok (some .unnameable) t := by
        rw [makeOne, withDirectory, checkText, hname]
        rfl
      rw [ensureReversed, bind_of_ok hmake]
      refine expectDirectory_of_lookup? ?_
      rw [lookup?, stat, locate_of_not_nameable hname]
      exact (Option.some_ne_none _).symm

/-- Where a file is in the way, nothing is made. -/
theorem ensureReversed_of_blocked (ht : t.Formed) (hp : (⟨root, names.reverse⟩ : Path).Short)
    (hname : (⟨root, names.reverse⟩ : Path).isNameable = true)
    (hstart : t.get? (Path.start base ⟨root, names.reverse⟩) = some .directory)
    (hq : q <+: Path.target base ⟨root, names.reverse⟩) (hfile : t.get? q = some (.file text))
    (levels : Nat) : ensureReversed base root levels names t = .error .malformed t := by
  have hthere : t.get? (Path.target base ⟨root, names.reverse⟩) ≠ some .directory := by
    intro hdirectory
    rw [ht.directory_of_prefix hdirectory hq] at hfile
    cases hfile
  cases levels with
  | zero => cases names <;> rfl
  | succ levels =>
    cases names with
    | nil =>
      refine absurd ?_ hthere
      rw [Path.target, Path.place, List.reverse_nil, List.map_nil, List.append_nil]
      exact hstart
    | cons name above =>
      have hlast : (⟨root, (name :: above).reverse⟩ : Path).parts.getLast? = some name :=
        getLast?_reverse_cons name above
      have hexpect := expectDirectory_of_ne hp.forward hthere
      have htarget := Path.target_eq_concat hlast base
      rw [ensureReversed]
      rcases makeOne_cases ht hp hname hstart hlast with
        ⟨-, hmake⟩ | ⟨hnone, hparent, -⟩ | ⟨-, hmake⟩ | ⟨hparent, hfree, -⟩
      · rw [bind_of_ok hmake]
        exact hexpect
      · -- The directory that it would be in is there, and so is no file in the way.
        rw [htarget] at hq hnone
        rcases prefix_concat_iff.1 hq with hq | rfl
        · rw [ht.directory_of_prefix hparent hq] at hfile
          cases hfile
        · rw [hnone] at hfile
          cases hfile
      · rw [bind_of_ok hmake]
        exact hexpect
      · refine absurd ⟨q, hq, ?_, text, hfile⟩ hfree
        rintro rfl
        rw [htarget, ht.eq_none_of_missing hparent (List.prefix_append _ _)] at hfile
        cases hfile

/-- Once the directories above are made, a directory is made in them. -/
theorem exists_ensureReversed_cons {name : String}
    (ht : t.Formed) (hp : (⟨root, (name :: above).reverse⟩ : Path).Short)
    (hname : (⟨root, (name :: above).reverse⟩ : Path).isNameable = true)
    (hstart : t.get? (Path.start base ⟨root, (name :: above).reverse⟩) = some .directory)
    (hnone : t.get? (Path.target base ⟨root, (name :: above).reverse⟩) = none)
    (hmake : makeOne base ⟨root, (name :: above).reverse⟩ t = .ok (some .missing) t) {levels : Nat}
    (hrun : ensureReversed base root levels above t = .ok () t₁)
    (hchanged : t.ChangedAt (Path.target base ⟨root, above.reverse⟩) (some .directory) t₁) :
    ∃ t', ensureReversed base root (levels + 1) (name :: above) t = .ok () t' ∧
      t.ChangedAt (Path.target base ⟨root, (name :: above).reverse⟩) (some .directory) t' := by
  have hlast : (⟨root, (name :: above).reverse⟩ : Path).parts.getLast? = some name :=
    getLast?_reverse_cons name above
  have htarget := Path.target_eq_concat hlast base
  rw [parent_reverse_cons] at htarget
  have hnone₁ : t₁.get? (Path.target base ⟨root, (name :: above).reverse⟩) = none := by
    rw [hchanged.get?_of_not_prefix (htarget ▸ not_concat_prefix_self _ _), hnone]
  have hmake₁ := makeOne_eq_ok (hchanged.formed ht (.inl rfl)) hp hname
    (hchanged.directory (.inl rfl) hstart) hlast
    (by rw [parent_reverse_cons]; exact hchanged.get?_self) hnone₁
  refine ⟨t₁.put (Path.target base ⟨root, (name :: above).reverse⟩) .directory, ?_, ?_⟩
  · rw [ensureReversed, bind_of_ok hmake]
    dsimp only
    rw [bind_of_ok hrun, bind_of_ok hmake₁]
    rfl
  · rw [htarget]
    exact hchanged.concat (get?_put_self t₁ (by simp) _) fun q hq => get?_put_of_ne t₁ hq _

/-- Where no file is in the way, all directories are made, or none if too many are missing. -/
theorem ensureReversed_of_open (ht : t.Formed) (hp : (⟨root, names.reverse⟩ : Path).Short)
    (hname : (⟨root, names.reverse⟩ : Path).isNameable = true)
    (hstart : t.get? (Path.start base ⟨root, names.reverse⟩) = some .directory)
    (hopen : ∀ q, q <+: Path.target base ⟨root, names.reverse⟩ → ∀ text, t.get? q ≠ some (.file text))
    (levels : Nat) :
    (0 < levels → t.missing (Path.target base ⟨root, names.reverse⟩) ≤ levels →
      ∃ t', ensureReversed base root levels names t = .ok () t' ∧
        t.ChangedAt (Path.target base ⟨root, names.reverse⟩) (some .directory) t') ∧
    (levels < t.missing (Path.target base ⟨root, names.reverse⟩) →
      ensureReversed base root levels names t = .error .malformed t) := by
  induction names generalizing levels with
  | nil =>
    have htarget : Path.target base ⟨root, [].reverse⟩ = Path.start base ⟨root, [].reverse⟩ := by
      rw [Path.target, Path.place, List.reverse_nil, List.map_nil, List.append_nil]
    rw [htarget, missing_of_ne_none ht (ne_of_eq_of_ne hstart (Option.some_ne_none _))]
    refine ⟨fun hlevels _ => ⟨t, ?_, .refl ht hstart⟩, fun h => absurd h (Nat.not_lt_zero _)⟩
    obtain ⟨levels, rfl⟩ : ∃ m, levels = m + 1 := ⟨levels - 1, by omega⟩
    exact expectDirectory_of_directory ht hp hname hstart (htarget ▸ hstart)
  | cons name above ih =>
    have hlast : (⟨root, (name :: above).reverse⟩ : Path).parts.getLast? = some name :=
      getLast?_reverse_cons name above
    have htarget := Path.target_eq_concat hlast base
    have hpshort := hp.parent
    have hpname := Path.isNameable_parent hname
    rw [parent_reverse_cons] at htarget hpshort hpname
    cases levels with
    | zero => exact ⟨fun h => absurd h (Nat.lt_irrefl 0), fun _ => rfl⟩
    | succ levels =>
      have hcases := makeOne_cases ht hp hname hstart hlast
      rw [parent_reverse_cons] at hcases
      set p : Path := ⟨root, (name :: above).reverse⟩ with hpath
      set d : Path := ⟨root, above.reverse⟩ with hd
      rcases hcases with ⟨hthere, hmake⟩ | ⟨hnone, hparent, hmake⟩ | ⟨⟨q, hq, -, text, hfile⟩, -⟩ |
        ⟨hparent, -, hmake⟩
      · have hdirectory : t.get? (p.target base) = some .directory := by
          rcases hentry : t.get? (p.target base) with _ | _ | text
          · exact absurd hentry hthere
          · rfl
          · exact absurd hentry (hopen _ (List.prefix_refl _) text)
        rw [missing_of_ne_none ht hthere, ensureReversed, bind_of_ok hmake]
        exact ⟨fun _ _ => ⟨t, expectDirectory_of_directory ht hp hname hstart hdirectory,
          .refl ht hdirectory⟩, fun h => absurd h (Nat.not_lt_zero _)⟩
      · rw [ensureReversed, bind_of_ok hmake, htarget, missing_concat (htarget ▸ hnone),
          missing_of_ne_none ht (by simp [hparent])]
        refine ⟨fun _ _ => ⟨_, rfl, (ChangedAt.refl ht hparent).concat (get?_put_self t (by simp) _)
          fun q hq => get?_put_of_ne t hq _⟩, fun h => by omega⟩
      · exact absurd hfile (hopen q hq text)
      · -- The directories above are made first.
        have hpre : d.target base <+: p.target base := htarget ▸ List.prefix_append _ _
        have hnone : t.get? (p.target base) = none := htarget ▸
          ht.eq_none_of_missing hparent (List.prefix_append _ _)
        obtain ⟨hmade, hfailed⟩ := ih hpshort hpname hstart (fun q hq => hopen q (hq.trans hpre)) levels
        rw [htarget, missing_concat (htarget ▸ hnone), ← htarget]
        refine ⟨fun _ hle => ?_, fun hlt => ?_⟩
        · have hpos := missing_pos hparent
          obtain ⟨t₁, hrun, hchanged⟩ := hmade (by omega) (by omega)
          exact exists_ensureReversed_cons ht hp hname hstart hnone hmake hrun hchanged
        · rw [ensureReversed, bind_of_ok hmake]
          dsimp only
          rw [bind_of_error (hfailed (by omega))]

end

section

variable {text : String} {depth : Nat}

theorem exists_eq_reversed (p : Path) : ∃ root, ∃ names : List String, p = ⟨root, names.reverse⟩ :=
  ⟨p.root, p.parts.reverse, by rw [List.reverse_reverse]⟩

theorem ensureDirectory_reversed (depth : Nat) (base : Place) (root : String) (names : List String) :
    ensureDirectory depth base ⟨root, names.reverse⟩ = ensureReversed base root (depth + 1) names := by
  rw [ensureDirectory, List.reverse_reverse]

/-- No directory is made at a path that can not be named. -/
theorem ensureDirectory_of_not_nameable (hname : p.isNameable = false) :
    ensureDirectory depth base p t = .error .malformed t := by
  obtain ⟨root, names, rfl⟩ := exists_eq_reversed p
  rw [ensureDirectory_reversed]
  exact ensureReversed_of_not_nameable hname _

theorem ensureDirectory_of_blocked (ht : t.Formed) (hp : p.Short)
    (hstart : t.get? (p.start base) = some .directory) (hq : q <+: p.target base)
    (hfile : t.get? q = some (.file text)) : ensureDirectory depth base p t = .error .malformed t := by
  cases hname : p.isNameable with
  | false => exact ensureDirectory_of_not_nameable hname
  | true =>
    obtain ⟨root, names, rfl⟩ := exists_eq_reversed p
    rw [ensureDirectory_reversed]
    exact ensureReversed_of_blocked ht hp hname hstart hq hfile _

theorem ensureDirectory_of_open (depth : Nat) (ht : t.Formed) (hp : p.Short) (hname : p.isNameable = true)
    (hstart : t.get? (p.start base) = some .directory)
    (hopen : ∀ q, q <+: p.target base → ∀ text, t.get? q ≠ some (.file text)) :
    (t.missing (p.target base) ≤ depth + 1 → ∃ t', ensureDirectory depth base p t = .ok () t' ∧
      t.ChangedAt (p.target base) (some .directory) t') ∧
    (depth + 1 < t.missing (p.target base) → ensureDirectory depth base p t = .error .malformed t) := by
  obtain ⟨root, names, rfl⟩ := exists_eq_reversed p
  rw [ensureDirectory_reversed]
  exact (ensureReversed_of_open ht hp hname hstart hopen (depth + 1)).imp_left (· (Nat.succ_pos depth))

end

end FileTree

end ApiGraph
