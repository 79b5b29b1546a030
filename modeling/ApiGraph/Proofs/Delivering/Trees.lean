import ApiGraph.FileTree.Change
import ApiGraph.Proofs.Outcome

/-!
# What the writing of a file changes

A file is written at its place, and nothing else changes but that missing directories above it are
made. So it is also when writing fails half-way.

* `Path.Plain`, `Path.place` — a path from the root without steps back, and where it leads to;
* `FileTree.Spares` — trees that differ only at some places and in new directories above them;
* `FileTree.sparing_writeWithin` — the writing of a file changes no more;
* `FileTree.textAt_of_writeWithin` — a file that was written is read as its text;
* `FileTree.Writable` — a path at which a file can be written;
* `FileTree.Writable.exists_writeWithin` — where a file can be written, it is there afterwards with its text.
-/

namespace ApiGraph

theorem exists_of_bind_eq_ok {ε α β : Type} {a : Except ε α} {f : α → Except ε β} {b : β}
    (h : (a >>= f) = .ok b) : ∃ x, a = .ok x ∧ f x = .ok b := by
  cases a with
  | ok x => exact ⟨x, rfl, h⟩
  | error e => cases h

namespace Path

/-- A path from the root without steps back. -/
structure Plain (p : Path) : Prop where
  root : p.root = "/"
  forward : ".." ∉ p.parts

/-- The place that such a path leads to. -/
def place (p : Path) : Place := p.parts.map Utf8.normal

/-- The path of the first components. -/
def upTo (p : Path) (n : Nat) : Path := ⟨p.root, p.parts.take n⟩

variable {p : Path} {base : Place}

theorem Plain.start (h : p.Plain) (base : Place) : p.start base = [] := by
  rw [Path.start, absolute, h.root]
  rfl

theorem Plain.upTo (h : p.Plain) (n : Nat) : (p.upTo n).Plain :=
  ⟨h.root, fun hmem => h.forward (List.mem_of_mem_take hmem)⟩

theorem place_upTo (p : Path) (n : Nat) : (p.upTo n).place = p.place.take n := List.map_take

theorem parent_eq_upTo (p : Path) : p.parent = p.upTo (p.parts.length - 1) := by
  rw [parent, upTo, List.dropLast_eq_take]

theorem upTo_length (p : Path) : p.upTo p.parts.length = p := by
  rw [upTo, List.take_length]

/-- What is left of a path when two dots take back the component before them. -/
theorem plain_flatten (h : ".." ∉ base) (p : Path) : (p.flatten base).Plain := by
  have hpush : ∀ (parts reversed : List String), ".." ∉ reversed → ".." ∉ parts.foldl push reversed := by
    intro parts
    induction parts with
    | nil => exact fun _ hreversed => hreversed
    | cons component parts ih =>
      intro reversed hreversed
      refine ih _ ?_
      rw [push]
      split
      · exact fun hmem => hreversed (List.mem_of_mem_tail hmem)
      · next hne => exact fun hmem => (List.mem_cons.1 hmem).elim (fun he => hne he.symm) hreversed
  refine ⟨rfl, ?_⟩
  show ".." ∉ (p.parts.foldl push (p.start base).reverse).reverse
  rw [List.mem_reverse]
  refine hpush _ _ ?_
  rw [List.mem_reverse, Path.start]
  split
  · exact List.not_mem_nil
  · exact h

end Path

namespace FileTree

variable {t t' t'' : FileTree} {base : Place} {p : Path} {place here : Place} {parts : List String}
  {targets : List Place} {α β : Type} {n depth : Nat}

/-! ## Where paths lead -/

theorem descend_eq_ok {component : String} (hcomponent : component ≠ "..")
    (h : t.descend here component = .ok place) :
    t.get? here = some .directory ∧ place = here ++ [Utf8.normal component] := by
  rw [descend] at h
  split at h
  · cases h
  · cases h
  · next hdirectory =>
    rw [if_neg hcomponent] at h
    split at h
    · cases h
    · exact ⟨hdirectory, (Except.ok.inj h).symm⟩

theorem walk_eq_ok (hparts : ".." ∉ parts) (h : t.walk here parts = .ok place) :
    place = here ++ parts.map Utf8.normal := by
  induction parts generalizing here with
  | nil => simpa [walk] using h.symm
  | cons component parts ih =>
    obtain ⟨hcomponent, hparts⟩ := not_or.1 (mt List.mem_cons.2 hparts)
    obtain ⟨next, hdescend, h⟩ := exists_of_bind_eq_ok h
    obtain ⟨-, rfl⟩ := descend_eq_ok (Ne.symm hcomponent) hdescend
    rw [ih hparts h, List.append_assoc, List.map_cons]
    rfl

theorem locate_eq_ok (hp : p.Plain) (h : t.locate base p = .ok place) : place = p.place := by
  rw [locate, hp.start] at h
  obtain ⟨u, -, h⟩ := exists_of_bind_eq_ok h
  exact walk_eq_ok hp.forward h

theorem stat_eq_ok {e : Entry} (hp : p.Plain) (h : t.stat base p = .ok (place, e)) :
    place = p.place ∧ t.get? p.place = some e := by
  obtain ⟨found, hlocate, h⟩ := exists_of_bind_eq_ok h
  obtain rfl := locate_eq_ok hp hlocate
  split at h
  · next found hentry =>
    cases h
    exact ⟨rfl, hentry⟩
  · cases h

/-- A directory is made where there was nothing. -/
theorem withDirectory_eq_ok (hp : p.Plain) (h : t.withDirectory base p = .ok t') :
    t.get? p.place = none ∧ t' = t.put p.place .directory := by
  rw [withDirectory, hp.start] at h
  obtain ⟨u, -, h⟩ := exists_of_bind_eq_ok h
  obtain ⟨around, haround, h⟩ := exists_of_bind_eq_ok h
  cases hlast : p.parts.getLast? with
  | none =>
    rw [hlast] at h
    cases h
  | some name =>
    rw [hlast] at h
    obtain ⟨place, hplace, h⟩ := exists_of_bind_eq_ok h
    have hname : name ≠ ".." := fun he => hp.forward (he ▸ List.mem_of_getLast? hlast)
    obtain rfl := walk_eq_ok (fun hmem => hp.forward ((List.dropLast_subset _) hmem)) haround
    obtain ⟨-, rfl⟩ := descend_eq_ok hname hplace
    have hsplit : p.parts.dropLast ++ [name] = p.parts := List.dropLast_append_getLast? name hlast
    have hparts : [] ++ p.parts.dropLast.map Utf8.normal ++ [Utf8.normal name] = p.place :=
      calc [] ++ p.parts.dropLast.map Utf8.normal ++ [Utf8.normal name]
          = (p.parts.dropLast ++ [name]).map Utf8.normal := by simp
        _ = p.place := congrArg (List.map Utf8.normal) hsplit
    rw [hparts] at h
    split at h
    · cases h
    · next hsome => exact ⟨by simpa using hsome, (Except.ok.inj h).symm⟩

/-! ## What changes -/

/-- A tree differs from another one only at some places, and in directories above them that are
new. -/
def Spares (targets : List Place) (t t' : FileTree) : Prop :=
  ∀ place, t'.get? place = t.get? place ∨ place ∈ targets ∨
    t.get? place = none ∧ t'.get? place = some .directory ∧ ∃ q ∈ targets, place <+: q

theorem Spares.refl (targets : List Place) (t : FileTree) : t.Spares targets t := fun _ => .inl rfl

theorem Spares.trans (h : t.Spares targets t') (h' : t'.Spares targets t'') : t.Spares targets t'' := by
  intro place
  rcases h' place with h' | h' | ⟨hnone, hmade⟩
  · rw [h']
    exact h place
  · exact .inr (.inl h')
  · rcases h place with h | h | ⟨-, hmade', -⟩
    · exact .inr (.inr ⟨h ▸ hnone, hmade⟩)
    · exact .inr (.inl h)
    · rw [hmade'] at hnone
      cases hnone

theorem Spares.mono {more : List Place} (h : t.Spares targets t') (hmore : targets ⊆ more) :
    t.Spares more t' := by
  intro place
  rcases h place with h | h | ⟨hnone, hmade, q, hq, hprefix⟩
  · exact .inl h
  · exact .inr (.inl (hmore h))
  · exact .inr (.inr ⟨hnone, hmade, q, hmore hq, hprefix⟩)

/-- A file at another place stays what it is. -/
theorem Spares.file {text : String} (h : t.Spares targets t') (hplace : place ∉ targets)
    (hfile : t.get? place = some (.file text)) : t'.get? place = some (.file text) := by
  rcases h place with h | h | ⟨hnone, -⟩
  · rw [h, hfile]
  · exact absurd h hplace
  · rw [hfile] at hnone
    cases hnone

theorem spares_put {e : Entry} (hplace : place ∈ targets) : t.Spares targets (t.put place e) := by
  intro other
  by_cases h : other = place
  · exact .inr (.inl (h ▸ hplace))
  · exact .inl (get?_put_of_ne t h e)

theorem spares_erase (hplace : place ∈ targets) : t.Spares targets (t.erase place) := by
  intro other
  by_cases h : other = place
  · exact .inr (.inl (h ▸ hplace))
  · exact .inl (get?_erase_of_ne t h)

/-- A change after which a tree differs only at some places. -/
def Sparing (targets : List Place) (m : Changing α) : Prop :=
  ∀ t : FileTree, t.Spares targets (after m t)

theorem sparing_pure (a : α) : Sparing targets (pure a) := fun t => .refl _ t

theorem sparing_throw (fault : Fault) : Sparing targets (throw fault : Changing α) := fun t => .refl _ t

theorem Sparing.bind {m : Changing α} {f : α → Changing β} (hm : Sparing targets m)
    (hf : ∀ a, Sparing targets (f a)) : Sparing targets (m >>= f) := by
  intro t
  cases hout : outcome m t with
  | ok a =>
    rw [after_bind_of_ok hout]
    exact (hm t).trans (hf a _)
  | error fault =>
    rw [after_bind_of_error hout]
    exact hm t

theorem sparing_get_bind {f : FileTree → Changing α} (hf : ∀ t, Sparing targets (f t)) :
    Sparing targets (get >>= f) :=
  fun t => hf t t

theorem sparing_expectDirectory (base : Place) (p : Path) : Sparing targets (expectDirectory base p) := by
  refine sparing_get_bind fun t => ?_
  split
  · exact sparing_pure _
  · exact sparing_throw _

theorem sparing_expectRoom (base : Place) (p : Path) : Sparing targets (expectRoom base p) := by
  refine sparing_get_bind fun t => ?_
  split
  · exact sparing_pure _
  · exact sparing_throw _

theorem sparing_makeOne (base : Place) (hp : p.Plain) {q : Place} (hq : q ∈ targets) (habove : p.place <+: q) :
    Sparing targets (makeOne base p) := by
  intro t
  rw [after, makeOne]
  cases hmake : t.withDirectory base p with
  | error obstacle => exact .refl _ t
  | ok t' =>
    obtain ⟨hnone, rfl⟩ := withDirectory_eq_ok hp hmake
    intro other
    by_cases h : other = p.place
    · subst h
      have hroot : p.place ≠ [] := by
        rintro hroot
        rw [hroot] at hnone
        cases hnone
      exact .inr (.inr ⟨hnone, get?_put_self t hroot _, q, hq, habove⟩)
    · exact .inl (get?_put_of_ne t h _)

/-- The components above are given in reverse. -/
theorem sparing_ensureReversed {q : Place} (hq : q ∈ targets) (levels : Nat) {names : List String}
    (hforward : ".." ∉ names) (habove : names.reverse.map Utf8.normal <+: q) :
    Sparing targets (ensureReversed base "/" levels names) := by
  induction levels generalizing names with
  | zero => cases names <;> exact sparing_throw _
  | succ levels ih =>
    cases names with
    | nil => exact sparing_expectDirectory _ _
    | cons name above =>
      have hplain : (⟨"/", (name :: above).reverse⟩ : Path).Plain :=
        ⟨rfl, fun hmem => hforward (List.mem_reverse.1 hmem)⟩
      have hmake := sparing_makeOne base hplain hq habove
      rw [List.reverse_cons, List.map_append] at habove
      refine hmake.bind fun obstacle => ?_
      split
      · exact sparing_pure _
      · refine (ih (fun hmem => hforward (List.mem_cons_of_mem _ hmem))
          ((List.prefix_append _ _).trans habove)).bind fun _ => hmake.bind fun obstacle => ?_
        split
        · exact sparing_pure _
        · exact sparing_expectDirectory _ _
      · exact sparing_expectDirectory _ _

theorem sparing_delete (hp : p.Plain) (hplace : p.place ∈ targets) : Sparing targets (delete base p) := by
  intro t
  rw [after, delete]
  rcases hstat : t.stat base p with obstacle | ⟨place, _ | text⟩
  · cases obstacle <;> exact .refl _ t
  · exact .refl _ t
  · obtain ⟨rfl, -⟩ := stat_eq_ok hp hstat
    exact spares_erase hplace

theorem sparing_putFile (hp : p.Plain) (hplace : p.place ∈ targets) (text : String) :
    Sparing targets (putFile base p text) := by
  intro t
  rw [after, putFile]
  cases hlocate : t.locate base p with
  | error obstacle => exact .refl _ t
  | ok place =>
    obtain rfl := locate_eq_ok hp hlocate
    by_cases hbad : t.get? p.place = some .directory || Text.hasHalf text
    · simp only [hbad, if_true]
      exact .refl _ t
    · simp only [hbad]
      exact spares_put hplace

/-- The writing of a file changes what is at its place, and makes directories above it. -/
theorem sparing_writeWithin (depth : Nat) (hp : p.Plain) (hplace : p.place ∈ targets) (text : String) :
    Sparing targets (writeWithin depth base p text) := by
  have habove : p.parent.parts.reverse.reverse.map Utf8.normal <+: p.place := by
    rw [List.reverse_reverse, p.parent_eq_upTo]
    show (p.upTo _).place <+: p.place
    rw [Path.place_upTo]
    exact List.take_prefix _ _
  have hforward : ".." ∉ p.parent.parts.reverse := fun hmem =>
    hp.forward (List.dropLast_subset _ (List.mem_reverse.1 hmem))
  have hensure : Sparing targets (ensureDirectory depth base p.parent) := by
    rw [ensureDirectory, show p.parent.root = "/" from hp.root]
    exact sparing_ensureReversed hplace _ hforward habove
  exact (sparing_delete hp hplace).bind fun _ => hensure.bind fun _ =>
    (sparing_expectRoom base p).bind fun _ => sparing_putFile hp hplace text

/-- A text with a half of a pair is not written. -/
theorem writeWithin_ne_ok {text : String} (htext : Text.hasHalf text = true) (u : Unit) (t' : FileTree) :
    writeWithin depth base p text t ≠ .ok u t' := by
  intro h
  obtain ⟨-, t₁, -, h⟩ := bind_eq_ok_iff.1 h
  obtain ⟨-, t₂, -, h⟩ := bind_eq_ok_iff.1 h
  obtain ⟨-, t₃, -, h⟩ := bind_eq_ok_iff.1 h
  rw [putFile] at h
  cases hlocate : t₃.locate base p with
  | error obstacle =>
    rw [hlocate] at h
    cases h
  | ok place =>
    rw [hlocate] at h
    simp [htext] at h

/-! ## What is read afterwards -/

/-- What leads to a place leads there as well when something that is no directory is put at a place where
no directory is. -/
theorem walk_put {q : Place} (hfree : t.get? q ≠ some .directory) (text : String)
    (h : t.walk here parts = .ok place) : (t.put q (.file text)).walk here parts = .ok place := by
  induction parts generalizing here with
  | nil => exact h
  | cons component parts ih =>
    obtain ⟨next, hnext, h⟩ := exists_of_bind_eq_ok h
    have hhere : here ≠ q := by
      rintro rfl
      rw [descend] at hnext
      split at hnext
      · cases hnext
      · cases hnext
      · next hdirectory => exact hfree hdirectory
    have hstep : (t.put q (.file text)).descend here component = .ok next := by
      rw [descend, get?_put_of_ne t hhere, ← descend, hnext]
    rw [walk, hstep]
    exact ih h

/-- A file that was written is read as its text, whatever the path may be. -/
theorem textAt_of_writeWithin {text : String} (h : writeWithin depth base p text t = .ok () t') :
    t'.textAt base p = .ok text := by
  obtain ⟨-, t₁, -, h⟩ := bind_eq_ok_iff.1 h
  obtain ⟨-, t₂, -, h⟩ := bind_eq_ok_iff.1 h
  obtain ⟨-, t₃, -, h⟩ := bind_eq_ok_iff.1 h
  rw [putFile] at h
  cases hlocate : t₃.locate base p with
  | error obstacle =>
    rw [hlocate] at h
    cases h
  | ok place =>
    simp only [hlocate] at h
    split at h
    · cases h
    · next hput =>
      cases h
      have hfree : t₃.get? place ≠ some .directory := fun he => hput (by simp [he])
      have hroot : place ≠ [] := by
        rintro rfl
        exact hfree rfl
      obtain ⟨u, hcheck, hwalk⟩ := exists_of_bind_eq_ok hlocate
      have hfound : (t₃.put place (.file text)).stat base p = .ok (place, .file text) := by
        rw [stat, locate, hcheck]
        simp only [bind, Except.bind, walk_put hfree text hwalk, get?_put_self t₃ hroot]
        rfl
      rw [textAt, lookup?, hfound]

/-! ## What can be written -/

/-- A path from the root that is short enough, and above whose end there is no file. -/
structure Clear (t : FileTree) (p : Path) : Prop where
  plain : p.Plain
  fits : ∀ n ≤ p.parts.length, checkText (p.upTo n) = .ok ()
  names : ∀ name ∈ p.parts, Path.byteCount name ≤ nameLimit
  around : ∀ n < p.parts.length,
    t.get? (p.place.take n) = none ∨ t.get? (p.place.take n) = some .directory

/-- A path at which a file can be written: nothing is in the way, no directory is there, its name leaves
room for the longer one under which a text is written first, and no more of the directories above it are
missing than can be made. -/
structure Writable (depth : Nat) (t : FileTree) (p : Path) : Prop extends Clear t p where
  free : t.get? p.place ≠ some .directory
  room : hasRoom p.place = true
  near : ∃ n < p.parts.length, p.parts.length ≤ n + 2 + depth ∧
    ∀ m ≤ n, t.get? (p.place.take m) = some .directory

/-- A path without a file in the way leads to its place if all directories are there, and is missing
otherwise. -/
theorem walk_eq (hforward : ".." ∉ parts) (hnames : ∀ name ∈ parts, Path.byteCount name ≤ nameLimit)
    (hfiles : ∀ n < parts.length, t.get? (here ++ (parts.map Utf8.normal).take n) = none ∨
      t.get? (here ++ (parts.map Utf8.normal).take n) = some .directory) :
    (∀ n < parts.length, t.get? (here ++ (parts.map Utf8.normal).take n) = some .directory) ∧
        t.walk here parts = .ok (here ++ parts.map Utf8.normal) ∨
      (∃ n < parts.length, t.get? (here ++ (parts.map Utf8.normal).take n) = none) ∧
        t.walk here parts = .error .missing := by
  induction parts generalizing here with
  | nil => exact .inl ⟨by simp, by simp [walk]⟩
  | cons name parts ih =>
    obtain ⟨hname, hforward⟩ := not_or.1 (mt List.mem_cons.2 hforward)
    obtain ⟨hshort, hnames⟩ := List.forall_mem_cons.1 hnames
    have hhere := hfiles 0 (Nat.succ_pos _)
    simp only [List.take_zero, List.append_nil] at hhere
    have hnext : ∀ n, here ++ ((name :: parts).map Utf8.normal).take (n + 1) =
        here ++ [Utf8.normal name] ++ (parts.map Utf8.normal).take n := by simp
    rcases hhere with hentry | hentry
    · refine .inr ⟨⟨0, Nat.succ_pos _, by simpa using hentry⟩, ?_⟩
      rw [walk, descend, hentry]
      rfl
    · have hstep : t.walk here (name :: parts) = t.walk (here ++ [Utf8.normal name]) parts := by
        rw [walk, descend, hentry]
        simp only [if_neg (Ne.symm hname), if_neg (Nat.not_lt.2 hshort)]
        rfl
      rw [hstep]
      rcases ih hforward hnames (fun n hn => hnext n ▸ hfiles (n + 1) (Nat.succ_lt_succ hn)) with
        ⟨hall, hwalk⟩ | ⟨⟨n, hn, hnone⟩, hwalk⟩
      · refine .inl ⟨?_, by rw [hwalk]; simp⟩
        intro n hn
        cases n with
        | zero => simpa using hentry
        | succ n =>
          rw [hnext]
          exact hall n (Nat.lt_of_succ_lt_succ hn)
      · exact .inr ⟨⟨n + 1, Nat.succ_lt_succ hn, by rw [hnext]; exact hnone⟩, hwalk⟩

/-- Directories at the first components of a path were made where there was nothing. -/
structure Made (p : Path) (k : Nat) (t t' : FileTree) : Prop where
  there : ∀ n ≤ k, t'.get? (p.place.take n) = some .directory
  other : ∀ place, t'.get? place = t.get? place ∨ ∃ n ≤ k, place = p.place.take n

theorem Made.trans {k l : Nat} (h : Made p k t t') (h' : Made p l t' t'') (hkl : k ≤ l) :
    Made p l t t'' := by
  refine ⟨h'.there, fun place => ?_⟩
  rcases h'.other place with he | hplace
  · rw [he]
    exact (h.other place).imp_right fun ⟨n, hn, hplace⟩ => ⟨n, Nat.le_trans hn hkl, hplace⟩
  · exact .inr hplace

namespace Clear

variable {k levels : Nat}

theorem start (h : t.Clear p) (n : Nat) : (p.upTo n).start base = [] := (h.plain.upTo n).start base

/-- Where the directories on the way are there, so is the place. -/
theorem walk_upTo (h : t.Clear p) (hk : k ≤ p.parts.length) :
    (∀ n < k, t.get? (p.place.take n) = some .directory) ∧
        t.walk [] (p.upTo k).parts = .ok (p.place.take k) ∨
      (∃ n < k, t.get? (p.place.take n) = none) ∧ t.walk [] (p.upTo k).parts = .error .missing := by
  have hlength : (p.upTo k).parts.length = k := by
    rw [Path.upTo, List.length_take]
    omega
  have hplace : (p.upTo k).parts.map Utf8.normal = p.place.take k := p.place_upTo k
  have htake : ∀ n < k, [] ++ (p.place.take k).take n = p.place.take n := by
    intro n hn
    rw [List.nil_append, List.take_take, Nat.min_eq_left (Nat.le_of_lt hn)]
  have hfiles : ∀ n < (p.upTo k).parts.length,
      t.get? ([] ++ ((p.upTo k).parts.map Utf8.normal).take n) = none ∨
        t.get? ([] ++ ((p.upTo k).parts.map Utf8.normal).take n) = some .directory := by
    intro n hn
    rw [hlength] at hn
    rw [hplace, htake n hn]
    exact h.around n (Nat.lt_of_lt_of_le hn hk)
  have hwalk := walk_eq (h.plain.upTo k).forward (fun name hmem => h.names name (List.mem_of_mem_take hmem))
    hfiles
  rw [hlength, hplace] at hwalk
  rcases hwalk with ⟨hall, hwalk⟩ | ⟨⟨n, hn, hnone⟩, hwalk⟩
  · exact .inl ⟨fun n hn => htake n hn ▸ hall n hn, hwalk⟩
  · exact .inr ⟨⟨n, hn, htake n hn ▸ hnone⟩, hwalk⟩

theorem lookup?_upTo (h : t.Clear p) (hk : k ≤ p.parts.length)
    (hall : ∀ n ≤ k, t.get? (p.place.take n) = some .directory) :
    t.lookup? base (p.upTo k) = some .directory := by
  have hlocate : t.locate base (p.upTo k) = .ok (p.place.take k) := by
    rw [locate, h.fits k hk, h.start]
    rcases h.walk_upTo hk with ⟨-, hwalk⟩ | ⟨⟨n, hn, hnone⟩, -⟩
    · exact hwalk
    · rw [hall n (Nat.le_of_lt hn)] at hnone
      cases hnone
  have hstat : t.stat base (p.upTo k) = .ok (p.place.take k, .directory) := by
    rw [stat, hlocate]
    simp only [bind, Except.bind, hall k (Nat.le_refl k)]
    rfl
  rw [lookup?, hstat]

/-- What happens when a directory on the way is made. -/
theorem withDirectory_upTo (base : Place) (h : t.Clear p) (hk : k < p.parts.length) :
    (∀ n ≤ k, t.get? (p.place.take n) = some .directory) ∧
        t.withDirectory base (p.upTo (k + 1)) =
          (if (t.get? (p.place.take (k + 1))).isSome then .error .taken
          else .ok (t.put (p.place.take (k + 1)) .directory)) ∨
      (∃ n ≤ k, t.get? (p.place.take n) = none) ∧
        t.withDirectory base (p.upTo (k + 1)) = .error .missing := by
  have hparts : (p.upTo (k + 1)).parts = (p.upTo k).parts ++ [p.parts[k]] :=
    List.take_succ_eq_append_getElem hk
  have hparent : (p.upTo (k + 1)).parent.parts = (p.upTo k).parts := by
    rw [Path.parent, hparts, List.dropLast_concat]
  have hlast : (p.upTo (k + 1)).parts.getLast? = some p.parts[k] := by rw [hparts, List.getLast?_concat]
  have hplace : p.place.take k ++ [Utf8.normal p.parts[k]] = p.place.take (k + 1) := by
    rw [← p.place_upTo, ← p.place_upTo, Path.place, Path.place, hparts, List.map_append]
    rfl
  have hname : p.parts[k] ≠ ".." := fun he => h.plain.forward (he ▸ List.getElem_mem hk)
  have hshort : ¬nameLimit < Path.byteCount p.parts[k] := Nat.not_lt.2 (h.names _ (List.getElem_mem hk))
  rw [withDirectory, h.fits (k + 1) hk, h.start, hparent, hlast]
  rcases h.walk_upTo (Nat.le_of_lt hk) with ⟨hall, hwalk⟩ | ⟨⟨n, hn, hnone⟩, hwalk⟩
  · rw [hwalk]
    rcases h.around k hk with hentry | hentry
    · refine .inr ⟨⟨k, Nat.le_refl k, hentry⟩, ?_⟩
      simp [bind, Except.bind, descend, hentry]
    · refine .inl ⟨fun n hn => ?_, ?_⟩
      · rcases Nat.lt_or_eq_of_le hn with hn | rfl
        · exact hall n hn
        · exact hentry
      · simp only [bind, Except.bind, descend, hentry, if_neg hname, if_neg hshort, hplace]
        split <;> rfl
  · refine .inr ⟨⟨n, Nat.le_of_lt hn, hnone⟩, ?_⟩
    rw [hwalk]
    rfl

theorem expectDirectory_eq_ok (base : Place) (h : t.Clear p) (hk : k ≤ p.parts.length)
    (hall : ∀ n ≤ k, t.get? (p.place.take n) = some .directory) :
    expectDirectory base (p.upTo k) t = .ok () t := by
  rw [expectDirectory]
  show (if t.lookup? base (p.upTo k) = some .directory then pure () else throw .malformed : Changing Unit) t = _
  rw [h.lookup?_upTo hk hall, if_pos rfl]
  rfl

/-- The next directory of a path is made, or it is there already. -/
theorem makeOne_cases (base : Place) (h : t.Clear p) (hk : k + 1 < p.parts.length)
    (hall : ∀ n ≤ k, t.get? (p.place.take n) = some .directory) :
    makeOne base (p.upTo (k + 1)) t = .ok (some .taken) t ∧ Made p (k + 1) t t ∨
      ∃ t', makeOne base (p.upTo (k + 1)) t = .ok none t' ∧ Made p (k + 1) t t' := by
  rcases h.withDirectory_upTo base (Nat.lt_of_succ_lt hk) with ⟨-, hmake⟩ | ⟨⟨n, hn, hnone⟩, -⟩
  · rcases h.around _ hk with hentry | hentry
    · right
      rw [hentry] at hmake
      have hroot : p.place.take (k + 1) ≠ [] := by
        intro hroot
        rw [hroot] at hentry
        cases hentry
      refine ⟨_, by rw [makeOne, hmake]; rfl, fun n hn => ?_, fun place => ?_⟩
      · rcases Nat.lt_or_eq_of_le hn with hn | rfl
        · have hthere := hall n (Nat.le_of_lt_succ hn)
          rw [get?_put_of_ne t (fun he => by rw [he, hentry] at hthere; cases hthere), hthere]
        · exact get?_put_self t hroot _
      · by_cases he : place = p.place.take (k + 1)
        · exact .inr ⟨k + 1, Nat.le_refl _, he⟩
        · exact .inl (get?_put_of_ne t he _)
    · left
      rw [hentry] at hmake
      refine ⟨by rw [makeOne, hmake]; rfl, fun n hn => ?_, fun place => .inl rfl⟩
      rcases Nat.lt_or_eq_of_le hn with hn | rfl
      · exact hall n (Nat.le_of_lt_succ hn)
      · exact hentry
  · rw [hall n hn] at hnone
    cases hnone

theorem of_made (h : t.Clear p) (hmade : Made p k t t') : t'.Clear p := by
  refine ⟨h.plain, h.fits, h.names, fun n hn => ?_⟩
  rcases hmade.other (p.place.take n) with he | ⟨m, hm, he⟩
  · rw [he]
    exact h.around n hn
  · exact .inr (he ▸ hmade.there m hm)

/-- The directories above the end of a path are made, if not too many are missing. -/
theorem exists_ensureReversed (h : t.Clear p) (hk : k < p.parts.length) (hnk : n ≤ k)
    (hlevels : 0 < levels) (hnear : k ≤ n + levels)
    (hall : ∀ m ≤ n, t.get? (p.place.take m) = some .directory) :
    ∃ t', ensureReversed base "/" levels (p.upTo k).parts.reverse t = .ok () t' ∧ Made p k t t' := by
  have hpath : ∀ k, (⟨"/", (p.upTo k).parts⟩ : Path) = p.upTo k := fun k => by
    rw [Path.upTo, h.plain.root]
  induction k generalizing levels with
  | zero =>
    obtain ⟨levels, rfl⟩ : ∃ m, levels = m + 1 := ⟨levels - 1, by omega⟩
    have hroot : ∀ m ≤ 0, t.get? (p.place.take m) = some .directory := fun m hm =>
      hall m (Nat.le_trans hm (Nat.zero_le n))
    refine ⟨t, ?_, hroot, fun place => .inl rfl⟩
    have := h.expectDirectory_eq_ok base (Nat.zero_le _) hroot
    rwa [← hpath] at this
  | succ k ih =>
    obtain ⟨levels, rfl⟩ : ∃ m, levels = m + 1 := ⟨levels - 1, by omega⟩
    have hparts : (p.upTo (k + 1)).parts.reverse = p.parts[k] :: (p.upTo k).parts.reverse := by
      rw [Path.upTo, List.take_succ_eq_append_getElem (Nat.lt_of_succ_lt hk), List.reverse_append]
      rfl
    have hreverse : (⟨"/", (p.parts[k] :: (p.upTo k).parts.reverse).reverse⟩ : Path) = p.upTo (k + 1) := by
      rw [← hparts, List.reverse_reverse, hpath]
    rw [hparts, ensureReversed, hreverse]
    by_cases hthere : ∀ m ≤ k, t.get? (p.place.take m) = some .directory
    · rcases h.makeOne_cases base hk hthere with ⟨hmake, hmade⟩ | ⟨t', hmake, hmade⟩
      · refine ⟨t, ?_, hmade⟩
        rw [bind_of_ok hmake]
        exact h.expectDirectory_eq_ok base (Nat.le_of_lt hk) hmade.there
      · refine ⟨t', ?_, hmade⟩
        rw [bind_of_ok hmake]
        rfl
    · -- the directories above are made first
      have hmissing : t.withDirectory base (p.upTo (k + 1)) = .error .missing := by
        rcases h.withDirectory_upTo base (Nat.lt_of_succ_lt hk) with ⟨hall, -⟩ | ⟨-, hmissing⟩
        · exact absurd hall hthere
        · exact hmissing
      have hfirst : makeOne base (p.upTo (k + 1)) t = .ok (some .missing) t := by rw [makeOne, hmissing]
      have hlt : n < k := Nat.lt_of_not_le fun hle => hthere fun m hm => hall m (Nat.le_trans hm hle)
      obtain ⟨t₁, hrun, hmade⟩ : ∃ t', ensureReversed base "/" levels (p.upTo k).parts.reverse t =
          .ok () t' ∧ Made p k t t' := ih (by omega) (by omega) (by omega) (by omega)
      rw [bind_of_ok hfirst]
      dsimp only
      rw [bind_of_ok hrun]
      rcases (h.of_made hmade).makeOne_cases base hk hmade.there with
        ⟨hmake, hmade'⟩ | ⟨t₂, hmake, hmade'⟩
      · refine ⟨t₁, ?_, hmade.trans hmade' (Nat.le_succ k)⟩
        rw [bind_of_ok hmake]
        exact (h.of_made hmade).expectDirectory_eq_ok base (Nat.le_of_lt hk) hmade'.there
      · refine ⟨t₂, ?_, hmade.trans hmade' (Nat.le_succ k)⟩
        rw [bind_of_ok hmake]
        rfl

theorem locate_eq (base : Place) (h : t.Clear p) :
    (∀ n < p.parts.length, t.get? (p.place.take n) = some .directory) ∧
        t.locate base p = .ok p.place ∨
      (∃ n < p.parts.length, t.get? (p.place.take n) = none) ∧ t.locate base p = .error .missing := by
  have hcheck : checkText p = .ok () := p.upTo_length ▸ h.fits _ (Nat.le_refl _)
  have hplace : p.place.take p.parts.length = p.place := by
    rw [← p.place_upTo, p.upTo_length]
  have hwalk := h.walk_upTo (Nat.le_refl _)
  rw [p.upTo_length, hplace] at hwalk
  rw [locate, hcheck, h.plain.start]
  exact hwalk

end Clear

theorem take_ne_place (hn : n < p.parts.length) : p.place.take n ≠ p.place := by
  intro he
  have hlength := congrArg List.length he
  rw [List.length_take, Path.place, List.length_map] at hlength
  omega

namespace Writable

variable {text : String}

/-- What is in the place of a file to be written is deleted. -/
theorem exists_delete (base : Place) (h : t.Writable depth p) : ∃ t', delete base p t = .ok () t' ∧
    (∀ place, place ≠ p.place → t'.get? place = t.get? place) ∧ t'.get? p.place ≠ some .directory := by
  rcases h.locate_eq base with ⟨-, hlocate⟩ | ⟨-, hlocate⟩
  · rcases hentry : t.get? p.place with _ | _ | old
    · refine ⟨t, ?_, fun _ _ => rfl, h.free⟩
      rw [delete, stat, hlocate]
      simp only [bind, Except.bind, hentry]
      rfl
    · exact absurd hentry h.free
    · have hroot : p.place ≠ [] := by
        intro hroot
        rw [hroot] at hentry
        cases hentry
      refine ⟨t.erase p.place, ?_, fun place hne => get?_erase_of_ne t hne, ?_⟩
      · rw [delete, stat, hlocate]
        simp only [bind, Except.bind, hentry]
        rfl
      · rw [get?_erase_self t hroot]
        nofun
  · refine ⟨t, ?_, fun _ _ => rfl, h.free⟩
    rw [delete, stat, hlocate]
    rfl

/-- Where a file can be written, a text without halves of pairs is there afterwards. -/
theorem exists_writeWithin (base : Place) (h : t.Writable depth p) (htext : Text.hasHalf text = false) :
    ∃ t', writeWithin depth base p text t = .ok () t' ∧ t'.get? p.place = some (.file text) := by
  obtain ⟨n, hn, hnear, hall⟩ := h.near
  obtain ⟨t₁, hdelete, hsame, hfree⟩ := h.exists_delete base
  have hbefore : ∀ m < p.parts.length, t₁.get? (p.place.take m) = t.get? (p.place.take m) := fun m hm =>
    hsame _ (take_ne_place hm)
  have hclear : t₁.Clear p := ⟨h.plain, h.fits, h.names, fun m hm => by
    rw [hbefore m hm]
    exact h.around m hm⟩
  have hlast : p.parts.length - 1 < p.parts.length := by omega
  obtain ⟨t₂, hensure, hmade⟩ : ∃ t', ensureReversed base "/" (depth + 1)
      (p.upTo (p.parts.length - 1)).parts.reverse t₁ = .ok () t' ∧ Made p (p.parts.length - 1) t₁ t' :=
    hclear.exists_ensureReversed hlast (by omega) (Nat.succ_pos depth) (by omega)
      fun m hm => (hbefore m (by omega)).trans (hall m hm)
  have hlocate : t₂.locate base p = .ok p.place := by
    rcases (hclear.of_made hmade).locate_eq base with ⟨-, hlocate⟩ | ⟨⟨m, hm, hnone⟩, -⟩
    · exact hlocate
    · rw [hmade.there m (by omega)] at hnone
      cases hnone
  have hfree₂ : t₂.get? p.place ≠ some .directory := by
    rcases hmade.other p.place with he | ⟨m, hm, he⟩
    · rwa [he]
    · exact absurd he.symm (take_ne_place (by omega))
  have hroot : p.place ≠ [] := fun he => hfree₂ (he ▸ rfl)
  have hroom : expectRoom base p t₂ = .ok () t₂ := by
    show (if (t₂.locate base p).toOption.any hasRoom then pure () else throw .malformed : Changing Unit) t₂ = _
    rw [hlocate, if_pos (by simpa [Except.toOption] using h.room)]
    rfl
  have hput : putFile base p text t₂ = .ok () (t₂.put p.place (.file text)) := by
    rw [putFile, hlocate]
    simp [hfree₂, htext]
  refine ⟨_, ?_, get?_put_self t₂ hroot _⟩
  rw [writeWithin, bind_of_ok hdelete, ensureDirectory, p.parent_eq_upTo]
  rw [show (p.upTo (p.parts.length - 1)).root = "/" from h.plain.root, bind_of_ok hensure]
  rw [bind_of_ok hroom]
  exact hput

end Writable

end FileTree

end ApiGraph
