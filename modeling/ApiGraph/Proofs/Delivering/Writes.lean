import ApiGraph.FileTree.Replacement
import ApiGraph.Proofs.Delivering.Directories

/-!
# What comes of writing a file

Writing a file comes to an exact end in every tree whose entries stand in directories: which one it is,
what is at the place of the file then, and that all else is as before.

* `FileTree.putByWay_eq` — a text that is written beside a file first comes to its place as if it was
  written there at once;
* `FileTree.exists_prepare`, `FileTree.prepare_cases` — when room is made for a file, and what has
  changed then;
* `FileTree.WritesExactly`, `FileTree.writesExactly` — what comes of writing a text to a path;
* `FileTree.Ready.keeps` — a file is kept when other ones are written;
* `FileTree.write_exact` — the ends of one writing, and what is left of many;
* `FileTree.not_written` — texts that are not written although nothing is in the way.
-/

namespace ApiGraph.FileTree

variable {t t' : FileTree} {base place spare : Place} {p : Path} {text : String} {depth : Nat}

/-! ## Replacement -/

/-- By way of a place where there is nothing, a text comes to its place as if it was put there at once,
and if it does not, nothing has changed. -/
theorem putByWay_eq (hspare : t.get? spare = none) (hne : place ≠ spare) (text : String) :
    putByWay spare place text t =
      if t.get? place = some .directory || Text.hasHalf text then .error .malformed t
      else .ok () (t.put place (.file text)) := by
  have hroot : spare ≠ [] := by
    rintro rfl
    cases hspare
  have hcreate : createFile spare t = .ok () (t.put spare (.file "")) := by
    rw [createFile, hspare]
    rfl
  have hcleanup : ∀ m : Changing Unit, (tryCatch m fun fault => do removeFile spare; throw fault)
      (t.put spare (.file "")) = match m (t.put spare (.file "")) with
        | .ok a t' => .ok a t'
        | .error fault t' => .error fault (t'.erase spare) := by
    intro m
    show EStateM.tryCatch m _ _ = _
    rw [EStateM.tryCatch]
    cases m (t.put spare (.file "")) <;> rfl
  rw [putByWay, bind_of_ok hcreate, hcleanup]
  cases htext : Text.hasHalf text with
  | true =>
    have hfill : fillFile spare text (t.put spare (.file "")) =
        .error .malformed (t.put spare (.file "")) := by
      rw [fillFile, htext]
      rfl
    simp [bind_of_error hfill, erase_put hspare]
  | false =>
    have hfill : fillFile spare text (t.put spare (.file "")) =
        .ok () (t.put spare (.file text)) := by
      rw [fillFile, htext, put_put]
      rfl
    rw [bind_of_ok hfill, moveFile, get?_put_self t hroot, get?_put_of_ne t hne]
    by_cases hplace : t.get? place = some .directory <;> simp [hplace, erase_put hspare]

/-- The place beside a file is another one in the same directory. -/
theorem beside_concat (word name : String) (around : Place) :
    Place.beside word (around ++ [name]) = around ++ ["." ++ name ++ "." ++ word ++ ".tmp"] := by
  rw [Place.beside, List.dropLast_concat]
  simp

theorem beside_ne (word name : String) (around : Place) :
    around ++ [name] ≠ Place.beside word (around ++ [name]) := by
  rw [beside_concat]
  intro h
  have hname : name = "." ++ name ++ "." ++ word ++ ".tmp" := by simpa using h
  have hlength := congrArg String.length hname
  simp only [String.length_append] at hlength
  have : ".tmp".length = 4 := rfl
  omega

theorem not_beside_prefix (word name : String) (around : Place) :
    ¬Place.beside word (around ++ [name]) <+: around ++ [name] := by
  intro h
  have hne := beside_ne word name around
  rw [beside_concat] at h hne
  exact (prefix_concat_iff.1 h).elim (not_concat_prefix_self _ _) fun he => hne he.symm

/-! ## Making room -/

theorem start_directory (hbase : t.get? base = some .directory) (p : Path) :
    t.get? (p.start base) = some .directory := by
  rw [Path.start]
  split
  · rfl
  · exact hbase

theorem delete_of_directory (ht : t.Formed) (hp : p.Short) (hname : p.isNameable = true)
    (hbase : t.get? base = some .directory) (hplace : t.get? (p.target base) = some .directory) :
    delete base p t = .error (.destinationIsDirectory p.name p.text) t := by
  have hlocate := locate_eq_ok_of_ne_none ht hp hname (start_directory hbase p) (by simp [hplace])
  rw [delete, stat, hlocate]
  simp only [bind, Except.bind, hplace]
  rfl

theorem delete_of_file (ht : t.Formed) (hp : p.Short) (hname : p.isNameable = true)
    (hbase : t.get? base = some .directory) (hplace : t.get? (p.target base) = some (.file text)) :
    delete base p t = .ok () (t.erase (p.target base)) := by
  have hlocate := locate_eq_ok_of_ne_none ht hp hname (start_directory hbase p) (by simp [hplace])
  rw [delete, stat, hlocate]
  simp only [bind, Except.bind, hplace]
  rfl

/-- Where there is nothing, nothing is deleted, nor at a path that can not be named. -/
theorem delete_of_none (ht : t.Formed) (hp : p.Short) (hbase : t.get? base = some .directory)
    (hplace : p.isNameable = false ∨ t.get? (p.target base) = none) : delete base p t = .ok () t := by
  rw [delete, stat]
  cases hname : p.isNameable with
  | false =>
    rw [locate_of_not_nameable hname]
    rfl
  | true =>
    have hnone := hplace.resolve_left (by simp [hname])
    rcases locate_cases ht hp hname (start_directory hbase p) with ⟨-, h⟩ | ⟨-, h⟩ | ⟨-, h⟩
    · rw [h]
      simp only [bind, Except.bind, hnone]
      rfl
    · rw [h]
      rfl
    · rw [h]
      rfl

/-- What is at the place of a file is deleted, if anything. -/
theorem exists_delete (ht : t.Formed) (hp : p.Short) (hname : p.isNameable = true)
    (hbase : t.get? base = some .directory) (hplace : t.get? (p.target base) ≠ some .directory) :
    ∃ t', delete base p t = .ok () t' ∧ t'.get? (p.target base) = none ∧
      (∀ q, q ≠ p.target base → t'.get? q = t.get? q) ∧ t'.Formed := by
  rcases hentry : t.get? (p.target base) with _ | _ | text
  · exact ⟨t, delete_of_none ht hp hbase (.inr hentry), hentry, fun _ _ => rfl, ht⟩
  · exact absurd hentry hplace
  · have hroot : p.target base ≠ [] := fun he => hplace (he ▸ rfl)
    refine ⟨_, delete_of_file ht hp hname hbase hentry, get?_erase_self t hroot,
      fun q hq => get?_erase_of_ne t hq, fun q hq => ?_⟩
    by_cases he : q = p.target base
    · rw [he, get?_erase_self t hroot] at hq
      exact absurd rfl hq
    · rw [get?_erase_of_ne t he] at hq
      have hdrop := ht q hq
      rwa [get?_erase_of_ne t fun he => by rw [he, hentry] at hdrop; cases hdrop]

/-- The directory that a path without a last component leads to is there. -/
theorem parts_ne_nil (hbase : t.get? base = some .directory)
    (hplace : t.get? (p.target base) ≠ some .directory) : p.parts ≠ [] := by
  intro hparts
  rw [Path.target, Path.place, hparts, List.map_nil, List.append_nil] at hplace
  exact hplace (start_directory hbase p)

/-- A path leads to something in the directory that its parent leads to. -/
theorem exists_target_eq (hparts : p.parts ≠ []) (base : Place) :
    ∃ name, p.target base = p.parent.target base ++ [name] :=
  ⟨_, p.target_eq_concat (List.getLast?_eq_some_getLast hparts) base⟩

theorem prepare_of_directory (ht : t.Formed) (hp : p.Short) (hname : p.isNameable = true)
    (hbase : t.get? base = some .directory) (hplace : t.get? (p.target base) = some .directory) :
    prepare depth base p t = .error (.destinationIsDirectory p.name p.text) t := by
  rw [prepare, bind_of_error (delete_of_directory ht hp hname hbase hplace)]

/-- Where nothing is yet, it depends on the directories around whether room is made. -/
theorem prepare_of_ensure (hdelete : delete base p t = .ok () t) {fault : Fault}
    (hensure : ensureDirectory depth base p.parent t = .error fault t) : prepare depth base p t = .error fault t := by
  rw [prepare, bind_of_ok hdelete, bind_of_error hensure]

theorem prepare_of_blocked (ht : t.Formed) (hp : p.Short) (hbase : t.get? base = some .directory)
    (hblocked : t.Blocked (p.target base)) : prepare depth base p t = .error .malformed t := by
  have hnone : t.get? (p.target base) = none := by
    by_contra hthere
    exact ht.not_blocked hthere hblocked
  obtain ⟨name, htarget⟩ := exists_target_eq (parts_ne_nil hbase (by rw [hnone]; nofun)) base
  obtain ⟨q, hq, hne, text, hfile⟩ := hblocked
  rw [htarget] at hq hne
  exact prepare_of_ensure (delete_of_none ht hp hbase (.inr hnone))
    (ensureDirectory_of_blocked ht hp.parent (start_directory hbase p)
      ((prefix_concat_iff.1 hq).resolve_right hne) hfile)

/-- No file is in the way of a directory that something is to be in. -/
theorem open_of_not_blocked {around : Place} {name : String} (hfree : ¬t.Blocked (around ++ [name])) :
    ∀ q, q <+: around → ∀ text, t.get? q ≠ some (.file text) :=
  fun q hq text hfile =>
    hfree ⟨q, hq.trans (List.prefix_append _ _), ne_concat_of_prefix hq, text, hfile⟩

theorem prepare_of_missing (ht : t.Formed) (hp : p.Short) (hbase : t.get? base = some .directory)
    (hfar : depth + 1 < t.missing (p.target base).dropLast) : prepare depth base p t = .error .malformed t := by
  by_cases hblocked : t.Blocked (p.target base)
  · exact prepare_of_blocked ht hp hbase hblocked
  · have hdrop : t.get? (p.target base).dropLast = none := by
      by_contra hthere
      rw [missing_of_ne_none ht hthere] at hfar
      exact Nat.not_lt_zero _ hfar
    have hnone := ht.eq_none_of_missing hdrop (List.dropLast_prefix _)
    obtain ⟨name, htarget⟩ := exists_target_eq (parts_ne_nil hbase (by rw [hnone]; nofun)) base
    have hdelete := delete_of_none ht hp hbase (.inr hnone)
    cases hname : p.parent.isNameable with
    | false => exact prepare_of_ensure hdelete (ensureDirectory_of_not_nameable hname)
    | true =>
      rw [htarget, List.dropLast_concat] at hfar
      rw [htarget] at hblocked
      exact prepare_of_ensure hdelete ((ensureDirectory_of_open depth ht hp.parent hname
        (start_directory hbase p) (open_of_not_blocked hblocked)).2 hfar)

/-- A path at whose place there is room for the longer name as well. -/
structure Fits (base : Place) (p : Path) : Prop extends Path.Short p where
  room : hasRoom (p.target base) = true

theorem expectRoom_of_locate (hlocate : t.locate base p = .ok place) (hroom : hasRoom place = true) :
    expectRoom base p t = .ok () t := by
  show (if (t.locate base p).toOption.any hasRoom then pure () else throw .malformed : Changing Unit) t = _
  rw [hlocate, if_pos (by simpa [Except.toOption] using hroom)]
  rfl

/-- Room is made when no directory is at the place, no file in the way and not too much is missing. -/
theorem exists_prepare (ht : t.Formed) (hp : Fits base p) (hname : p.isNameable = true)
    (hbase : t.get? base = some .directory) (hplace : t.get? (p.target base) ≠ some .directory)
    (hfree : ¬t.Blocked (p.target base)) (hnear : t.missing (p.target base).dropLast ≤ depth + 1) :
    ∃ t', prepare depth base p t = .ok () t' ∧ t.ChangedAt (p.target base) none t' ∧
      t'.locate base p = .ok (p.target base) := by
  obtain ⟨name, htarget⟩ := exists_target_eq (parts_ne_nil hbase hplace) base
  rw [htarget, List.dropLast_concat] at hnear
  obtain ⟨t₁, hdelete, hnone, hother, ht₁⟩ := exists_delete ht hp.toShort hname hbase hplace
  have hbase₁ : t₁.get? base = some .directory := by
    rw [hother base fun he => hplace (he ▸ hbase), hbase]
  have hopen : ∀ q, q <+: p.parent.target base → ∀ text, t₁.get? q ≠ some (.file text) := by
    intro q hq
    rw [hother q (htarget ▸ ne_concat_of_prefix hq)]
    exact open_of_not_blocked (htarget ▸ hfree) q hq
  have hnear₁ : t₁.missing (p.parent.target base) ≤ depth + 1 := by
    rwa [missing_congr fun q hq => hother q (htarget ▸ ne_concat_of_prefix hq)]
  obtain ⟨t₂, hensure, hchanged⟩ := (ensureDirectory_of_open depth ht₁ hp.toShort.parent
    (Path.isNameable_parent hname) (start_directory hbase₁ p) hopen).1 hnear₁
  have hgone : t₂.get? (p.target base) = none := by
    rw [hchanged.get?_of_not_prefix (htarget ▸ not_concat_prefix_self _ _), hnone]
  have ht₂ := hchanged.formed ht₁ (.inl rfl)
  have hbase₂ := hchanged.directory (.inl rfl) hbase₁
  have hlocate := locate_eq_ok_of_around ht₂ hp.toShort hname (start_directory hbase₂ p) htarget
    hchanged.get?_self
  have hroom := expectRoom_of_locate hlocate hp.room
  refine ⟨t₂, by rw [prepare, bind_of_ok hdelete, bind_of_ok hensure, hroom], ?_, hlocate⟩
  refine ChangedAt.of_erased ?_ hother
  rw [htarget] at hgone ⊢
  exact hchanged.concat hgone fun _ _ => rfl

/-- A path that can not be named gets no file. The directories around it may be made. -/
theorem exists_prepare_of_not_nameable (ht : t.Formed) (hp : p.Short) (hname : p.isNameable = false)
    (hbase : t.get? base = some .directory) :
    ∃ t', prepare depth base p t = .error .malformed t' ∧ (t' = t ∨ ¬t.Blocked (p.target base) ∧
      t.ChangedAt (p.target base).dropLast (some .directory) t') := by
  by_cases hblocked : t.Blocked (p.target base)
  · exact ⟨t, prepare_of_blocked ht hp hbase hblocked, .inl rfl⟩
  · have hparts : p.parts ≠ [] := by
      intro hparts
      rw [Path.isNameable, hparts] at hname
      cases hname
    obtain ⟨name, htarget⟩ := exists_target_eq hparts base
    have hdelete := delete_of_none ht hp hbase (.inl hname)
    cases hparent : p.parent.isNameable with
    | false => exact ⟨t, prepare_of_ensure hdelete (ensureDirectory_of_not_nameable hparent), .inl rfl⟩
    | true =>
      obtain ⟨hmade, hfailed⟩ := ensureDirectory_of_open depth ht hp.parent hparent (start_directory hbase p)
        (open_of_not_blocked (htarget ▸ hblocked))
      rcases Nat.lt_or_ge (depth + 1) (t.missing (p.parent.target base)) with hfar | hnear
      · exact ⟨t, prepare_of_ensure hdelete (hfailed hfar), .inl rfl⟩
      · obtain ⟨t', hensure, hchanged⟩ := hmade hnear
        have hroom : expectRoom base p t' = .error .malformed t' := by
          show (if (t'.locate base p).toOption.any hasRoom then pure () else throw .malformed :
            Changing Unit) t' = _
          rw [locate_of_not_nameable hname]
          rfl
        have hdrop : (p.target base).dropLast = p.parent.target base := by
          rw [htarget, List.dropLast_concat]
        refine ⟨t', ?_, .inr ⟨hblocked, hdrop ▸ hchanged⟩⟩
        rw [prepare, bind_of_ok hdelete, bind_of_ok hensure, hroom]

/-- Room is made for a file, or for none where a directory is. -/
theorem prepare_cases (ht : t.Formed) (hbase : t.get? base = some .directory) (hp : Fits base p) :
    (∃ fault t', prepare depth base p t = .error fault t') ∨
      t.get? (p.target base) ≠ some .directory ∧ ∃ t', prepare depth base p t = .ok () t' ∧
        t.ChangedAt (p.target base) none t' ∧ t'.locate base p = .ok (p.target base) := by
  cases hname : p.isNameable with
  | false =>
    obtain ⟨t', hprepare, -⟩ := exists_prepare_of_not_nameable ht hp.toShort hname hbase
    exact .inl ⟨_, t', hprepare⟩
  | true =>
    by_cases hplace : t.get? (p.target base) = some .directory
    · exact .inl ⟨_, t, prepare_of_directory ht hp.toShort hname hbase hplace⟩
    · by_cases hfree : t.Blocked (p.target base)
      · exact .inl ⟨_, t, prepare_of_blocked ht hp.toShort hbase hfree⟩
      · rcases Nat.lt_or_ge (depth + 1) (t.missing (p.target base).dropLast) with hfar | hnear
        · exact .inl ⟨_, t, prepare_of_missing ht hp.toShort hbase hfar⟩
        · exact .inr ⟨hplace, exists_prepare ht hp hname hbase hplace hfree hnear⟩

/-! ## Writing -/

/-- A text is put where there is no directory, unless it can not be written. -/
theorem putFile_eq (hlocate : t.locate base p = .ok place) (hplace : t.get? place ≠ some .directory)
    (text : String) : putFile base p text t =
      if Text.hasHalf text then .error .malformed t else .ok () (t.put place (.file text)) := by
  rw [putFile, hlocate]
  simp [hplace]

/-- So it is by way of another place beside it, if there is nothing. -/
theorem replaceFile_eq_putFile (hlocate : t.locate base p = .ok place) {around : Place} {name : String}
    (hplace : place = around ++ [name]) {word : String} (hspare : t.get? (place.beside word) = none)
    (text : String) : replaceFile word base p text t = putFile base p text t := by
  have hat : placeAt base p t = .ok place t := by rw [placeAt, hlocate]
  rw [replaceFile, bind_of_ok hat, putByWay_eq hspare (hplace ▸ beside_ne word name around), putFile, hlocate]

/-- What comes of writing a text to a path, where nothing is too long. -/
structure WritesExactly (depth : Nat) (t : FileTree) (base : Place) (p : Path) (text : String) : Prop where
  /-- A directory is not replaced by a file. -/
  conflict : p.isNameable = true → t.get? (p.target base) = some .directory →
    writeWithin depth base p text t = .error (.destinationIsDirectory p.name p.text) t
  /-- A file is not replaced by a directory. -/
  blocked : t.Blocked (p.target base) → writeWithin depth base p text t = .error .malformed t
  /-- No more directories are made than the making goes deep. -/
  distant : depth + 1 < t.missing (p.target base).dropLast → writeWithin depth base p text t = .error .malformed t
  /-- Else a text that can be written is there afterwards, and nothing else has changed. -/
  written : p.isNameable = true → t.get? (p.target base) ≠ some .directory →
    ¬t.Blocked (p.target base) → t.missing (p.target base).dropLast ≤ depth + 1 →
    Text.hasHalf text = false →
    ∃ t', writeWithin depth base p text t = .ok () t' ∧ t.ChangedAt (p.target base) (some (.file text)) t'
  /-- A text that can not be written leaves its place empty. -/
  unwritten : p.isNameable = true → t.get? (p.target base) ≠ some .directory →
    ¬t.Blocked (p.target base) → t.missing (p.target base).dropLast ≤ depth + 1 →
    Text.hasHalf text = true →
    ∃ t', writeWithin depth base p text t = .error .malformed t' ∧ t.ChangedAt (p.target base) none t'
  /-- A path that can not be named gets no file, but the directories around it may be made. -/
  unnameable : p.isNameable = false → ∃ t', writeWithin depth base p text t = .error .malformed t' ∧
    (t' = t ∨ ¬t.Blocked (p.target base) ∧
      t.ChangedAt (p.target base).dropLast (some .directory) t')
  /-- It makes no difference that the text is first written beside the file. -/
  byWay : ∀ word, t.get? ((p.target base).beside word) = none →
    writeThrough word depth base p text t = writeWithin depth base p text t

theorem writeWithin_of_prepare_error {fault : Fault} (h : prepare depth base p t = .error fault t')
    (text : String) : writeWithin depth base p text t = .error fault t' := by
  rw [writeWithin_eq_prepare, bind_of_error h]

theorem writesExactly (depth : Nat) (ht : t.Formed) (hbase : t.get? base = some .directory) (hp : Fits base p)
    (text : String) : t.WritesExactly depth base p text := by
  have hput : p.isNameable = true → t.get? (p.target base) ≠ some .directory →
      ¬t.Blocked (p.target base) → t.missing (p.target base).dropLast ≤ depth + 1 →
      ∃ t', prepare depth base p t = .ok () t' ∧ t.ChangedAt (p.target base) none t' ∧
        t'.locate base p = .ok (p.target base) ∧ writeWithin depth base p text t =
          if Text.hasHalf text then .error .malformed t'
          else .ok () (t'.put (p.target base) (.file text)) := by
    intro hname hplace hfree hnear
    obtain ⟨t', hprepare, hchanged, hlocate⟩ := exists_prepare ht hp hname hbase hplace hfree hnear
    refine ⟨t', hprepare, hchanged, hlocate, ?_⟩
    rw [writeWithin_eq_prepare, bind_of_ok hprepare, putFile_eq hlocate (by rw [hchanged.get?_self]; nofun)]
  refine ⟨?_, ?_, ?_, ?_, ?_, ?_, ?_⟩
  · intro hname hplace
    exact writeWithin_of_prepare_error (prepare_of_directory ht hp.toShort hname hbase hplace) text
  · intro hblocked
    exact writeWithin_of_prepare_error (prepare_of_blocked ht hp.toShort hbase hblocked) text
  · intro hfar
    exact writeWithin_of_prepare_error (prepare_of_missing ht hp.toShort hbase hfar) text
  · intro hname hplace hfree hnear htext
    obtain ⟨t', -, hchanged, -, hwrite⟩ := hput hname hplace hfree hnear
    rw [htext] at hwrite
    have hroot : p.target base ≠ [] := fun he => hplace (he ▸ rfl)
    refine ⟨_, hwrite, fun q => ?_⟩
    by_cases he : q = p.target base
    · rw [if_pos he, he, get?_put_self t' hroot]
    · rw [get?_put_of_ne t' he, hchanged q, if_neg he, if_neg he]
  · intro hname hplace hfree hnear htext
    obtain ⟨t', -, hchanged, -, hwrite⟩ := hput hname hplace hfree hnear
    rw [htext] at hwrite
    exact ⟨t', hwrite, hchanged⟩
  · intro hname
    obtain ⟨t', hprepare, hstate⟩ := exists_prepare_of_not_nameable ht hp.toShort hname hbase
    exact ⟨t', writeWithin_of_prepare_error hprepare text, hstate⟩
  · intro word hspare
    rw [writeThrough, writeWithin_eq_prepare]
    rcases prepare_cases ht hbase hp with
      ⟨fault, t', hprepare⟩ | ⟨hplace, t', hprepare, hchanged, hlocate⟩
    · rw [bind_of_error hprepare, bind_of_error hprepare]
    · rw [bind_of_ok hprepare, bind_of_ok hprepare]
      obtain ⟨name, htarget⟩ := exists_target_eq (parts_ne_nil hbase hplace) base
      refine replaceFile_eq_putFile hlocate htarget ?_ text
      rw [hchanged.get?_of_not_prefix (htarget ▸ not_beside_prefix word name _), hspare]

/-! ## Many writings -/

/-- The writing of a text to a path, as deep as directories can be made then. -/
structure Call where
  depth : Nat
  path : Path
  text : String

/-- What such a writing does. -/
def Call.run (base : Place) (call : Call) : Changing Unit :=
  writeWithin call.depth base call.path call.text

/-- Writes files one after the other, whatever comes of each. -/
def writes (base : Place) (calls : List Call) (t : FileTree) : FileTree :=
  calls.foldl (fun t call => after (call.run base) t) t

theorem writes_append (base : Place) (calls more : List Call) (t : FileTree) :
    writes base (calls ++ more) t = writes base more (writes base calls t) := List.foldl_append

/-- The tree after a file was written, or after that failed. -/
theorem after_write_cases (ht : t.Formed) (hbase : t.get? base = some .directory) (hp : Fits base p)
    (text : String) :
    after (writeWithin depth base p text) t = t ∨
      (¬t.Blocked (p.target base) ∧ t.get? (p.target base) ≠ some .directory ∧
        ∃ e, t.ChangedAt (p.target base) e (after (writeWithin depth base p text) t) ∧
          (e = some (.file text) ∧ outcome (writeWithin depth base p text) t = .ok () ∨
            e = none ∧ Text.hasHalf text = true)) ∨
      ¬t.Blocked (p.target base) ∧
        t.ChangedAt (p.target base).dropLast (some .directory) (after (writeWithin depth base p text) t) := by
  have h := writesExactly depth ht hbase hp text
  cases hname : p.isNameable with
  | false =>
    obtain ⟨t', hwrite, hstate⟩ := h.unnameable hname
    rw [after_of_error hwrite]
    exact hstate.imp_right .inr
  | true =>
    by_cases hplace : t.get? (p.target base) = some .directory
    · exact .inl (after_of_error (h.conflict hname hplace))
    · by_cases hfree : t.Blocked (p.target base)
      · exact .inl (after_of_error (h.blocked hfree))
      · rcases Nat.lt_or_ge (depth + 1) (t.missing (p.target base).dropLast) with hfar | hnear
        · exact .inl (after_of_error (h.distant hfar))
        · cases htext : Text.hasHalf text with
          | false =>
            obtain ⟨t', hwrite, hchanged⟩ := h.written hname hplace hfree hnear htext
            rw [after_of_ok hwrite, outcome_of_ok hwrite]
            exact .inr (.inl ⟨hfree, hplace, _, hchanged, .inl ⟨rfl, rfl⟩⟩)
          | true =>
            obtain ⟨t', hwrite, hchanged⟩ := h.unwritten hname hplace hfree hnear htext
            rw [after_of_error hwrite]
            exact .inr (.inl ⟨hfree, hplace, _, hchanged, .inr ⟨rfl, rfl⟩⟩)

/-- A tree with a working directory in which all entries stand in directories. -/
structure Ready (t : FileTree) (base : Place) : Prop where
  formed : t.Formed
  base : t.get? base = some .directory

theorem Ready.writeWithin (h : t.Ready base) (hp : Fits base p) (text : String) :
    (after (FileTree.writeWithin depth base p text) t).Ready base := by
  obtain ⟨ht, hbase⟩ := h
  rcases after_write_cases ht hbase hp text with he | ⟨-, hplace, e, hchanged, -⟩ | ⟨-, hchanged⟩
  · rw [he]
    exact ⟨ht, hbase⟩
  · exact ⟨hchanged.formed ht (.inr hplace), hchanged.directory (.inr hplace) hbase⟩
  · exact ⟨hchanged.formed ht (.inl rfl), hchanged.directory (.inl rfl) hbase⟩

theorem Ready.writes (h : t.Ready base) {calls : List Call}
    (hcalls : ∀ call ∈ calls, Fits base call.path) : (writes base calls t).Ready base := by
  induction calls generalizing t with
  | nil => exact h
  | cons call rest ih =>
    obtain ⟨hcall, hrest⟩ := List.forall_mem_cons.1 hcalls
    exact ih (h.writeWithin hcall call.text) hrest

/-- What was written is there. -/
theorem Ready.get?_of_writeWithin (h : t.Ready base) (hp : Fits base p) {text : String}
    (hok : outcome (FileTree.writeWithin depth base p text) t = .ok ()) :
    (after (FileTree.writeWithin depth base p text) t).get? (p.target base) = some (.file text) := by
  have hwrites := writesExactly depth h.formed h.base hp text
  have hno : ∀ {fault t'}, FileTree.writeWithin depth base p text t ≠ .error fault t' := fun he => by
    rw [outcome_of_error he] at hok
    cases hok
  cases hname : p.isNameable with
  | false =>
    obtain ⟨t', hwrite, -⟩ := hwrites.unnameable hname
    exact absurd hwrite hno
  | true =>
    have hplace := fun hplace => hno (hwrites.conflict hname hplace)
    have hfree := fun hblocked => hno (hwrites.blocked hblocked)
    have hnear := Nat.not_lt.1 fun hfar => hno (hwrites.distant hfar)
    cases htext : Text.hasHalf text with
    | true =>
      obtain ⟨t', hwrite, -⟩ := hwrites.unwritten hname hplace hfree hnear htext
      exact absurd hwrite hno
    | false =>
      obtain ⟨t', hwrite, hchanged⟩ := hwrites.written hname hplace hfree hnear htext
      rw [after_of_ok hwrite, hchanged.get?_self]

/-- A file stays what it is unless a text is written to its place, or can not be. -/
theorem Ready.keeps (h : t.Ready base) (hp : Fits base p) {text kept : String}
    (hfile : t.get? place = some (.file kept))
    (hfails : p.target base = place →
      Text.hasHalf text = false ∧ outcome (FileTree.writeWithin depth base p text) t ≠ .ok ()) :
    (after (FileTree.writeWithin depth base p text) t).get? place = some (.file kept) := by
  have hapart : ¬t.Blocked (p.target base) → place ≠ p.target base → ¬place <+: p.target base :=
    fun hfree hne hq => hfree ⟨place, hq, hne, kept, hfile⟩
  rcases after_write_cases h.formed h.base hp text with
    he | ⟨hfree, hplace, e, hchanged, hcause⟩ | ⟨hfree, hchanged⟩
  · rw [he, hfile]
  · rw [hchanged place]
    split
    · next he =>
      obtain ⟨htext, hnot⟩ := hfails he.symm
      rcases hcause with ⟨-, hok⟩ | ⟨-, hhalf⟩
      · exact absurd hok hnot
      · rw [htext] at hhalf
        cases hhalf
    · next hne => rw [if_neg (hapart hfree hne), hfile]
  · have hne : place ≠ p.target base ∨ ¬place <+: (p.target base).dropLast := by
      by_cases he : place = p.target base
      · right
        intro hq
        have hlength := hq.length_le
        rw [he, List.length_dropLast] at hlength
        have hroot : place = [] := by
          rw [he]
          exact List.eq_nil_of_length_eq_zero (by omega)
        rw [hroot] at hfile
        cases hfile
      · exact .inl he
    rw [hchanged.get?_of_not_prefix ?_, hfile]
    exact hne.elim (fun hne hq => hapart hfree hne (hq.trans (List.dropLast_prefix _))) id

/-- A file stays what it is as long as no text is written to its place, or can not be. -/
theorem Ready.keeps_writes (h : t.Ready base) {later : List Call}
    (hcalls : ∀ call ∈ later, Fits base call.path) {kept : String}
    (hfile : t.get? place = some (.file kept))
    (hfails : ∀ early other late, later = early ++ other :: late → other.path.target base = place →
      Text.hasHalf other.text = false ∧
        outcome (other.run base) (FileTree.writes base early t) ≠ .ok ()) :
    (FileTree.writes base later t).get? place = some (.file kept) := by
  induction later generalizing t with
  | nil => exact hfile
  | cons call rest ih =>
    obtain ⟨hcall, hrest⟩ := List.forall_mem_cons.1 hcalls
    refine ih (h.writeWithin hcall call.text) hrest
      (h.keeps hcall hfile fun he => hfails [] call rest rfl he) ?_
    intro early other late hlater
    exact hfails (call :: early) other late (congrArg (call :: ·) hlater)

/-- Whatever is in a tree, and however deep directories can be made, the writing of a text to a path of
which nothing is too long comes to one of these ends: the text is at its place, the directories around it
are there, and all else is as before; or there is a fault. A directory at the place, a file in the way and
more missing directories than can be made are such faults, and then nothing has changed. So is a text that
can not be written, and then its place is empty and the directories around it are there; and a path that
can not be named, for which at most the directories around it are made. No file is left beside the place.
After any sequence of writings, a place holds the text that was last written to it, unless a text that can
not be written came after. -/
theorem write_exact (h : t.Ready base) :
    (∀ depth p text, Fits base p → t.WritesExactly depth base p text) ∧
    ∀ before (call : Call) later, (∀ c ∈ before ++ call :: later, Fits base c.path) →
      outcome (call.run base) (writes base before t) = .ok () →
      (∀ early other late, later = early ++ other :: late →
        other.path.target base = call.path.target base → Text.hasHalf other.text = false ∧
          outcome (other.run base) (writes base (before ++ call :: early) t) ≠ .ok ()) →
      (writes base (before ++ call :: later) t).get? (call.path.target base) = some (.file call.text) := by
  refine ⟨fun depth p text hp => writesExactly depth h.formed h.base hp text, ?_⟩
  intro before call later hcalls hok hfails
  obtain ⟨hbefore, hcall, hlater⟩ : (∀ c ∈ before, Fits base c.path) ∧ Fits base call.path ∧
      ∀ c ∈ later, Fits base c.path :=
    ⟨fun c hc => hcalls c (List.mem_append_left _ hc),
      hcalls call (List.mem_append_right _ List.mem_cons_self),
      fun c hc => hcalls c (List.mem_append_right _ (List.mem_cons_of_mem _ hc))⟩
  have hready := h.writes hbefore
  rw [writes_append]
  refine (hready.writeWithin hcall call.text).keeps_writes hlater
    (hready.get?_of_writeWithin hcall hok) ?_
  intro early other late hsplit htarget
  have := hfails early other late hsplit htarget
  rwa [writes_append] at this

/-- A working directory with a file in it. -/
def oneFile : FileTree := { entries := [(["w"], .directory), (["w", "f"], .file "old")] }

theorem ready_oneFile : oneFile.Ready ["w"] := ⟨formed_of_entries (by decide), by decide⟩

/-- A file is written in a directory that is made for it, when no more than two can be, and another one
twice. -/
theorem write_exact_oneFile :
    oneFile.Ready ["w"] ∧
      (∃ t', writeWithin 1 ["w"] ⟨"", ["d", "e", "g"]⟩ "new" oneFile = .ok () t' ∧
        oneFile.ChangedAt ["w", "d", "e", "g"] (some (.file "new")) t') ∧
      (writes ["w"] [⟨9, ⟨"", ["f"]⟩, "one"⟩, ⟨5, ⟨"", ["d", "g"]⟩, "two"⟩, ⟨9, ⟨"", ["f"]⟩, "three"⟩,
        ⟨9, ⟨"", ["d"]⟩, "four"⟩] oneFile).get? ["w", "f"] = some (.file "three") := by
  have hfits : ∀ parts ∈ [["d", "e", "g"], ["f"], ["d", "g"], ["d"]], Fits ["w"] ⟨"", parts⟩ := by
    simp only [List.forall_mem_cons]
    refine ⟨?_, ?_, ?_, ?_, nofun⟩ <;>
      exact ⟨⟨by decide, by decide +kernel, by decide +kernel⟩, by decide +kernel⟩
  have hdeep : Path.target ["w"] ⟨"", ["d", "e", "g"]⟩ = ["w", "d", "e", "g"] := by decide +kernel
  have hflat : Path.target ["w"] ⟨"", ["f"]⟩ = ["w", "f"] := by decide +kernel
  obtain ⟨hone, hmany⟩ := write_exact ready_oneFile
  refine ⟨ready_oneFile, ?_, ?_⟩
  · rw [← hdeep]
    exact (hone 1 ⟨"", ["d", "e", "g"]⟩ "new" (hfits _ (by simp))).written (by decide +kernel)
      (by decide +kernel) (by decide +kernel) (by decide +kernel) (by decide +kernel)
  · rw [← hflat]
    refine hmany [⟨9, ⟨"", ["f"]⟩, "one"⟩, ⟨5, ⟨"", ["d", "g"]⟩, "two"⟩] ⟨9, ⟨"", ["f"]⟩, "three"⟩
      [⟨9, ⟨"", ["d"]⟩, "four"⟩] ?_ (outcome_of_ok (eq_ok_of_toOption_outcome (by decide +kernel))) ?_
    · simp only [List.cons_append, List.nil_append, List.forall_mem_cons]
      exact ⟨hfits _ (by simp), hfits _ (by simp), hfits _ (by simp), hfits _ (by simp), nofun⟩
    · intro early other late hsplit htarget
      rcases List.cons_eq_append_iff.1 hsplit with ⟨rfl, hlast⟩ | ⟨rest, rfl, hrest⟩
      · cases hlast
        exact absurd htarget (by decide +kernel)
      · simp at hrest

/-! ## What is not written -/

/-- Characters of one byte are counted as they are. -/
theorem byteCount_of_plain {s : String} (h : ∀ c ∈ s.toList, c.toNat < 0x80) :
    Path.byteCount s = s.toList.length := by
  have hmark : Text.mark ∉ s.toList := fun hmem => absurd (h _ hmem) (by decide)
  have hstand : ∀ c ∈ s.toList, Text.isStandIn c = false := by
    intro c hc
    have := h c hc
    rw [Text.isStandIn, Text.standInOffset, Nat.sub_eq_zero_of_le (by omega)]
    rfl
  have hbytes : ∀ n < 0x80, Utf8.bytesOf n = [n] := by decide
  rw [Path.byteCount, Text.codePoints, Text.codePointsOf_eq_map hmark hstand, Utf8.encode]
  generalize s.toList = cs at h
  induction cs with
  | nil => rfl
  | cons c rest ih =>
    obtain ⟨hc, hrest⟩ := List.forall_mem_cons.1 h
    rw [List.map_cons, List.flatMap_cons, hbytes _ hc, List.length_append, ih hrest]
    simp [Nat.add_comm]

/-- A path down a chain of directories, each in the one before. -/
def chain (n : Nat) : Path := { parts := List.replicate n "a" }

theorem toList_text_chain (n : Nat) : (chain (n + 1)).text.toList.length = 2 * n + 1 ∧
    ∀ c ∈ (chain (n + 1)).text.toList, c = 'a' ∨ c = '/' := by
  have htext : ∀ n, (chain (n + 1)).text = "/".intercalate (List.replicate (n + 1) "a") := fun n => by
    simp [chain, Path.text, List.replicate_succ]
  rw [htext]
  induction n with
  | zero => simp
  | succ n ih =>
    obtain ⟨hlength, hchars⟩ := ih
    rw [List.replicate_succ] at hlength hchars
    rw [List.replicate_succ, List.replicate_succ, String.intercalate_cons_cons]
    simp only [String.toList_append, List.length_append, List.mem_append]
    refine ⟨by rw [hlength]; simp; omega, ?_⟩
    rintro c ((hc | hc) | hc)
    · exact .inl (by simpa using hc)
    · exact .inr (by simpa using hc)
    · exact hchars c hc

theorem byteCount_text_chain (n : Nat) : Path.byteCount (chain n).text ≤ 2 * n + 1 := by
  cases n with
  | zero => decide +kernel
  | succ n =>
    obtain ⟨hlength, hchars⟩ := toList_text_chain n
    rw [byteCount_of_plain fun c hc => ?_, hlength]
    · omega
    · rcases hchars c hc with rfl | rfl <;> decide

theorem target_chain (n : Nat) : Path.target [] (chain n) = List.replicate n "a" := by
  have hname : Utf8.normal "a" = "a" := by decide +kernel
  rw [Path.target, Path.place, chain, List.map_replicate, hname]
  rfl

theorem fits_chain {n : Nat} (hn : 2 * n + 16 < pathLimit) : Fits [] (chain (n + 1)) := by
  refine ⟨⟨fun hmem => ?_, fun name hmem => ?_, fun k hk => ?_⟩, ?_⟩
  · exact absurd (List.eq_of_mem_replicate hmem) (by decide)
  · rw [List.eq_of_mem_replicate hmem]
    decide +kernel
  · have hk : k ≤ n + 1 := by simpa [chain] using hk
    have hupTo : (chain (n + 1)).upTo k = chain k := by
      rw [Path.upTo, chain, chain, List.take_replicate, Nat.min_eq_left hk]
    rw [hupTo]
    exact Nat.lt_of_le_of_lt (byteCount_text_chain k) (by omega)
  · have htext : Place.text (List.replicate (n + 1) "a") = "/" ++ (chain (n + 1)).text := by
      simp [Place.text, chain, Path.text, List.replicate_succ]
    obtain ⟨hlength, hchars⟩ := toList_text_chain n
    have hcount : Path.byteCount (Place.text (List.replicate (n + 1) "a")) = 2 * n + 2 := by
      rw [htext, byteCount_of_plain fun c hc => ?_, String.toList_append, List.length_append, hlength]
      · rw [show "/".toList.length = 1 from rfl]
        omega
      · rcases List.mem_append.1 (String.toList_append ▸ hc) with hc | hc
        · rw [show c = '/' by simpa using hc]
          decide
        · rcases hchars c hc with rfl | rfl <;> decide
    have hlast : (List.replicate (n + 1) "a").getLastD "" = "a" := by
      rw [List.replicate_succ', List.getLastD_concat]
    have hname : Path.byteCount "a" = 1 := by decide +kernel
    rw [target_chain, hasRoom, hcount, hlast, hname, Bool.and_eq_true]
    refine ⟨by decide, decide_eq_true ?_⟩
    rw [temporaryExtra]
    omega

theorem get?_empty {place : Place} (h : place ≠ []) : ({} : FileTree).get? place = none := by
  rw [get?, if_neg h]
  rfl

theorem not_blocked_empty (place : Place) : ¬({} : FileTree).Blocked place := by
  rintro ⟨q, -, -, text, hfile⟩
  by_cases hroot : q = []
  · rw [hroot] at hfile
    cases hfile
  · rw [get?_empty hroot] at hfile
    cases hfile

theorem missing_chain (n : Nat) : ({} : FileTree).missing (List.replicate n "a") = n := by
  induction n with
  | zero => decide
  | succ n ih => rw [List.replicate_succ', missing_concat (get?_empty (by simp)), ih]

/-- A text with a half of a pair is not written although nothing is in the way, and what was at its place
is gone; neither is a text below more missing directories than can be made, nor one under a name that is
none, for which a directory is made. -/
theorem not_written :
    (∃ t : FileTree, ∃ text, t.Ready [] ∧ Fits [] ⟨"", ["f"]⟩ ∧ t.get? ["f"] = some (.file "old") ∧
      ¬t.Blocked ["f"] ∧ ∃ fault t', writeWithin 1000 [] ⟨"", ["f"]⟩ text t = .error fault t' ∧
        t'.get? ["f"] = none) ∧
    (({} : FileTree).Ready [] ∧ Fits [] (chain 1600) ∧
      ({} : FileTree).get? (Path.target [] (chain 1600)) = none ∧
      ¬({} : FileTree).Blocked (Path.target [] (chain 1600)) ∧
      ∃ fault, writeWithin 1000 [] (chain 1600) "new" {} = .error fault {}) ∧
    (Fits [] ⟨"", ["a", "b\x00"]⟩ ∧
      ({} : FileTree).get? (Path.target [] ⟨"", ["a", "b\x00"]⟩) = none ∧
      ¬({} : FileTree).Blocked (Path.target [] ⟨"", ["a", "b\x00"]⟩) ∧
      ∃ fault t', writeWithin 1000 [] ⟨"", ["a", "b\x00"]⟩ "new" {} = .error fault t' ∧
        t'.get? ["a"] = some .directory) := by
  have hempty : ({} : FileTree).Ready [] := ⟨formed_of_entries nofun, rfl⟩
  refine ⟨?_, ?_, ?_⟩
  · have hready : FileTree.Ready { entries := [(["f"], .file "old")] } [] :=
      ⟨formed_of_entries (by decide), rfl⟩
    have hfits : Fits [] ⟨"", ["f"]⟩ :=
      ⟨⟨by decide, by decide +kernel, by decide +kernel⟩, by decide +kernel⟩
    have htarget : Path.target [] ⟨"", ["f"]⟩ = ["f"] := by decide +kernel
    obtain ⟨t', hwrite, hchanged⟩ := (writesExactly 1000 hready.formed hready.base hfits
      (Text.ofCodePoints [0xd800])).unwritten (by decide +kernel) (by decide +kernel)
      (by decide +kernel) (by decide +kernel) (by decide +kernel)
    rw [htarget] at hchanged
    exact ⟨_, _, hready, hfits, by decide, by decide, _, t', hwrite, hchanged.get?_self⟩
  · have hfits : Fits [] (chain 1600) := fits_chain (by decide)
    have hnone : ({} : FileTree).get? (Path.target [] (chain 1600)) = none := by
      rw [target_chain]
      exact get?_empty (List.ne_nil_of_length_pos (by rw [List.length_replicate]; decide))
    refine ⟨hempty, hfits, hnone, not_blocked_empty _, _,
      (writesExactly 1000 hempty.formed hempty.base hfits "new").distant ?_⟩
    rw [target_chain, List.dropLast_replicate, missing_chain]
    decide
  · have hfits : Fits [] ⟨"", ["a", "b\x00"]⟩ :=
      ⟨⟨by decide, by decide +kernel, by decide +kernel⟩, by decide +kernel⟩
    obtain ⟨t', hwrite, -⟩ := (writesExactly 1000 hempty.formed hempty.base hfits "new").unnameable
      (by decide +kernel)
    have hmade : (after (writeWithin 1000 [] ⟨"", ["a", "b\x00"]⟩ "new") {}).get? ["a"] = some .directory := by
      decide +kernel
    rw [after_of_error hwrite] at hmade
    exact ⟨hfits, by decide +kernel, not_blocked_empty _, _, t', hwrite, hmade⟩

end ApiGraph.FileTree
