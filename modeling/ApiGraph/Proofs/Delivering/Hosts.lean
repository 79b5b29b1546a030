import ApiGraph.CommandLine.Words
import ApiGraph.Proofs.Delivering.Trees

/-!
# Hosts

What a run relies on of its host.

* `Options.Rooted` — the files that a run may write are given by paths from the root;
* `Host.Lawful` — a host whose options are such, and that shows a plain text as it is;
* `Host.lawful_usual` — the usual host is lawful.
-/

namespace ApiGraph.CommandLine

open FileTree

/-- The files that a run may write are given by paths from the root without steps back. -/
structure Options.Rooted (o : Options) : Prop where
  outputFile : ∀ p, o.outputFile = some p → p.Plain
  saveRecording : ∀ p, o.saveRecording = some p → p.Plain

/-- What a run relies on of its host. -/
structure Host.Lawful (host : Host) : Prop where
  /-- The paths of options are resolved in the working directory. -/
  rooted : ∀ {words tree base o}, ".." ∉ base → host.options words tree base = .ok o → o.Rooted
  /-- Text without the escape character and without halves of pairs is shown as it is. -/
  plain : ∀ {text}, Text.hasHalf text = false → '\x1b' ∉ text.toList → host.echo text = .ok text

/-! ## The usual host -/

namespace Options

variable {t : FileTree} {base : Place} {a : Arguments} {o o' : Options}

theorem plain_of_optionalPath {expected : Expected} {word : Option String} {found : Option Path}
    (hbase : ".." ∉ base) (h : optionalPath t base expected word = .ok found) (p : Path)
    (hp : found = some p) : p.Plain := by
  subst hp
  cases word with
  | none => cases h
  | some word =>
    rw [optionalPath, pathOf] at h
    split at h
    · cases h
    · split at h
      · cases h
        exact Path.plain_flatten hbase _
      · cases h

theorem rooted_takeChecked {name : OptionName} (hbase : ".." ∉ base) (ho : o.Rooted)
    (h : takeChecked t base a o name = .ok o') : o'.Rooted := by
  cases name with
  | outputFile =>
    obtain ⟨found, hfound, h⟩ := exists_of_bind_eq_ok h
    cases h
    exact ⟨plain_of_optionalPath hbase hfound, ho.saveRecording⟩
  | saveRecording =>
    obtain ⟨found, hfound, h⟩ := exists_of_bind_eq_ok h
    cases h
    exact ⟨ho.outputFile, plain_of_optionalPath hbase hfound⟩
  | recording | config =>
    obtain ⟨found, -, h⟩ := exists_of_bind_eq_ok h
    cases h
    exact ⟨ho.outputFile, ho.saveRecording⟩
  | inputType | mode =>
    rw [takeChecked] at h
    split at h
    · cases h
      exact ⟨ho.outputFile, ho.saveRecording⟩
    · cases h
  | verbose =>
    cases h
    exact ⟨ho.outputFile, ho.saveRecording⟩

theorem rooted_of_check (hbase : ".." ∉ base) (h : check t base a = .ok o) : o.Rooted := by
  have hfold : ∀ (given : List OptionName) (o : Options), o.Rooted → ∀ o',
      given.foldlM (takeChecked t base a) o = .ok o' → o'.Rooted := by
    intro given
    induction given with
    | nil =>
      intro o ho o' h
      cases h
      exact ho
    | cons name given ih =>
      intro o ho o' h
      rw [List.foldlM_cons] at h
      obtain ⟨o₁, hone, h⟩ := exists_of_bind_eq_ok h
      exact ih o₁ (rooted_takeChecked hbase ho hone) o' h
  obtain ⟨o₁, hgiven, h⟩ := exists_of_bind_eq_ok h
  have ho := hfold a.given {} ⟨nofun, nofun⟩ o₁ hgiven
  split at h
  · cases h
  · obtain ⟨source, -, h⟩ := exists_of_bind_eq_ok h
    split at h
    · cases h
      exact ⟨ho.outputFile, ho.saveRecording⟩
    · cases h

end Options

theorem shownOf_eq_self {text : String} (htext : Text.hasHalf text = false)
    (hplain : '\x1b' ∉ text.toList) : shownOf text = .ok text := by
  rw [shownOf, htext, Text.visible, Text.visibleChars_eq_self hplain, String.ofList_toList]
  rfl

/-- The usual host resolves paths and shows plain text as it is. -/
theorem Host.lawful_usual : Host.usual.Lawful where
  rooted {words tree base o} hbase h := by
    change optionsIn words tree base = .ok o at h
    rw [optionsIn] at h
    split at h
    · cases h
    · exact Options.rooted_of_check hbase h
  plain := shownOf_eq_self

end ApiGraph.CommandLine
