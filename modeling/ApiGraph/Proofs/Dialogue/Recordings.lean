import ApiGraph.Proofs.Delivering.Trees
import ApiGraph.Proofs.Dialogue.Replay

/-!
# What recordings are read as

Each line of a recording that is not blank has to tell an answer, and the first one that tells none
is the fault of the recording. So a recording is read as what was written, from its text or from its
file.

* `Recording.Tells`, `Recording.Senseless` — lines that tell an answer, and lines that should but do
  not;
* `Recording.ofLines_eq_ok_iff` — what the lines of a recording are read as;
* `Recording.ofLines_eq_error_iff` — which fault they have;
* `Recording.faithful_codec` — both ways between answers and recordings.
-/

namespace ApiGraph

namespace Recording

variable {line : String} {lines : List String} {a b : Answer} {answers : List Answer} {fault : Fault}
  {number : Nat}

/-! ## Lines -/

/-- A line starts, after its blanks, with the letter of an answer, small or capital. -/
def Tells (line : String) (a : Answer) : Prop :=
  ∃ c rest, (Text.strip line).toList = c :: rest ∧ small c = a.letter

/-- A line that is not blank starts with the letter of no answer. -/
def Senseless (line : String) : Prop := Text.strip line ≠ "" ∧ ∀ a, ¬Tells line a

theorem ofLetter?_eq_some_iff {c : Char} : Answer.ofLetter? c = some a ↔ c = a.letter := by
  constructor
  · intro h
    rw [Answer.ofLetter?] at h
    split_ifs at h <;> cases h <;> assumption
  · rintro rfl
    cases a <;> rfl

theorem strip_ne_of_tells (h : Tells line a) : Text.strip line ≠ "" := by
  obtain ⟨c, rest, hchars, -⟩ := h
  intro hblank
  rw [hblank] at hchars
  cases hchars

/-- A line tells one answer only. -/
theorem Tells.unique (ha : Tells line a) (hb : Tells line b) : a = b := by
  obtain ⟨c, rest, hchars, hletter⟩ := ha
  obtain ⟨d, rest', hchars', hletter'⟩ := hb
  obtain ⟨rfl, -⟩ := List.cons.inj (hchars.symm.trans hchars')
  exact Option.some.inj ((ofLetter?_eq_some_iff.2 hletter).symm.trans (ofLetter?_eq_some_iff.2 hletter'))

/-- A line is blank, tells an answer, or is senseless, and is read accordingly. -/
theorem ofLine_cases (line : String) :
    (Text.strip line = "" ∧ Entry.ofLine line = .blank) ∨
      (∃ a, Tells line a ∧ Entry.ofLine line = .answer a) ∨
      (Senseless line ∧ Entry.ofLine line = .invalid (Text.strip line)) := by
  simp only [Entry.ofLine]
  split
  · next hchars => exact .inl ⟨String.toList_eq_nil_iff.1 hchars, rfl⟩
  · next c rest hchars =>
    have hspoken : Text.strip line ≠ "" := by
      intro hblank
      rw [hblank] at hchars
      cases hchars
    split
    · next a hletter => exact .inr (.inl ⟨a, ⟨c, rest, hchars, ofLetter?_eq_some_iff.1 hletter⟩, rfl⟩)
    · next hletter =>
      refine .inr (.inr ⟨⟨hspoken, fun a htells => ?_⟩, rfl⟩)
      obtain ⟨d, rest', hchars', hd⟩ := htells
      obtain ⟨rfl, -⟩ := List.cons.inj (hchars.symm.trans hchars')
      rw [ofLetter?_eq_some_iff.2 hd] at hletter
      cases hletter

/-! ## Recordings -/

/-- The lines that are not blank. -/
def spoken (lines : List String) : List String := lines.filter fun line => Text.strip line ≠ ""

theorem spoken_cons_of_blank (h : Text.strip line = "") : spoken (line :: lines) = spoken lines := by
  simp [spoken, h]

theorem spoken_cons_of_ne (h : Text.strip line ≠ "") :
    spoken (line :: lines) = line :: spoken lines := by
  simp [spoken, h]

theorem ofLinesFrom_eq_ok_iff :
    ofLinesFrom number lines = .ok answers ↔ List.Forall₂ Tells (spoken lines) answers := by
  induction lines generalizing number answers with
  | nil =>
    rw [show spoken [] = [] from rfl, List.forall₂_nil_left_iff]
    exact ⟨fun h => (Except.ok.inj h).symm, fun h => h ▸ rfl⟩
  | cons line lines ih =>
    rcases ofLine_cases line with ⟨hblank, hread⟩ | ⟨a, htells, hread⟩ | ⟨hsenseless, hread⟩
    · rw [ofLinesFrom, hread, spoken_cons_of_blank hblank]
      exact ih
    · rw [ofLinesFrom, hread, spoken_cons_of_ne (strip_ne_of_tells htells), List.forall₂_cons_left_iff]
      constructor
      · intro h
        cases hrest : ofLinesFrom (number + 1) lines with
        | ok rest =>
          rw [hrest] at h
          exact ⟨a, rest, htells, ih.1 hrest, (Except.ok.inj h).symm⟩
        | error fault =>
          rw [hrest] at h
          cases h
      · rintro ⟨b, rest, hb, hrest, rfl⟩
        rw [htells.unique hb]
        exact congrArg (Except.map (b :: ·)) (ih.2 hrest)
    · rw [ofLinesFrom, hread, spoken_cons_of_ne hsenseless.1, List.forall₂_cons_left_iff]
      constructor
      · intro h
        cases h
      · rintro ⟨b, rest, hb, -⟩
        exact absurd hb (hsenseless.2 b)

/-- The fault names the first senseless line, with its number among all lines. -/
theorem ofLinesFrom_eq_error_iff :
    ofLinesFrom number lines = .error fault ↔
      ∃ before line rest, lines = before ++ line :: rest ∧ (∀ l ∈ before, ¬Senseless l) ∧
        Senseless line ∧ fault = .badRecordingLine (number + before.length) (Text.strip line) := by
  induction lines generalizing number with
  | nil =>
    constructor
    · intro h
      cases h
    · rintro ⟨before, line, rest, h, -⟩
      simp at h
  | cons line lines ih =>
    -- a line that is not senseless only moves the number on
    have hmove : ¬Senseless line →
        ((∃ before l rest, lines = before ++ l :: rest ∧ (∀ l ∈ before, ¬Senseless l) ∧
            Senseless l ∧ fault = .badRecordingLine (number + 1 + before.length) (Text.strip l)) ↔
          ∃ before l rest, line :: lines = before ++ l :: rest ∧ (∀ l ∈ before, ¬Senseless l) ∧
            Senseless l ∧ fault = .badRecordingLine (number + before.length) (Text.strip l)) := by
      intro hline
      constructor
      · rintro ⟨before, l, rest, rfl, hbefore, hl, rfl⟩
        refine ⟨line :: before, l, rest, rfl, List.forall_mem_cons.2 ⟨hline, hbefore⟩, hl, ?_⟩
        rw [List.length_cons, Nat.add_assoc, Nat.add_comm 1]
      · rintro ⟨_ | ⟨first, before⟩, l, rest, hlines, hbefore, hl, rfl⟩
        · obtain ⟨rfl, -⟩ := List.cons.inj hlines
          exact absurd hl hline
        · obtain ⟨rfl, rfl⟩ := List.cons.inj hlines
          refine ⟨before, l, rest, rfl, (List.forall_mem_cons.1 hbefore).2, hl, ?_⟩
          rw [List.length_cons, Nat.add_assoc, Nat.add_comm 1]
    rcases ofLine_cases line with ⟨hblank, hread⟩ | ⟨a, htells, hread⟩ | ⟨hsenseless, hread⟩
    · rw [ofLinesFrom, hread, ← hmove fun h => h.1 hblank]
      exact ih
    · rw [ofLinesFrom, hread, ← hmove fun h => h.2 a htells, ← ih]
      cases ofLinesFrom (number + 1) lines with
      | ok rest =>
        constructor <;>
          · intro h
            cases h
      | error other =>
        exact ⟨fun h => congrArg _ (Except.error.inj h), fun h => congrArg _ (Except.error.inj h)⟩
    · rw [ofLinesFrom, hread]
      constructor
      · intro h
        exact ⟨[], line, lines, rfl, by simp, hsenseless, (Except.error.inj h).symm⟩
      · rintro ⟨_ | ⟨first, before⟩, l, rest, hlines, hbefore, hl, rfl⟩
        · obtain ⟨rfl, -⟩ := List.cons.inj hlines
          rfl
        · obtain ⟨rfl, -⟩ := List.cons.inj hlines
          exact absurd hsenseless ((List.forall_mem_cons.1 hbefore).1)

theorem ofLines_eq_ok_iff :
    ofLines lines = .ok answers ↔ List.Forall₂ Tells (spoken lines) answers := ofLinesFrom_eq_ok_iff

theorem ofLines_eq_error_iff :
    ofLines lines = .error fault ↔
      ∃ before line rest, lines = before ++ line :: rest ∧ (∀ l ∈ before, ¬Senseless l) ∧
        Senseless line ∧ fault = .badRecordingLine (before.length + 1) (Text.strip line) := by
  simp only [ofLines, ofLinesFrom_eq_error_iff, Nat.add_comm 1]

/-- A recording is read unless a line of it is senseless. -/
theorem exists_ofLines_eq_ok_iff :
    (∃ answers, ofLines lines = .ok answers) ↔
      ∀ line ∈ lines, Text.strip line ≠ "" → ∃ a, Tells line a := by
  constructor
  · rintro ⟨answers, h⟩ line hline hspoken
    have hmem : line ∈ spoken lines := List.mem_filter.2 ⟨hline, by simpa using hspoken⟩
    obtain ⟨a, -, htells⟩ := exists_of_forall₂_left (ofLines_eq_ok_iff.1 h) hmem
    exact ⟨a, htells⟩
  · intro h
    cases hread : ofLines lines with
    | ok answers => exact ⟨answers, rfl⟩
    | error fault =>
      obtain ⟨before, line, rest, rfl, -, hsenseless, -⟩ := ofLines_eq_error_iff.1 hread
      obtain ⟨a, htells⟩ := h line (by simp) hsenseless.1
      exact absurd htells (hsenseless.2 a)

/-! ## Files -/

theorem ofFile_toText (name : String) (h : answers ≠ []) : ofFile name (toText answers) = .ok answers := by
  rw [ofFile, ofLines_lines_toText]
  cases answers with
  | nil => exact absurd rfl h
  | cons a answers => rfl

theorem hasHalf_toText (answers : List Answer) : Text.hasHalf (toText answers) = false := by
  have hletters : ∀ a : Answer, ∀ c ∈ [a.letter, '\n'], c ≠ Text.mark ∧ Text.isStandIn c = false := by
    intro a c hc
    rcases List.mem_cons.1 hc with rfl | hc
    · cases a <;> decide +kernel
    · rw [List.mem_singleton.1 hc]
      decide +kernel
  have hplain : ∀ c ∈ answers.flatMap fun a => [a.letter, '\n'],
      c ≠ Text.mark ∧ Text.isStandIn c = false := by
    intro c hc
    obtain ⟨a, -, hc⟩ := List.mem_flatMap.1 hc
    exact hletters a c hc
  rw [Text.hasHalf, Text.codePoints, toText, String.toList_ofList,
    Text.codePointsOf_eq_map (fun hmark => (hplain _ hmark).1 rfl) fun c hc => (hplain c hc).2]
  rw [List.any_map, List.any_eq_false]
  exact fun c _ => by simp [Text.isHalf_toNat]

/-! ## Both ways -/

/-- Recordings and answers. What is written for answers is read as these answers, from the text and, if
there are any, from a file that it was written to, wherever that can be done; lines are read exactly if
each of them that is not blank tells an answer, and then as what they tell; otherwise the fault names
the first line that tells none, counted among all lines, without the blanks at its ends; and what lines
are read as can be written and read again. A name that ends like the name of a directory is the name of
no file. -/
theorem faithful_codec :
    (∀ answers, ofLines (Text.lines (toText answers)) = .ok answers) ∧
    (∀ answers, answers ≠ [] → ∀ (depth : Nat) (base : Place) (p : Path) (t : FileTree),
      (t.Writable depth p → ∃ t', FileTree.writeWithin depth base p (toText answers) t = .ok () t') ∧
      ∀ t', FileTree.writeWithin depth base p (toText answers) t = .ok () t' →
        (t'.textAt base p >>= ofFile p.name) = .ok answers ∧
        ∀ name, Path.ofText name = p → Path.asksDirectory name = false →
          (t'.textNamed base name >>= ofFile p.name) = .ok answers) ∧
    (∀ lines,
      ((∃ answers, ofLines lines = .ok answers) ↔
        ∀ line ∈ lines, Text.strip line ≠ "" → ∃ a, Tells line a) ∧
      (∀ answers, ofLines lines = .ok answers →
        List.Forall₂ Tells (lines.filter fun line => Text.strip line ≠ "") answers ∧
        ofLines (Text.lines (toText answers)) = ofLines lines) ∧
      ((∃ line ∈ lines, Senseless line) →
        ∃ before line rest, lines = before ++ line :: rest ∧ (∀ l ∈ before, ¬Senseless l) ∧
          Senseless line ∧ ∃ fault, ofLines lines = .error fault ∧
            fault.category = .recordingFormat ∧
            fault = .badRecordingLine (before.length + 1) (Text.strip line))) := by
  refine ⟨ofLines_lines_toText, fun answers hanswers depth base p t => ⟨fun hp => ?_, fun t' hwrite => ?_⟩,
    fun lines => ⟨exists_ofLines_eq_ok_iff, fun answers hread => ?_, ?_⟩⟩
  · obtain ⟨t', hwrite, -⟩ := hp.exists_writeWithin base (hasHalf_toText answers)
    exact ⟨t', hwrite⟩
  · have hload : (t'.textAt base p >>= ofFile p.name) = .ok answers := by
      rw [FileTree.textAt_of_writeWithin hwrite]
      exact ofFile_toText p.name hanswers
    refine ⟨hload, fun name hname hfile => ?_⟩
    rw [FileTree.textNamed, hfile, hname]
    exact hload
  · exact ⟨ofLines_eq_ok_iff.1 hread, (ofLines_lines_toText answers).trans hread.symm⟩
  · rintro ⟨bad, hbad, hspoken, hsenseless⟩
    cases hread : ofLines lines with
    | ok answers =>
      obtain ⟨a, htells⟩ := exists_ofLines_eq_ok_iff.1 ⟨answers, hread⟩ bad hbad hspoken
      exact absurd htells (hsenseless a)
    | error fault =>
      obtain ⟨before, line, rest, hlines, hbefore, hline, rfl⟩ := ofLines_eq_error_iff.1 hread
      exact ⟨before, line, rest, hlines, hbefore, hline, _, rfl, rfl, rfl⟩

/-- A recording in a file of its own, a recording with notes and blank lines, and one with a line that
tells no answer after a blank one. -/
theorem faithful_codec_session :
    (∃ t', FileTree.writeWithin 1 ["w"] (Path.ofText "session.txt") (toText [.no, .yes])
          ⟨[(["w"], .directory)]⟩ = .ok () t' ∧
      (t'.textNamed ["w"] "session.txt" >>= ofFile "session.txt") = .ok [.no, .yes]) ∧
    (∃ answers, ofLines [" Yes, all", "\t", "n", "S"] = .ok answers ∧ answers.length = 3) ∧
    ∃ fault, ofLines ["y", "", " ? "] = .error fault ∧ fault.category = .recordingFormat := by
  obtain ⟨-, hfile, hlines⟩ := faithful_codec
  have hwrite : FileTree.writeWithin 1 ["w"] (Path.ofText "session.txt") (toText [.no, .yes])
      ⟨[(["w"], .directory)]⟩ = .ok () _ := eq_ok_of_toOption_outcome (by decide +kernel)
  refine ⟨⟨_, hwrite, ?_⟩, ?_, ?_⟩
  · have hname : (Path.ofText "session.txt").name = "session.txt" := by decide +kernel
    have hload := ((hfile [.no, .yes] (by decide) _ _ _ _).2 _ hwrite).2 "session.txt" rfl (by decide +kernel)
    rwa [hname] at hload
  · obtain ⟨hread, htold, -⟩ := hlines [" Yes, all", "\t", "n", "S"]
    have htells : Tells " Yes, all" .yes ∧ Tells "n" .no ∧ Tells "S" .subset :=
      ⟨⟨'Y', "es, all".toList, by decide +kernel, by decide +kernel⟩,
        ⟨'n', [], by decide +kernel, by decide +kernel⟩,
        ⟨'S', [], by decide +kernel, by decide +kernel⟩⟩
    obtain ⟨answers, hanswers⟩ := hread.2 (by
      simp only [List.forall_mem_cons, List.not_mem_nil, false_imp_iff, implies_true, and_true]
      exact ⟨fun _ => ⟨_, htells.1⟩, fun h => absurd (by decide +kernel) h, fun _ => ⟨_, htells.2.1⟩,
        fun _ => ⟨_, htells.2.2⟩⟩)
    have hcount : ([" Yes, all", "\t", "n", "S"].filter fun line => Text.strip line ≠ "").length = 3 := by
      decide +kernel
    exact ⟨answers, hanswers, (htold answers hanswers).1.length_eq ▸ hcount⟩
  · have hsenseless : ∀ a, ¬Tells " ? " a := by
      rintro a ⟨c, rest, hchars, hletter⟩
      have hstripped : (Text.strip " ? ").toList = ['?'] := by decide +kernel
      obtain ⟨rfl, -⟩ := List.cons.inj (hstripped.symm.trans hchars)
      cases a <;> exact absurd hletter (by decide +kernel)
    obtain ⟨-, -, -, -, -, -, fault, hfault, hcategory, -⟩ :=
      (hlines ["y", "", " ? "]).2.2 ⟨" ? ", by simp, by decide +kernel, hsenseless⟩
    exact ⟨fault, hfault, hcategory⟩

end Recording

end ApiGraph
