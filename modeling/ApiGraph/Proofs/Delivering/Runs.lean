import ApiGraph.CommandLine.Run
import ApiGraph.Proofs.Delivering.Hosts
import ApiGraph.Proofs.Dialogue.Generation

/-!
# What a run of the command line changes

All that can fail in a conversion comes before anything is written. So a run whose conversion fails
changes nothing, and one whose conversion gives a text writes it, and the recording if there is one.

* `Host.printed`, `CommandLine.printed_convert` — what goes to the standard output while questions are put;
* `CommandLine.conserves_run` — what is on the standard output and in the files after a run.
-/

namespace ApiGraph.CommandLine

open Attempt

/-! ## Steps that leave something as it is -/

section

variable {α γ : Type} {f : Stage → γ}

theorem leaves_lift (a : Attempt α) : Leaves f (Step.lift a) := by
  cases a <;> exact fun _ => rfl

theorem leaves_readText (p : Path) : Leaves f (Step.readText p) := leaves_get_bind fun _ => leaves_lift _

theorem leaves_readJson (p : Path) : Leaves f (Step.readJson p) :=
  (leaves_readText p).bind fun _ => leaves_lift _

theorem leaves_loadConfig (o : Options) : Leaves f (loadConfig o) := by
  rw [loadConfig]
  split
  · exact leaves_pure _
  · exact (leaves_readJson _).bind fun _ => (leaves_lift _).bind fun _ => leaves_lift _

theorem leaves_loadRecording (o : Options) : Leaves f (loadRecording o) := by
  rw [loadRecording]
  split
  · exact leaves_pure _
  · exact (leaves_readText _).bind fun _ => (leaves_lift _).bind fun _ => leaves_pure _

theorem leaves_chooseOracle (host : Host) (o : Options) (typed : List String) :
    Leaves f (chooseOracle host o typed) :=
  (leaves_loadRecording o).bind fun _ => leaves_lift _

theorem leaves_loadDocument (host : Host) (o : Options)
    (hlog : ∀ text, Leaves f (Step.run (Run.log .info .document text))) : Leaves f (loadDocument host o) := by
  have hrest : ∀ raw : Json, Leaves f (do
      Step.run (Run.log .info .document ("Loaded " ++ o.source.name))
      return Document.ofJson raw : Step Document) := fun _ => (hlog _).bind fun _ => leaves_pure _
  rw [loadDocument]
  split
  · exact (leaves_readJson _).bind hrest
  · exact (leaves_readText _).bind fun _ => (leaves_lift _).bind hrest

end

/-- The files and what was delivered to the standard output. -/
def Stage.delivered (s : Stage) : FileTree × Place × String := (s.tree, s.base, s.out)

/-- The oracle and the questions that were put. -/
def Stage.dialogue (s : Stage) : Oracle × List Question :=
  (s.context.oracle, s.context.transcript.questions)

section

variable {α : Type} {host : Host} {o : Options} {typed : List String} {s : Stage}

theorem delivered_run (step : Run α) : Leaves Stage.delivered (Step.run step) := by
  refine leaves_iff.2 fun s => ?_
  rw [after, Step.run]
  cases step s.context <;> rfl

theorem delivered_convert (host : Host) (o : Options) (typed : List String) :
    Leaves Stage.delivered (convert host o typed) :=
  (leaves_loadConfig o).bind fun _ => (leaves_chooseOracle host o typed).bind fun _ =>
    Leaves.bind (fun _ => rfl) fun _ =>
      (leaves_loadDocument host o fun _ => delivered_run _).bind fun _ => delivered_run _

theorem context_run (step : Run α) (s : Stage) :
    (after (Step.run step) s).context = after step s.context := by
  rw [after, Step.run, after]
  cases step s.context <;> rfl

theorem dialogue_run {step : Run α} (h : Silent step) : Leaves Stage.dialogue (Step.run step) := by
  refine leaves_iff.2 fun s => ?_
  rw [Stage.dialogue, context_run]
  exact Prod.ext (h.oracle_eq s.context) (h.questions_eq s.context)

end

/-! ## What goes to the standard output while questions are put -/

/-- What goes to the standard output while a run puts questions. It puts none to an operator if it has a
recording or agrees to everything. -/
def Host.printed (host : Host) (o : Options) (typed : List String) (questions : List Question) : String :=
  if o.recording.isSome || o.inputType = "skip" then ""
  else ({ typed := typed, prompt := host.prompt } : Console).printedFor questions

section

variable {α : Type} {host : Host} {o : Options} {typed : List String} {s : Stage}

@[simp] theorem printed_nil (host : Host) (o : Options) (typed : List String) : host.printed o typed [] = "" := by
  rw [Host.printed]
  split <;> rfl

/-- An oracle that puts nothing on the standard output yet, and later what the questions of a run put
there. -/
structure Poses (host : Host) (o : Options) (typed : List String) (oracle : Oracle) : Prop where
  silent : oracle.printed = ""
  later : ∀ questions, oracle.printedFor questions = host.printed o typed questions

theorem poses_ofOptions {answers : Option (List Answer)} {oracle : Oracle}
    (hanswers : answers.isSome = o.recording.isSome)
    (h : Oracle.ofOptions (.str o.inputType) answers typed host.prompt = .ok oracle) :
    Poses host o typed oracle := by
  have hquiet : o.recording.isSome = true ∨ o.inputType = "skip" → ∀ questions,
      host.printed o typed questions = "" := fun hor _ => by simp [Host.printed, hor]
  cases answers with
  | some answers =>
    cases answers with
    | nil => cases h
    | cons a answers =>
      cases h
      exact ⟨rfl, fun questions => (hquiet (.inl hanswers.symm) questions).symm⟩
  | none =>
    have hnone : o.recording.isSome = false := hanswers.symm
    have hasked : o.inputType ≠ "skip" → ∀ questions, host.printed o typed questions =
        ({ typed := typed, prompt := host.prompt } : Console).printedFor questions := fun hskip _ => by
      simp [Host.printed, hnone, hskip]
    simp only [Oracle.ofOptions, Json.isText, beq_iff_eq] at h
    split at h
    · next hprompt =>
      cases h
      exact ⟨rfl, fun questions => (hasked (by simp [hprompt]) questions).symm⟩
    · split at h
      · next hrecord =>
        cases h
        exact ⟨rfl, fun questions => (hasked (by simp [hrecord]) questions).symm⟩
      · split at h
        · next hskip =>
          cases h
          exact ⟨rfl, fun questions => (hquiet (.inr hskip) questions).symm⟩
        · cases h

theorem isSome_of_loadRecording {answers : Option (List Answer)}
    (h : outcome (loadRecording o) s = .ok answers) : answers.isSome = o.recording.isSome := by
  rw [loadRecording] at h
  split at h
  · next hnone =>
    cases h
    rw [hnone]
    rfl
  · next p hsome =>
    obtain ⟨text, s₁, -, h⟩ := bind_eq_ok_iff.1 (eq_ok_of_outcome h)
    obtain ⟨read, s₂, -, h⟩ := bind_eq_ok_iff.1 h
    cases h
    rw [hsome]
    rfl

theorem poses_chooseOracle {oracle : Oracle} (h : outcome (chooseOracle host o typed) s = .ok oracle) :
    Poses host o typed oracle := by
  obtain ⟨answers, s₁, hload, h⟩ := bind_eq_ok_iff.1 (eq_ok_of_outcome h)
  have hsome := isSome_of_loadRecording (outcome_of_ok hload)
  cases horacle : Oracle.ofOptions (.str o.inputType) answers typed host.prompt with
  | error fault =>
    rw [horacle] at h
    cases h
  | ok chosen =>
    rw [horacle] at h
    obtain rfl := (EStateM.Result.ok.inj h).1
    exact poses_ofOptions hsome horacle

/-- The standard output has what the questions of a run put there. -/
def Stage.Printed (host : Host) (o : Options) (typed : List String) (s : Stage) : Prop :=
  s.context.oracle.printed = host.printed o typed s.context.transcript.questions

theorem printed_of_leaves {m : Step α} (hm : Leaves Stage.dialogue m) (hs : s.Printed host o typed) :
    (after m s).Printed host o typed := by
  obtain ⟨horacle, hquestions⟩ := Prod.mk.inj (leaves_iff.1 hm s)
  rwa [Stage.Printed, horacle, hquestions]

/-- A dialogue with an oracle that poses the questions of a run. -/
theorem printed_run {step : Run α} {oracle : Oracle} (h : IsDialogue step) (horacle : Poses host o typed oracle)
    (hs : s.dialogue = (oracle, [])) : (after (Step.run step) s).Printed host o typed := by
  obtain ⟨rfl, hnone⟩ := Prod.mk.inj hs
  obtain ⟨-, t, -, -, hplay⟩ := h
  have henacts := hplay s.context
  have hafter : (after step s.context).oracle = ((t s.context).play s.context.oracle).oracle :=
    henacts.oracle_eq
  have hquestions : (after step s.context).transcript.questions =
      s.context.transcript.questions ++ ((t s.context).play s.context.oracle).questions :=
    henacts.questions_eq
  rw [Stage.Printed, context_run, hafter, hquestions, hnone, List.nil_append, Dialogue.printed_play,
    horacle.silent, horacle.later, String.empty_append]

/-- The document is loaded and converted. -/
theorem printed_loaded {oracle : Oracle} (config : Config) (horacle : Poses host o typed oracle)
    (hs : s.dialogue = (oracle, [])) : (after (loadDocument host o >>= fun document =>
      Step.run (Conversion.run o.mode document config)) s).Printed host o typed := by
  have hleaves : Leaves Stage.dialogue (loadDocument host o) :=
    leaves_loadDocument host o fun _ => dialogue_run (Run.silent_log _ _ _)
  cases hload : outcome (loadDocument host o) s with
  | error fault =>
    rw [after_bind_of_error hload]
    refine printed_of_leaves hleaves ?_
    obtain ⟨rfl, hnone⟩ := Prod.mk.inj hs
    rw [Stage.Printed, horacle.silent, hnone, printed_nil]
  | ok document =>
    rw [after_bind_of_ok hload]
    exact printed_run (Conversion.isDialogue_run o.mode document config) horacle ((leaves_iff.1 hleaves s).trans hs)

/-- Whether a conversion fails or not, the standard output has what its questions put there. -/
theorem printed_convert (host : Host) (o : Options) (typed : List String) (tree : FileTree) (base : Place) :
    (after (convert host o typed) { tree := tree, base := base }).Printed host o typed := by
  have hstart : Stage.Printed host o typed { tree := tree, base := base } :=
    (printed_nil host o typed).symm
  have hnone : Stage.dialogue { tree := tree, base := base } = (.always, []) := rfl
  rw [convert]
  cases hconfig : outcome (loadConfig o) { tree := tree, base := base } with
  | error fault =>
    rw [after_bind_of_error hconfig]
    exact printed_of_leaves (leaves_loadConfig o) hstart
  | ok config =>
    rw [after_bind_of_ok hconfig]
    replace hstart := printed_of_leaves (leaves_loadConfig o) hstart
    replace hnone := (leaves_iff.1 (leaves_loadConfig o) _).trans hnone
    generalize after (loadConfig o) { tree := tree, base := base } = s at hstart hnone
    cases hchoose : outcome (chooseOracle host o typed) s with
    | error fault =>
      rw [after_bind_of_error hchoose]
      exact printed_of_leaves (leaves_chooseOracle host o typed) hstart
    | ok oracle =>
      rw [after_bind_of_ok hchoose, after_bind_of_ok rfl]
      have hkept : (after (chooseOracle host o typed) s).dialogue = (.always, []) :=
        (leaves_iff.1 (leaves_chooseOracle host o typed) s).trans hnone
      exact printed_loaded config (poses_chooseOracle hchoose)
        (congrArg (oracle, ·) (Prod.mk.inj hkept).2)

end

/-! ## Delivery -/

section

open FileTree

variable {α : Type} {host : Host} {o : Options} {p : Path} {s : Stage} {text : String} {depth : Nat}

/-- The places of the files that hold what a run was given to deliver besides its text. -/
def Options.recordingPlaces (o : Options) : List Place := o.saveRecording.toList.map Path.place

theorem after_writeFile (depth : Nat) (p : Path) (text : String) (s : Stage) :
    after (Step.writeFile depth p text) s =
      { s with tree := after (FileTree.writeWithin depth s.base p text) s.tree } := by
  rw [after, Step.writeFile, after]
  cases FileTree.writeWithin depth s.base p text s.tree <;> rfl

theorem outcome_writeFile (depth : Nat) (p : Path) (text : String) (s : Stage) :
    outcome (Step.writeFile depth p text) s =
      outcome (FileTree.writeWithin depth s.base p text) s.tree := by
  rw [outcome, Step.writeFile, outcome]
  cases FileTree.writeWithin depth s.base p text s.tree <;> rfl

/-- A step that changes only some files, and not what is on the standard output. -/
def Conserving (targets : List Place) (m : Step α) : Prop :=
  ∀ s, s.tree.Spares targets (after m s).tree ∧ (after m s).stdout = s.stdout

theorem conserving_get_bind {targets : List Place} {f : Stage → Step α}
    (hf : ∀ s, Conserving targets (f s)) : Conserving targets (get >>= f) :=
  fun s => hf s s

theorem conserving_writeFile (depth : Nat) (hp : p.Plain) (text : String) :
    Conserving [p.place] (Step.writeFile depth p text) := by
  intro s
  rw [after_writeFile]
  exact ⟨sparing_writeWithin depth hp (List.mem_singleton_self _) text s.tree, rfl⟩

/-- The recording goes to its file and not to the standard output. -/
theorem conserving_deliverRecording (host : Host) (ho : o.Rooted) :
    Conserving o.recordingPlaces (deliverRecording host o) := by
  refine conserving_get_bind fun s => ?_
  split
  · next console recorded _ =>
    split
    · next p hp =>
      rw [Options.recordingPlaces, hp]
      exact conserving_writeFile host.depth (ho.saveRecording p hp) _
    · cases host.echo (Recording.toText recorded) <;> exact fun s => ⟨.refl _ _, rfl⟩
  · exact fun s => ⟨.refl _ _, rfl⟩

/-- After the delivery of a text that is written to a file. -/
theorem deliver_file (host : Host) (ho : o.Rooted) (hp : o.outputFile = some p) (text : String) (s : Stage) :
    let s' := after (deliver host o text) s
    s.tree.Spares (p.place :: o.recordingPlaces) s'.tree ∧ s'.stdout = s.stdout ∧
      (s.tree.Writable host.depth p → Text.hasHalf text = false → p.place ∉ o.recordingPlaces →
        s'.tree.get? p.place = some (.file text)) := by
  intro s'
  have hdeliver : deliverText host o text = Step.writeFile host.depth p text := by rw [deliverText, hp]
  have hplain := ho.outputFile p hp
  obtain ⟨hspares, hout⟩ := conserving_writeFile host.depth hplain text s
  have hfirst := hspares.mono (List.cons_subset_cons _ (List.nil_subset o.recordingPlaces))
  cases hwrite : outcome (Step.writeFile host.depth p text) s with
  | error fault =>
    have hafter : s' = after (Step.writeFile host.depth p text) s := by
      show after (deliver host o text) s = _
      rw [deliver, hdeliver, after_bind_of_error hwrite]
    rw [hafter]
    refine ⟨hfirst, hout, fun hwritable htext _ => ?_⟩
    obtain ⟨t', hok, -⟩ := hwritable.exists_writeWithin s.base htext
    rw [outcome_writeFile, outcome_of_ok hok] at hwrite
    cases hwrite
  | ok u =>
    have hafter : s' = after (deliverRecording host o) (after (Step.writeFile host.depth p text) s) := by
      show after (deliver host o text) s = _
      rw [deliver, hdeliver, after_bind_of_ok hwrite]
    obtain ⟨hspares', hout'⟩ := conserving_deliverRecording host ho (after (Step.writeFile host.depth p text) s)
    rw [hafter]
    refine ⟨hfirst.trans (hspares'.mono (List.subset_cons_self _ _)), hout'.trans hout,
      fun hwritable htext hplace => hspares'.file hplace ?_⟩
    obtain ⟨t', hok, hfile⟩ := hwritable.exists_writeWithin s.base htext
    rw [after_writeFile, after, hok]
    exact hfile

/-- A text with a half of a pair is delivered to no file. -/
theorem exists_deliver_eq_error (host : Host) (hp : o.outputFile = some p) (htext : Text.hasHalf text = true)
    (s : Stage) : ∃ fault, outcome (deliver host o text) s = .error fault := by
  cases hout : outcome (deliver host o text) s with
  | error fault => exact ⟨fault, rfl⟩
  | ok u =>
    obtain ⟨u, s₁, hdeliver, -⟩ := bind_eq_ok_iff.1 (eq_ok_of_outcome hout)
    have hwrite := outcome_of_ok hdeliver
    rw [deliverText, hp] at hwrite
    replace hwrite := (outcome_writeFile host.depth p text s).symm.trans hwrite
    exact absurd (eq_ok_of_outcome hwrite) (writeWithin_ne_ok htext _ _)

/-- After the delivery of a text that is shown on the standard output. -/
theorem deliver_shown (ho : o.Rooted) (hnone : o.outputFile = none) {shown : String}
    (hecho : host.echo text = .ok shown) (s : Stage) :
    let s' := after (deliver host o text) s
    s.tree.Spares o.recordingPlaces s'.tree ∧ s'.stdout = s.stdout ++ shown := by
  intro s'
  have hrun : deliverText host o text s = .ok () { s with out := s.out ++ shown } := by
    rw [deliverText, hnone]
    show (Step.lift (host.echo text) >>= fun shown => modify fun s => { s with out := s.out ++ shown }) s = _
    rw [hecho]
    rfl
  have hafter : s' = after (deliverRecording host o) { s with out := s.out ++ shown } := by
    show after (deliver host o text) s = _
    rw [deliver, after, bind_of_ok hrun, ← after]
  rw [hafter]
  obtain ⟨hspares, hout⟩ := conserving_deliverRecording host ho { s with out := s.out ++ shown }
  exact ⟨hspares, hout.trans String.append_assoc.symm⟩

/-- A text that can not be shown is not delivered. -/
theorem deliver_eq_error (hnone : o.outputFile = none) {fault : Fault} (hecho : host.echo text = .error fault)
    (s : Stage) : deliver host o text s = .error fault s := by
  have hrun : deliverText host o text s = .error fault s := by
    rw [deliverText, hnone]
    show (Step.lift (host.echo text) >>= fun shown => modify fun s => { s with out := s.out ++ shown }) s = _
    rw [hecho]
    rfl
  rw [deliver, bind_of_error hrun]

/-- After the delivery of a text for which no file is named. -/
theorem deliver_stdout (ho : o.Rooted) (hnone : o.outputFile = none) (text : String) (s : Stage) :
    let s' := after (deliver host o text) s
    s.tree.Spares o.recordingPlaces s'.tree ∧
      (∀ shown, host.echo text = .ok shown → s'.stdout = s.stdout ++ shown) ∧
      ∀ fault, host.echo text = .error fault →
        outcome (deliver host o text) s = .error fault ∧ s'.stdout = s.stdout ∧ s'.tree = s.tree := by
  intro s'
  cases hecho : host.echo text with
  | ok shown =>
    obtain ⟨hspares, hstdout⟩ := deliver_shown ho hnone hecho s
    refine ⟨hspares, ?_, ?_⟩
    · rintro _ ⟨⟩
      exact hstdout
    · intro fault hfault
      cases hfault
  | error fault =>
    have hrun := deliver_eq_error hnone hecho s
    have hafter : s' = s := after_of_error hrun
    rw [hafter]
    refine ⟨.refl _ _, ?_, ?_⟩
    · intro shown hshown
      cases hshown
    · rintro _ ⟨⟩
      exact ⟨outcome_of_error hrun, rfl, rfl⟩

end

/-! ## Runs -/

section

open FileTree

variable {host : Host} {o : Options} {words : List String} {tree : FileTree} {base : Place}
  {typed : List String}

theorem runWith_eq (host : Host) (o : Options) (tree : FileTree) (base : Place) (typed : List String) :
    let s : Stage := { tree := tree, base := base }
    (runWith host o tree base typed).stdout = (after (steps host o typed) s).stdout ∧
      (runWith host o tree base typed).tree = (after (steps host o typed) s).tree ∧
      ∀ fault, outcome (steps host o typed) s = .error fault →
        (runWith host o tree base typed).exitCode = 1 := by
  intro s
  rw [runWith, after, outcome]
  cases steps host o typed s with
  | ok u s' =>
    refine ⟨rfl, rfl, ?_⟩
    intro fault hfault
    cases hfault
  | error fault s' => exact ⟨rfl, rfl, fun _ _ => rfl⟩

/-- Whatever the host of a run may be, what its questions put on the standard output comes first there, and
nothing if none is put to an operator. A run whose conversion fails ends with the exit code one, has written
nothing more to the standard output and changed no file. When the conversion gives a text and no file is
named for it, the text follows as the host shows it, which is as it is if nothing in it is special, and at
most the file of the recording is changed; if the host can not show it, the run ends with the exit code one
and has changed nothing. When a file is named, nothing follows on the standard output, no other files than
this and that of the recording are changed, and if it is another one than that and can be written, it holds
exactly the text; a text with a half of a pair can not be written to it, which ends the run with the exit
code one. -/
theorem conserves_run (hhost : host.Lawful) (hbase : ".." ∉ base)
    (hwords : host.options words tree base = .ok o) :
    let start : Stage := { tree := tree, base := base }
    let converted := outcome (convert host o typed) start
    let asked := host.printed o typed (after (convert host o typed) start).context.transcript.questions
    let result := run words tree base typed host
    (∀ fault, converted = .error fault →
      result.exitCode = 1 ∧ result.stdout = asked ∧ result.tree = tree) ∧
    ∀ text, converted = .ok text →
      (o.outputFile = none →
        tree.Spares o.recordingPlaces result.tree ∧
        (∀ shown, host.echo text = .ok shown → result.stdout = asked ++ shown) ∧
        (∀ fault, host.echo text = .error fault →
          result.exitCode = 1 ∧ result.stdout = asked ∧ result.tree = tree) ∧
        (Text.hasHalf text = false → '\x1b' ∉ text.toList → result.stdout = asked ++ text)) ∧
      ∀ p, o.outputFile = some p →
        tree.Spares (p.place :: o.recordingPlaces) result.tree ∧ result.stdout = asked ∧
        (Text.hasHalf text = true → result.exitCode = 1) ∧
        (tree.Writable host.depth p → Text.hasHalf text = false → p.place ∉ o.recordingPlaces →
          result.tree.get? p.place = some (.file text)) := by
  intro start converted asked result
  have hresult : result = runWith host o tree base typed := by
    show run words tree base typed host = _
    rw [run, hwords]
  have ho := hhost.rooted hbase hwords
  obtain ⟨htree, -, hout⟩ : (after (convert host o typed) start).tree = tree ∧
      (after (convert host o typed) start).base = base ∧ (after (convert host o typed) start).out = "" := by
    have hkept := leaves_iff.1 (delivered_convert host o typed) start
    exact ⟨congrArg Prod.fst hkept, congrArg (·.2.1) hkept, congrArg (·.2.2) hkept⟩
  have hasked : (after (convert host o typed) start).stdout = asked := by
    rw [Stage.stdout, hout, String.append_empty]
    exact printed_convert host o typed tree base
  obtain ⟨hstdout, hfiles, hexit⟩ := runWith_eq host o tree base typed
  rw [hresult, hstdout, hfiles]
  rw [steps] at hexit ⊢
  refine ⟨fun fault hfault => ?_, fun text htext => ?_⟩
  · rw [after_bind_of_error hfault]
    exact ⟨hexit fault (outcome_bind_of_error hfault), hasked, htree⟩
  · rw [after_bind_of_ok htext]
    rw [outcome_bind_of_ok htext] at hexit
    generalize after (convert host o typed) start = s at *
    subst htree
    refine ⟨fun hnone => ?_, fun p hp => ?_⟩
    · obtain ⟨hspares, hshows, hfails⟩ := deliver_stdout ho hnone text s
      rw [hasked] at hshows hfails
      refine ⟨hspares, hshows, fun fault hecho => ?_, fun hhalf hescape => ?_⟩
      · obtain ⟨hfault, hsame⟩ := hfails fault hecho
        exact ⟨hexit fault hfault, hsame⟩
      · exact hshows text (hhost.plain hhalf hescape)
    · obtain ⟨hspares, hshown, hwritten⟩ := deliver_file host ho hp text s
      refine ⟨hspares, hshown.trans hasked, fun hhalf => ?_, hwritten⟩
      obtain ⟨fault, hfault⟩ := exists_deliver_eq_error host hp hhalf s
      exact hexit fault hfault

/-- Files with the schema of a pet, and with a setting of what stands before each field. -/
def indentedPets (indent : String) : FileTree :=
  ⟨[(["d.json"], .file ("\x7b\"components\": \x7b\"schemas\": \x7b\"Pet\": \x7b\"type\": \"object\", " ++
      "\"properties\": \x7b\"name\": \x7b\"type\": \"string\"\x7d\x7d\x7d\x7d\x7d\x7d")),
    (["c.json"], .file ("\x7b\"add_generation_comment\": false, \"field_indent\": \"" ++ indent ++ "\"\x7d"))]⟩

/-- The type of a pet is written below a directory that is made for it. -/
theorem conserves_run_indentedPets :
    let words := ["-c", "c.json", "-o", "made/p", "d.json"]
    let tree := indentedPets "  "
    let text := "type Pet \x7b\n  name: String\n\x7d\n\n"
    ∃ o p, Host.usual.options words tree [] = .ok o ∧ o.outputFile = some p ∧
      outcome (convert .usual o []) { tree := tree } = .ok text ∧ tree.Writable Host.usual.depth p ∧
      (run words tree [] []).stdout = "" ∧
      (run words tree [] []).tree.get? ["made", "p"] = some (.file text) := by
  intro words tree text
  let p : Path := ⟨"/", ["made", "p"]⟩
  let o : Options :=
    { source := ⟨"/", ["d.json"]⟩, config := some ⟨"/", ["c.json"]⟩, outputFile := some p }
  have hwords : Host.usual.options words tree [] = .ok o := by decide +kernel
  have hconvert : outcome (convert .usual o []) { tree := tree } = .ok text :=
    eq_ok_of_toOption (by decide +kernel)
  have hnone : (after (convert .usual o []) { tree := tree }).context.transcript.questions = [] := by
    decide +kernel
  have hwritable : tree.Writable Host.usual.depth p :=
    { plain := ⟨rfl, by decide⟩
      fits := by decide +kernel
      names := by decide +kernel
      around := by decide +kernel
      free := by decide +kernel
      room := by decide +kernel
      near := ⟨0, by decide, by decide, by decide +kernel⟩ }
  obtain ⟨-, hsome⟩ := @conserves_run .usual o words tree [] [] Host.lawful_usual (by decide) hwords
  obtain ⟨-, hfile⟩ := hsome text hconvert
  obtain ⟨-, hstdout, -, hget⟩ := hfile p rfl
  rw [hnone, printed_nil] at hstdout
  have hplace : p.place = ["made", "p"] := by decide +kernel
  have hget := hget hwritable (by decide +kernel) List.not_mem_nil
  rw [hplace] at hget
  exact ⟨o, p, hwords, rfl, hconvert, hwritable, hstdout, hget⟩

/-- A file with the schema of a composition, about which a question is put. -/
def composedPet : FileTree :=
  ⟨[(["d.json"], .file ("\x7b\"components\": \x7b\"schemas\": \x7b\"Pet\": \x7b\"allOf\": [\x7b\"type\": " ++
      "\"object\", \"properties\": \x7b\"name\": \x7b\"type\": \"string\"\x7d\x7d\x7d]\x7d\x7d\x7d\x7d"))]⟩

/-- A host that leaves the blanks after questions to the standard output. -/
def Host.blank : Host := { Host.usual with prompt := Terminal.ask true }

/-- A text with a half of a pair is not written to its file, and a control sequence of the terminal is left
out on the standard output. What a host leaves to the standard output when it puts a question is there as
well, before the text or when the input ends. -/
theorem not_conserved :
    (let words := ["-c", "c.json", "-o", "p", "d.json"]
    let tree := indentedPets "\\ud800"
    ∃ o, Host.usual.options words tree [] = .ok o ∧ o.outputFile = some ⟨"/", ["p"]⟩ ∧
      tree.Writable Host.usual.depth ⟨"/", ["p"]⟩ ∧ ∃ text,
      outcome (convert .usual o []) { tree := tree } = .ok text ∧
      (run words tree [] []).tree.get? ["p"] ≠ some (.file text)) ∧
    (let words := ["-c", "c.json", "d.json"]
    let tree := indentedPets "\\u001b[2m"
    ∃ o, Host.usual.options words tree [] = .ok o ∧ o.outputFile = none ∧ ∃ text,
      outcome (convert .usual o []) { tree := tree } = .ok text ∧ (run words tree [] []).stdout ≠ text) ∧
    (let words := ["d.json"]
    ∃ o, Host.blank.options words composedPet [] = .ok o ∧ o.outputFile = none ∧
      (∃ text, outcome (convert .blank o ["y"]) { tree := composedPet } = .ok text ∧
        (run words composedPet [] ["y"] .blank).stdout = " " ++ text) ∧
      (run words composedPet [] [] .blank).exitCode = 1 ∧
      (run words composedPet [] [] .blank).stdout = " ") := by
  have hwritable : (indentedPets "\\ud800").Writable Host.usual.depth ⟨"/", ["p"]⟩ :=
    { plain := ⟨rfl, by decide⟩
      fits := by decide +kernel
      names := by decide +kernel
      around := by decide +kernel
      free := by decide +kernel
      room := by decide +kernel
      near := ⟨0, by decide, by decide, by decide +kernel⟩ }
  let o : Options := { source := ⟨"/", ["d.json"]⟩, config := some ⟨"/", ["c.json"]⟩ }
  refine ⟨⟨{ o with outputFile := some ⟨"/", ["p"]⟩ }, by decide +kernel, rfl, hwritable, ?_⟩,
    ⟨o, by decide +kernel, rfl, ?_⟩, { source := ⟨"/", ["d.json"]⟩ }, by decide +kernel, rfl, ?_,
    by decide +kernel, by decide +kernel⟩
  · exact ⟨"type Pet \x7b\n" ++ Text.ofCodePoints [0xd800] ++ "name: String\n\x7d\n\n",
      eq_ok_of_toOption (by decide +kernel), by decide +kernel⟩
  · exact ⟨"type Pet \x7b\n\x1b[2mname: String\n\x7d\n\n", eq_ok_of_toOption (by decide +kernel),
      by decide +kernel⟩
  · exact ⟨"# Generated by oas_to_graphql 0.1.0\n\ntype Pet \x7b\n  name: String\n\x7d\n\n",
      eq_ok_of_toOption (by decide +kernel), by decide +kernel⟩

end

end ApiGraph.CommandLine
