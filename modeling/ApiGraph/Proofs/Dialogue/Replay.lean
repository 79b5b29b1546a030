import ApiGraph.Proofs.Dialogue.Generation

/-!
# Replays of conversions

What an operator has answered during a conversion can be kept as a text and replayed later.

* `Recording.ofLines_lines_toText` — the text of a recording is read as the answers it was written
  for;
* `Conversion.exchange` — what a conversion ends with, the questions that it puts, and the oracle
  afterwards;
* `Conversion.exchange_replay` — a conversion with a replay goes the way it went when the answers
  were recorded.
-/

namespace ApiGraph

/-! ## Recordings as texts -/

namespace Recording

theorem lines_toText (answers : List Answer) :
    Text.lines (toText answers) = answers.map fun a => String.singleton a.letter := by
  rw [Text.lines, toText, String.toList_ofList]
  induction answers with
  | nil => rfl
  | cons a answers ih =>
    rw [List.map_cons, ← ih]
    cases a <;> rfl

theorem ofLine_letter (a : Answer) : Entry.ofLine (String.singleton a.letter) = .answer a := by
  cases a <;> decide +kernel

/-- The text of a recording is read as the answers that it was written for. -/
theorem ofLines_lines_toText (answers : List Answer) :
    ofLines (Text.lines (toText answers)) = .ok answers := by
  have hfrom : ∀ number, ofLinesFrom number (answers.map fun a => String.singleton a.letter) =
      .ok answers := by
    induction answers with
    | nil => exact fun _ => rfl
    | cons a answers ih =>
      intro number
      rw [List.map_cons, ofLinesFrom, ofLine_letter]
      show Except.map _ (ofLinesFrom (number + 1) _) = _
      rw [ih]
      rfl
  rw [lines_toText]
  exact hfrom 1

end Recording

/-! ## Conversions -/

namespace Conversion

/-- What a conversion ends with, the questions that it puts, and the oracle afterwards. -/
def exchange (mode : Mode) (d : Document) (config : Config) (o : Oracle) :
    Dialogue.Exchange String where
  result := outcome (run mode d config) (start o)
  oracle := (after (run mode d config) (start o)).oracle
  questions := (after (run mode d config) (start o)).transcript.questions

/-- A conversion is one dialogue, whoever answers. -/
theorem exists_dialogue (mode : Mode) (d : Document) (config : Config) :
    ∃ t : Dialogue (Attempt String × Context), t.All (fun r => r.1 ≠ .error .inputEnded) ∧
      ∀ o, exchange mode d config o =
        ⟨(t.play o).outcome, (t.play o).oracle, (t.play o).questions⟩ := by
  obtain ⟨-, t, ht, hended, hplay⟩ := isDialogue_run mode d config
  refine ⟨t (start .always), hended _, fun o => ?_⟩
  have hstart : t (start o) = t (start .always) := ht rfl
  have hrun := hplay (start o)
  rw [hstart] at hrun
  have hquestions : (after (run mode d config) (start o)).transcript.questions =
      ((t (start .always)).play o).questions := hrun.questions_eq
  simp only [exchange, hrun.outcome_eq, hquestions]
  exact congrArg (fun p => Dialogue.Exchange.mk _ p _) hrun.oracle_eq

/-- Let the answers of an operator be recorded during a conversion, however questions are put at the
terminal, and kept as a text, from which they are read back. If the input did not end before the
conversion, a replay of the answers, followed by any others, gives the same result after the same
questions and leaves the others. A replay of some of the answers ends with a fault at the first question
that is left without, and so does a replay of all of them at the question at which the input ended. -/
theorem exchange_replay (mode : Mode) (d : Document) (config : Config) (console : Console) :
    ∃ answers,
      Recording.ofLines (Text.lines (Recording.toText
        (exchange mode d config (.recorder console [])).oracle.recording)) = .ok answers ∧
      ((exchange mode d config (.recorder console [])).result ≠ .error .inputEnded →
        ∀ more,
          (exchange mode d config (.ofRecording (answers ++ more))).result =
            (exchange mode d config (.recorder console [])).result ∧
          (exchange mode d config (.ofRecording (answers ++ more))).questions =
            (exchange mode d config (.recorder console [])).questions ∧
          (exchange mode d config (.ofRecording (answers ++ more))).oracle.remaining =
            more.length) ∧
      (∀ given, given <+: (exchange mode d config (.recorder console [])).oracle.recording →
        given ≠ (exchange mode d config (.recorder console [])).oracle.recording →
        ∃ q, (exchange mode d config (.recorder console [])).questions[given.length]? = some q ∧
          (exchange mode d config (.ofRecording given)).result =
            .error (.recordingExhausted given.length (Text.strip q.text)) ∧
          (exchange mode d config (.ofRecording given)).questions =
            (exchange mode d config (.recorder console [])).questions.take (given.length + 1)) ∧
      ((exchange mode d config (.recorder console [])).result = .error .inputEnded →
        ∃ q, (exchange mode d config (.recorder console [])).questions.getLast? = some q ∧
          (exchange mode d config (.ofRecording answers)).result =
            .error (.recordingExhausted answers.length (Text.strip q.text)) ∧
          (exchange mode d config (.ofRecording answers)).questions =
            (exchange mode d config (.recorder console [])).questions) := by
  obtain ⟨t, hended, hplay⟩ := exists_dialogue mode d config
  obtain ⟨hrecording, hend⟩ := t.play_recorder console []
  have hcount : (t.recordedBy console).length ≤ (t.play (.recorder console [])).questions.length := by
    rcases hend with ⟨b, -, hlen⟩ | ⟨-, hlen⟩ <;> omega
  rw [List.nil_append] at hrecording
  simp only [hplay, hrecording]
  refine ⟨t.recordedBy console, Recording.ofLines_lines_toText _, fun hresult more => ?_,
    fun given hgiven hstrict => ?_, fun hresult => ?_⟩
  · -- the input has not ended, so the dialogue has come to its result
    rcases hend with ⟨b, hb, -⟩ | ⟨he, -⟩
    · have hreplay := Dialogue.play_replay hb 0 more
      rw [Oracle.ofRecording, hreplay]
      refine ⟨?_, rfl, rfl⟩
      simp only [Dialogue.Exchange.outcome, hb]
    · simp [Dialogue.Exchange.outcome, he] at hresult
  · have hshort : given.length < (t.recordedBy console).length := by
      refine Nat.lt_of_le_of_ne hgiven.length_le fun hlen => hstrict ?_
      exact hgiven.eq_of_length hlen
    obtain ⟨q, hq, hreplay⟩ :=
      Dialogue.play_replay_short hgiven (Nat.lt_of_lt_of_le hshort hcount) 0
    refine ⟨q, hq, ?_, ?_⟩
    · rw [Oracle.ofRecording, hreplay, Nat.zero_add]
      rfl
    · rw [Oracle.ofRecording, hreplay]
  · -- a result of the dialogue is never that the input has ended
    rcases hend with ⟨b, hb, -⟩ | ⟨he, hlen⟩
    · have hb' := hended.of_play hb
      simp only [Dialogue.Exchange.outcome, hb] at hresult
      exact absurd hresult hb'
    · have hshort : (t.recordedBy console).length <
          (t.play (.recorder console [])).questions.length := by omega
      obtain ⟨q, hq, hreplay⟩ := Dialogue.play_replay_short (List.prefix_refl _) hshort 0
      refine ⟨q, ?_, ?_, ?_⟩
      · rw [List.getLast?_eq_getElem?, hlen]
        exact hq
      · rw [Oracle.ofRecording, hreplay, Nat.zero_add]
        rfl
      · rw [Oracle.ofRecording, hreplay, ← hlen, List.take_length]

/-- A document with one named composition. -/
def oneComposition : Document :=
  ⟨.obj [("openapi", .str "3.0.0"), ("components", .obj [("schemas", .obj [("Pet", .obj [("allOf",
    .arr [.obj [("type", .str "object"), ("properties", .obj [("name", .obj [("type",
      .str "string")])])]])])])])]⟩

theorem exchange_replay_oneComposition :
    (exchange .definitions oneComposition {} (.recorder ["s", "y"] [])).result ≠
      .error .inputEnded ∧
    (∀ more,
      (exchange .definitions oneComposition {} (.ofRecording (.subset :: .yes :: more))).result =
        (exchange .definitions oneComposition {} (.recorder ["s", "y"] [])).result) ∧
    (exchange .definitions oneComposition {} (.ofRecording [.subset])).result =
      .error (.recordingExhausted 1 "Add field 'name: string'?") := by
  have hrecorded : (exchange .definitions oneComposition {}
      (.recorder ["s", "y"] [])).oracle.recording = [.subset, .yes] := by decide +kernel
  have hquestion : (exchange .definitions oneComposition {}
      (.recorder ["s", "y"] [])).questions[1]? = some ⟨.yesNo, "Add field 'name: string'?"⟩ := by
    decide +kernel
  have htext : (exchange .definitions oneComposition {}
      (.recorder ["s", "y"] [])).result.toOption.isSome := by decide +kernel
  have hended : (exchange .definitions oneComposition {} (.recorder ["s", "y"] [])).result ≠
      .error .inputEnded := by
    intro h
    rw [h] at htext
    cases htext
  obtain ⟨answers, hread, hreplay, hshort, -⟩ :=
    exchange_replay .definitions oneComposition {} ["s", "y"]
  rw [hrecorded] at hread hshort
  rw [Recording.ofLines_lines_toText] at hread
  cases hread
  obtain ⟨q, hq, hfault, -⟩ := hshort [.subset] (by decide) (by decide)
  rw [List.length_singleton, hquestion] at hq
  cases hq
  refine ⟨hended, fun more => (hreplay hended more).1, hfault.trans ?_⟩
  have hstrip : Text.strip "Add field 'name: string'?" = "Add field 'name: string'?" := by
    decide +kernel
  rw [hstrip]
  rfl

end Conversion

end ApiGraph
