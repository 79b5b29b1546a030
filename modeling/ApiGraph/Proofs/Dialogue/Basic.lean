import ApiGraph.Oracle.Basic

/-!
# Dialogues

A dialogue says which questions are put and what comes of them, for all answers at once. Played
with an oracle it gives one exchange of questions and answers.

* `Dialogue`, `Dialogue.bind` — dialogues, and one dialogue after another;
* `Dialogue.play` — the exchange with an oracle: the questions put, and the result unless the oracle
  fails;
* `Dialogue.printed_play` — what an exchange puts on the standard output;
* `Dialogue.play_recorder` — what a recorder has recorded after an exchange;
* `Dialogue.play_replay`, `Dialogue.play_replay_short` — an exchange is the same with a replay of the
  recorded answers, and with fewer answers it ends at the question that none is left for.
-/

namespace ApiGraph

/-- What goes to the standard output at a terminal when questions are put one after the other. -/
def Console.printedFor : Console → List Question → String
  | _, [] => ""
  | console, q :: rest => (console.reply q).printed ++ (console.next q).printedFor rest

namespace Oracle

/-- What goes to the standard output when questions are put to an oracle one after the other. -/
def printedFor (o : Oracle) (questions : List Question) : String :=
  (o.console?.map (·.printedFor questions)).getD ""

@[simp] theorem printedFor_nil (o : Oracle) : o.printedFor [] = "" := by
  rw [printedFor]
  cases o.console? <;> rfl

theorem printed_respond (o : Oracle) (q : Question) (rest : List Question) :
    (o.respond q).oracle.printed ++ (o.respond q).oracle.printedFor rest =
      o.printed ++ o.printedFor (q :: rest) := by
  cases o with
  | policy decide => rfl
  | replay used answers => cases answers <;> rfl
  | terminal console | recorder console recorded => exact String.append_assoc

end Oracle

/-- A result, or a question and how the dialogue goes on for each answer. -/
inductive Dialogue (β : Type) where
  | done (result : β)
  | ask (q : Question) (next : Answer → Dialogue β)

namespace Dialogue

variable {β γ : Type}

/-- One dialogue after another, which may depend on the result of the first. -/
def bind : Dialogue β → (β → Dialogue γ) → Dialogue γ
  | done result, k => k result
  | ask q next, k => ask q fun a => (next a).bind k

/-- Whether all results of a dialogue have a property. -/
def All (P : β → Prop) : Dialogue β → Prop
  | done result => P result
  | ask _ next => ∀ a, (next a).All P

/-- What comes of a dialogue with an oracle. -/
structure Exchange (β : Type) where
  /-- The result, or the fault of an oracle that has no answer. -/
  result : Attempt β
  oracle : Oracle
  /-- The questions put, in order; an oracle that fails fails at the last one. -/
  questions : List Question

/-- The exchange of a dialogue with an oracle. -/
def play : Dialogue β → Oracle → Exchange β
  | done result, o => ⟨.ok result, o, []⟩
  | ask q next, o =>
    match (o.respond q).result with
    | .ok a =>
      let rest := (next a).play (o.respond q).oracle
      { rest with questions := q :: rest.questions }
    | .error fault => ⟨.error fault, (o.respond q).oracle, [q]⟩

theorem play_ask_of_ok {q : Question} {next : Answer → Dialogue β} {o : Oracle} {a : Answer}
    (h : (o.respond q).result = .ok a) :
    (ask q next).play o =
      ⟨((next a).play (o.respond q).oracle).result, ((next a).play (o.respond q).oracle).oracle,
        q :: ((next a).play (o.respond q).oracle).questions⟩ := by
  rw [play, h]

theorem play_ask_of_error {q : Question} {next : Answer → Dialogue β} {o : Oracle} {fault : Fault}
    (h : (o.respond q).result = .error fault) :
    (ask q next).play o = ⟨.error fault, (o.respond q).oracle, [q]⟩ := by
  rw [play, h]

theorem All.of_play {P : β → Prop} {t : Dialogue β} (h : t.All P) {o : Oracle} {b : β}
    (hb : (t.play o).result = .ok b) : P b := by
  induction t generalizing o with
  | done result => cases hb; exact h
  | ask q next ih =>
    cases hr : (o.respond q).result with
    | error fault => rw [play_ask_of_error hr] at hb; cases hb
    | ok a =>
      rw [play_ask_of_ok hr] at hb
      exact ih a (h a) hb

/-! ## One dialogue after another -/

theorem All.bind {P : β → Prop} {Q : γ → Prop} {t : Dialogue β} {k : β → Dialogue γ} (h : t.All P)
    (hk : ∀ b, P b → (k b).All Q) : (t.bind k).All Q := by
  induction t with
  | done result => exact hk result h
  | ask q next ih => exact fun a => ih a (h a)

theorem play_bind_of_ok {t : Dialogue β} {k : β → Dialogue γ} {o : Oracle} {b : β}
    (h : (t.play o).result = .ok b) :
    (t.bind k).play o =
      ⟨((k b).play (t.play o).oracle).result, ((k b).play (t.play o).oracle).oracle,
        (t.play o).questions ++ ((k b).play (t.play o).oracle).questions⟩ := by
  induction t generalizing o with
  | done result => cases h; rfl
  | ask q next ih =>
    cases hr : (o.respond q).result with
    | error fault => rw [play_ask_of_error hr] at h; cases h
    | ok a =>
      rw [play_ask_of_ok hr] at h
      rw [bind, play_ask_of_ok hr, play_ask_of_ok hr, ih a h]
      rfl

theorem play_bind_of_error {t : Dialogue β} {k : β → Dialogue γ} {o : Oracle} {fault : Fault}
    (h : (t.play o).result = .error fault) :
    (t.bind k).play o = ⟨.error fault, (t.play o).oracle, (t.play o).questions⟩ := by
  induction t generalizing o with
  | done result => cases h
  | ask q next ih =>
    cases hr : (o.respond q).result with
    | error other =>
      rw [play_ask_of_error hr] at h
      cases h
      rw [bind, play_ask_of_error hr, play_ask_of_error hr]
    | ok a =>
      rw [play_ask_of_ok hr] at h
      rw [bind, play_ask_of_ok hr, play_ask_of_ok hr, ih a h]

/-! ## The standard output -/

/-- An exchange puts on the standard output what its questions put there. -/
theorem printed_play (t : Dialogue β) (o : Oracle) :
    (t.play o).oracle.printed = o.printed ++ o.printedFor (t.play o).questions := by
  induction t generalizing o with
  | done result => rw [play, Oracle.printedFor_nil, String.append_empty]
  | ask q next ih =>
    cases hr : (o.respond q).result with
    | error fault =>
      rw [play_ask_of_error hr, ← Oracle.printed_respond, Oracle.printedFor_nil, String.append_empty]
    | ok a => rw [play_ask_of_ok hr, ← Oracle.printed_respond, ih]

/-! ## Recorders -/

/-- A recorder records the answer that the operator gives. -/
theorem respond_recorder_some {q : Question} {console : Console} {a : Answer}
    (h : (console.reply q).answer = some a) (recorded : List Answer) :
    ((Oracle.recorder console recorded).respond q).result = .ok a ∧
      ((Oracle.recorder console recorded).respond q).oracle =
        .recorder (console.next q) (recorded ++ [a]) := by
  simp [Oracle.respond, Console.answer, h]

/-- A recorder fails when the input ends before an answer. -/
theorem respond_recorder_none {q : Question} {console : Console}
    (h : (console.reply q).answer = none) (recorded : List Answer) :
    ((Oracle.recorder console recorded).respond q).result = .error .inputEnded ∧
      ((Oracle.recorder console recorded).respond q).oracle = .recorder (console.next q) recorded := by
  simp [Oracle.respond, Console.answer, h]

/-- The answers that a recorder gives during a dialogue, in order. -/
def recordedBy : Dialogue β → Console → List Answer
  | done _, _ => []
  | ask q next, console =>
    match (console.reply q).answer with
    | some a => a :: (next a).recordedBy (console.next q)
    | none => []

/-- After an exchange a recorder holds the answers that it has given besides those before. When it
has a result every question was answered; otherwise the input has ended at the last question. -/
theorem play_recorder (t : Dialogue β) (console : Console) (recorded : List Answer) :
    (t.play (.recorder console recorded)).oracle.recording = recorded ++ t.recordedBy console ∧
    ((∃ b, (t.play (.recorder console recorded)).result = .ok b ∧
        (t.play (.recorder console recorded)).questions.length = (t.recordedBy console).length) ∨
      (t.play (.recorder console recorded)).result = .error .inputEnded ∧
        (t.play (.recorder console recorded)).questions.length =
          (t.recordedBy console).length + 1) := by
  induction t generalizing console recorded with
  | done result => exact ⟨by simp [play, recordedBy, Oracle.recording], .inl ⟨result, rfl, rfl⟩⟩
  | ask q next ih =>
    rcases hask : (console.reply q).answer with _ | a
    · obtain ⟨hplay, horacle⟩ := respond_recorder_none hask recorded
      rw [play_ask_of_error hplay, horacle]
      simp [recordedBy, hask, Oracle.recording]
    · obtain ⟨hrec, hend⟩ := ih a (console.next q) (recorded ++ [a])
      obtain ⟨hplay, horacle⟩ := respond_recorder_some hask recorded
      rw [play_ask_of_ok hplay, horacle]
      simp only [recordedBy, hask, List.length_cons]
      refine ⟨by rw [hrec, List.append_assoc]; rfl, ?_⟩
      rcases hend with ⟨b, hb, hlen⟩ | ⟨he, hlen⟩
      · exact .inl ⟨b, hb, by rw [hlen]⟩
      · exact .inr ⟨he, by rw [hlen]⟩

/-! ## Replays -/

/-- An exchange with a recorder that comes to a result comes to the same result with a replay of the
recorded answers, which has all further answers left. -/
theorem play_replay {t : Dialogue β} {console : Console} {recorded : List Answer} {b : β}
    (h : (t.play (.recorder console recorded)).result = .ok b) (used : Nat) (more : List Answer) :
    t.play (.replay used (t.recordedBy console ++ more)) =
      ⟨.ok b, .replay (used + (t.recordedBy console).length) more,
        (t.play (.recorder console recorded)).questions⟩ := by
  induction t generalizing console recorded used with
  | done result => cases h; rfl
  | ask q next ih =>
    rcases hask : (console.reply q).answer with _ | a
    · rw [play_ask_of_error (respond_recorder_none hask recorded).1] at h
      cases h
    · obtain ⟨hplay, horacle⟩ := respond_recorder_some hask recorded
      rw [play_ask_of_ok hplay, horacle] at h ⊢
      have hrest := ih a h (used + 1)
      simp only [recordedBy, hask, List.cons_append, List.length_cons]
      rw [play_ask_of_ok (a := a) rfl]
      simp only [Oracle.respond, hrest]
      rw [Nat.add_right_comm, Nat.add_assoc]

/-- A replay that holds fewer answers than there are questions ends at the first question that is
left without. -/
theorem play_replay_short {t : Dialogue β} {console : Console} {recorded given : List Answer}
    (hgiven : given <+: t.recordedBy console)
    (hshort : given.length < (t.play (.recorder console recorded)).questions.length) (used : Nat) :
    ∃ q, (t.play (.recorder console recorded)).questions[given.length]? = some q ∧
      t.play (.replay used given) =
        ⟨.error (.recordingExhausted (used + given.length) (Text.strip q.text)),
          .replay (used + given.length) [],
          (t.play (.recorder console recorded)).questions.take (given.length + 1)⟩ := by
  induction t generalizing console recorded given used with
  | done result => simp [play] at hshort
  | ask q next ih =>
    cases given with
    | nil =>
      obtain ⟨others, hothers⟩ : ∃ others,
          ((ask q next).play (.recorder console recorded)).questions = q :: others := by
        rcases hask : (console.reply q).answer with _ | a
        · rw [play_ask_of_error (respond_recorder_none hask recorded).1]
          exact ⟨_, rfl⟩
        · rw [play_ask_of_ok (respond_recorder_some hask recorded).1]
          exact ⟨_, rfl⟩
      refine ⟨q, by simp [hothers], ?_⟩
      have hfault : ((Oracle.replay used []).respond q).result =
          .error (.recordingExhausted used (Text.strip q.text)) := rfl
      rw [play_ask_of_error hfault, hothers]
      simp [Oracle.respond]
    | cons a given =>
      rcases hask : (console.reply q).answer with _ | a'
      · simp [recordedBy, hask] at hgiven
      · obtain ⟨hplay, horacle⟩ := respond_recorder_some hask recorded
        simp only [recordedBy, hask, List.cons_prefix_cons] at hgiven
        obtain ⟨rfl, hgiven⟩ := hgiven
        rw [play_ask_of_ok hplay, horacle] at hshort ⊢
        simp only [List.length_cons, Nat.add_lt_add_iff_right] at hshort
        obtain ⟨q', hq', hrest⟩ := ih a hgiven hshort (used + 1)
        refine ⟨q', by simpa using hq', ?_⟩
        rw [play_ask_of_ok (a := a) rfl]
        simp only [Oracle.respond, hrest, List.length_cons, List.take_succ_cons]
        rw [Nat.add_right_comm, Nat.add_assoc]

end Dialogue

end ApiGraph
