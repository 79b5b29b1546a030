import Mathlib.Tactic.Choose
import ApiGraph.Proofs.Outcome
import ApiGraph.Proofs.Dialogue.Basic

/-!
# Computations as dialogues

Apart from the questions that it puts, a computation on a state with a context depends on the work
done so far only, and not on who answers or on what was said before.

* `Contextual`, `work` — states that hold a context, and what is left of them without the oracle and
  the transcript;
* `Balanced` — a computation that comes out of all nodes that it goes into;
* `Silent` — a computation that puts no question;
* `IsDialogue` — a computation that is a dialogue: its outcome and its work are those of an exchange
  with the oracle of the state;
* `Silent.bind`, `IsDialogue.bind` and their like — both are kept by all ways to build computations.

Neither ends a run for lack of input by itself: only an oracle does that.
-/

namespace ApiGraph

/-- The state of a run without the oracle and the transcript. -/
def Context.bare (c : Context) : Context := { c with oracle := Oracle.always, transcript := [] }

theorem Context.bare_enter (c : Context) (i : Option NodeId) :
    (c.enter i).bare = (c.bare.enter i).bare := by
  cases i <;> rfl

theorem Context.bare_leave (c : Context) : c.leave.bare = c.bare.leave.bare := by
  obtain ⟨graph, types, stack, composeDepth, oracle, transcript⟩ := c
  rcases stack with _ | ⟨_ | i, rest⟩ <;> rfl

theorem Context.oracle_leave (c : Context) : c.leave.oracle = c.oracle := by
  obtain ⟨graph, types, stack, composeDepth, oracle, transcript⟩ := c
  cases stack <;> rfl

theorem Context.questions_enter (c : Context) (i : Option NodeId) :
    (c.enter i).transcript.questions = c.transcript.questions := by
  simp [enter, Transcript.questions, Event.question?]

theorem Context.questions_leave (c : Context) :
    c.leave.transcript.questions = c.transcript.questions := by
  obtain ⟨graph, types, stack, composeDepth, oracle, transcript⟩ := c
  cases stack <;> simp [leave, Transcript.questions, Event.question?]

/-- States that hold the state of a run. -/
class Contextual (σ : Type) where
  context : σ → Context
  withContext : σ → Context → σ
  context_withContext : ∀ s c, context (withContext s c) = c
  withContext_withContext : ∀ s c c', withContext (withContext s c) c' = withContext s c'

open Contextual

instance : Contextual Context where
  context c := c
  withContext _ c := c
  context_withContext _ _ := rfl
  withContext_withContext _ _ _ := rfl

section

variable {σ α β : Type} [Contextual σ]

/-- A state without the oracle and the transcript. -/
def work (s : σ) : σ := withContext s (context s).bare

theorem context_work (s : σ) : context (work s) = (context s).bare := context_withContext _ _

theorem bare_eq_of_work_eq {s t : σ} (h : work s = work t) :
    (context s).bare = (context t).bare := by
  rw [← context_work, ← context_work, h]

theorem work_withContext (s : σ) (c : Context) : work (withContext s c) = withContext s c.bare := by
  rw [work, context_withContext, withContext_withContext]

@[simp] theorem work_work (s : σ) : work (work s) = work s := by
  rw [work, context_work, work, withContext_withContext]
  rfl

/-- States that differ in the oracle and the transcript only do so after the same change of the rest
of the context. -/
theorem work_withContext_congr {s t : σ} {c c' : Context} (h : work s = work t)
    (hc : c.bare = c'.bare) : work (withContext s c) = work (withContext t c') := by
  have hs : ∀ u : σ, withContext u c.bare = withContext (work u) c.bare := fun u => by
    rw [work, withContext_withContext]
  rw [work_withContext, work_withContext, ← hc, hs s, hs t, h]

/-! ## Balanced computations -/

/-- A computation that ends inside the nodes that it began in, whether it succeeds or not. -/
def Balanced (m : EStateM Fault σ α) : Prop := ∀ s, (context (after m s)).stack = (context s).stack

theorem Balanced.of_ok {m : EStateM Fault σ α} {s s' : σ} {a : α} (hm : Balanced m)
    (h : m s = .ok a s') : (context s').stack = (context s).stack := by
  have hstack := hm s
  rwa [after_of_ok h] at hstack

theorem Balanced.bind {m : EStateM Fault σ α} {f : α → EStateM Fault σ β} (hm : Balanced m)
    (hf : ∀ a, Balanced (f a)) : Balanced (m >>= f) := by
  intro s
  cases hs : outcome m s with
  | ok a => rw [after_bind_of_ok hs, hf a, hm]
  | error fault => rw [after_bind_of_error hs, hm]

/-! ## Silent computations -/

/-- A computation that puts no question and does not hang on the oracle or the transcript. It comes out
of all nodes that it goes into. -/
structure Silent (m : EStateM Fault σ α) : Prop where
  balanced : Balanced m
  outcome_eq : ∀ {s t : σ}, work s = work t → outcome m s = outcome m t
  work_eq : ∀ {s t : σ}, work s = work t → work (after m s) = work (after m t)
  oracle_eq : ∀ s, (context (after m s)).oracle = (context s).oracle
  questions_eq : ∀ s, (context (after m s)).transcript.questions = (context s).transcript.questions
  not_ended : ∀ s, outcome m s ≠ .error .inputEnded

theorem silent_pure (a : α) : Silent (pure a : EStateM Fault σ α) where
  balanced _ := rfl
  outcome_eq _ := rfl
  work_eq h := h
  oracle_eq _ := rfl
  questions_eq _ := rfl
  not_ended _ h := by cases h

theorem silent_throw {fault : Fault} (h : fault ≠ .inputEnded) :
    Silent (throw fault : EStateM Fault σ α) where
  balanced _ := rfl
  outcome_eq _ := rfl
  work_eq h := h
  oracle_eq _ := rfl
  questions_eq _ := rfl
  not_ended s he := h (by cases he; rfl)

/-- A change of the state that changes neither stack nor oracle nor questions. -/
theorem silent_modify {f : σ → σ} (hstack : ∀ s, (context (f s)).stack = (context s).stack)
    (hwork : ∀ s, work (f (work s)) = work (f s))
    (horacle : ∀ s, (context (f s)).oracle = (context s).oracle)
    (hquestions : ∀ s, (context (f s)).transcript.questions = (context s).transcript.questions) :
    Silent (modify f : EStateM Fault σ PUnit) where
  balanced := hstack
  outcome_eq _ := rfl
  work_eq {s t} h := by
    show work (f s) = work (f t)
    rw [← hwork s, h, hwork t]
  oracle_eq := horacle
  questions_eq := hquestions
  not_ended _ h := by cases h

/-- A look at the state that does not see the oracle and the transcript. -/
theorem silent_get_bind {f : σ → EStateM Fault σ α} (hf : ∀ s, Silent (f s))
    (hwork : ∀ s, f (work s) = f s) : Silent (get >>= f) where
  balanced s := (hf s).balanced s
  outcome_eq {s t} h := by
    show outcome (f s) s = outcome (f t) t
    rw [← hwork s, h, hwork t, (hf t).outcome_eq h]
  work_eq {s t} h := by
    show work (after (f s) s) = work (after (f t) t)
    rw [← hwork s, h, hwork t, (hf t).work_eq h]
  oracle_eq s := (hf s).oracle_eq s
  questions_eq s := (hf s).questions_eq s
  not_ended s := (hf s).not_ended s

theorem Silent.bind {m : EStateM Fault σ α} {f : α → EStateM Fault σ β} (hm : Silent m)
    (hf : ∀ a, Silent (f a)) : Silent (m >>= f) where
  balanced := hm.balanced.bind fun a => (hf a).balanced
  outcome_eq {s t} h := by
    have hst := hm.outcome_eq h
    cases ht : outcome m t with
    | ok a =>
      rw [outcome_bind_of_ok (hst.trans ht), outcome_bind_of_ok ht,
        (hf a).outcome_eq (hm.work_eq h)]
    | error fault => rw [outcome_bind_of_error (hst.trans ht), outcome_bind_of_error ht]
  work_eq {s t} h := by
    have hst := hm.outcome_eq h
    cases ht : outcome m t with
    | ok a =>
      rw [after_bind_of_ok (hst.trans ht), after_bind_of_ok ht, (hf a).work_eq (hm.work_eq h)]
    | error fault =>
      rw [after_bind_of_error (hst.trans ht), after_bind_of_error ht, hm.work_eq h]
  oracle_eq s := by
    cases hs : outcome m s with
    | ok a => rw [after_bind_of_ok hs, (hf a).oracle_eq, hm.oracle_eq]
    | error fault => rw [after_bind_of_error hs, hm.oracle_eq]
  questions_eq s := by
    cases hs : outcome m s with
    | ok a => rw [after_bind_of_ok hs, (hf a).questions_eq, hm.questions_eq]
    | error fault => rw [after_bind_of_error hs, hm.questions_eq]
  not_ended s := by
    cases hs : outcome m s with
    | ok a => rw [outcome_bind_of_ok hs]; exact (hf a).not_ended _
    | error fault =>
      rw [outcome_bind_of_error hs]
      intro h
      cases h
      exact hm.not_ended s hs

theorem silent_forM {f : α → EStateM Fault σ PUnit} (hf : ∀ a, Silent (f a)) (xs : List α) :
    Silent (xs.forM f) := by
  induction xs with
  | nil => exact silent_pure _
  | cons x xs ih =>
    show Silent (f x >>= fun _ => xs.forM f)
    exact (hf x).bind fun _ => ih

theorem silent_mapM {f : α → EStateM Fault σ β} (hf : ∀ a, Silent (f a)) (xs : List α) :
    Silent (xs.mapM f) := by
  induction xs with
  | nil => exact silent_pure _
  | cons x xs ih =>
    rw [List.mapM_cons]
    exact (hf x).bind fun _ => ih.bind fun _ => silent_pure _

/-! ## Dialogues -/

/-- The outcome that an exchange gives. -/
def Dialogue.Exchange.outcome (e : Dialogue.Exchange (Attempt α × σ)) : Attempt α :=
  match e.result with
  | .ok (r, _) => r
  | .error fault => .error fault

/-- A computation does, from a state on, what an exchange says. -/
structure Enacts (m : EStateM Fault σ α) (s : σ) (e : Dialogue.Exchange (Attempt α × σ)) : Prop where
  outcome_eq : outcome m s = e.outcome
  work_eq : ∀ r t, e.result = .ok (r, t) → work (after m s) = work t
  oracle_eq : (context (after m s)).oracle = e.oracle
  questions_eq : (context (after m s)).transcript.questions =
    (context s).transcript.questions ++ e.questions

/-- A computation that is a dialogue with the oracle, by the work done before, and that comes out of all
nodes that it goes into. -/
def IsDialogue (m : EStateM Fault σ α) : Prop :=
  Balanced m ∧ ∃ t : σ → Dialogue (Attempt α × σ),
    (∀ {s s' : σ}, work s = work s' → t s = t s') ∧
    (∀ s, (t s).All fun r => r.1 ≠ .error .inputEnded) ∧
    ∀ s, Enacts m s ((t s).play (context s).oracle)

theorem Silent.isDialogue {m : EStateM Fault σ α} (h : Silent m) : IsDialogue m := by
  refine ⟨h.balanced, fun s => .done (outcome m s, work (after m s)), fun hst => ?_, fun s => h.not_ended s,
    fun s => ?_⟩
  · simp only [h.outcome_eq hst, h.work_eq hst]
  · refine ⟨rfl, ?_, h.oracle_eq s, ?_⟩
    · intro r t hrt
      cases hrt
      exact (work_work _).symm
    · rw [h.questions_eq s]
      exact (List.append_nil _).symm

/-- A dialogue goes on after an attempt, unless it failed. -/
def Dialogue.proceed (u : α → σ → Dialogue (Attempt β × σ)) :
    Attempt α × σ → Dialogue (Attempt β × σ)
  | (.ok a, s) => u a s
  | (.error fault, s) => .done (.error fault, s)

/-- A sequence is the dialogue of its first part, followed by that of the second part for the value
and the work that the first one comes to. -/
theorem IsDialogue.bind {m : EStateM Fault σ α} {f : α → EStateM Fault σ β} (hm : IsDialogue m)
    (hf : ∀ a, IsDialogue (f a)) : IsDialogue (m >>= f) := by
  obtain ⟨hbalanced, t, ht, hplain, hplay⟩ := hm
  choose hfbalanced u hu huplain huplay using hf
  refine ⟨hbalanced.bind hfbalanced, fun s => (t s).bind (Dialogue.proceed u), fun h => by simp only [ht h],
    fun s => ?_, fun s => ?_⟩
  · refine (hplain s).bind ?_
    rintro ⟨r, s'⟩ hr
    cases r with
    | ok a => exact huplain a s'
    | error fault =>
      intro he
      cases he
      exact hr rfl
  · have first := hplay s
    rcases he : ((t s).play (context s).oracle).result with fault | ⟨r, s'⟩
    · have hms : outcome m s = .error fault := by
        rw [first.outcome_eq, Dialogue.Exchange.outcome, he]
      rw [Dialogue.play_bind_of_error he]
      exact ⟨outcome_bind_of_error hms, by rintro _ _ ⟨⟩,
        by rw [after_bind_of_error hms, first.oracle_eq],
        by rw [after_bind_of_error hms, first.questions_eq]⟩
    · have hms : outcome m s = r := by rw [first.outcome_eq, Dialogue.Exchange.outcome, he]
      have hwork := first.work_eq r s' he
      rw [Dialogue.play_bind_of_ok he]
      cases r with
      | error fault =>
        refine ⟨outcome_bind_of_error hms, ?_, ?_, ?_⟩
        · rintro _ _ ⟨⟩
          rw [after_bind_of_error hms, hwork]
        · rw [after_bind_of_error hms, first.oracle_eq]
          rfl
        · rw [after_bind_of_error hms, first.questions_eq]
          simp [Dialogue.proceed, Dialogue.play]
      | ok a =>
        have second := huplay a (after m s)
        rw [hu a hwork, first.oracle_eq] at second
        refine ⟨?_, ?_, ?_, ?_⟩
        · rw [outcome_bind_of_ok hms, second.outcome_eq]
          rfl
        · intro r' s'' hr
          rw [after_bind_of_ok hms]
          exact second.work_eq r' s'' hr
        · rw [after_bind_of_ok hms, second.oracle_eq]
          rfl
        · rw [after_bind_of_ok hms, second.questions_eq, first.questions_eq, List.append_assoc]
          rfl

theorem isDialogue_pure (a : α) : IsDialogue (pure a : EStateM Fault σ α) :=
  (silent_pure a).isDialogue

/-- A look at the state that does not see the oracle and the transcript. -/
theorem isDialogue_get_bind {f : σ → EStateM Fault σ α} (hf : ∀ s, IsDialogue (f s))
    (hwork : ∀ s, f (work s) = f s) : IsDialogue (get >>= f) := by
  choose hbalanced u hu huplain huplay using hf
  refine ⟨fun s => hbalanced s s, fun s => u (work s) s, fun {s s'} h => ?_, fun s => huplain _ s, fun s => ?_⟩
  · show u (work s) s = u (work s') s'
    rw [h]
    exact hu _ h
  · have hs := huplay (work s) s
    rw [hwork s] at hs
    exact ⟨hs.outcome_eq, hs.work_eq, hs.oracle_eq, hs.questions_eq⟩

theorem isDialogue_forM {f : α → EStateM Fault σ PUnit} (hf : ∀ a, IsDialogue (f a))
    (xs : List α) : IsDialogue (xs.forM f) := by
  induction xs with
  | nil => exact isDialogue_pure _
  | cons x xs ih =>
    show IsDialogue (f x >>= fun _ => xs.forM f)
    exact (hf x).bind fun _ => ih

/-! ## Computations on another state -/

variable {τ : Type} [Contextual τ]

/-- A computation on another state, made from the present one, to which it comes back. -/
def through (into : σ → τ) (out : σ → τ → σ) (m : EStateM Fault τ α) : EStateM Fault σ α := fun s =>
  match m (into s) with
  | .ok a t => .ok a (out s t)
  | .error fault t => .error fault (out s t)

/-- The way to another state and back leaves the stack, the oracle and the questions as they are. -/
structure Passage (into : σ → τ) (out : σ → τ → σ) : Prop where
  out_stack : ∀ {s t}, (context t).stack = (context (into s)).stack →
    (context (out s t)).stack = (context s).stack
  into_congr : ∀ {s s' : σ}, work s = work s' → work (into s) = work (into s')
  out_congr : ∀ {s s' : σ} {t t' : τ}, work s = work s' → work t = work t' →
    work (out s t) = work (out s' t')
  into_oracle : ∀ s, (context (into s)).oracle = (context s).oracle
  into_questions : ∀ s, (context (into s)).transcript.questions =
    (context s).transcript.questions
  out_oracle : ∀ s t, (context (out s t)).oracle = (context t).oracle
  out_questions : ∀ s t, (context (out s t)).transcript.questions =
    (context t).transcript.questions

omit [Contextual σ] [Contextual τ] in
theorem outcome_through (into : σ → τ) (out : σ → τ → σ) (m : EStateM Fault τ α) (s : σ) :
    outcome (through into out m) s = outcome m (into s) := by
  simp only [outcome, through]
  cases m (into s) <;> rfl

omit [Contextual σ] [Contextual τ] in
theorem after_through (into : σ → τ) (out : σ → τ → σ) (m : EStateM Fault τ α) (s : σ) :
    after (through into out m) s = out s (after m (into s)) := by
  simp only [after, through]
  cases m (into s) <;> rfl

variable {into : σ → τ} {out : σ → τ → σ}

theorem Balanced.through {m : EStateM Fault τ α} (hm : Balanced m) (hp : Passage into out) :
    Balanced (through into out m) := by
  intro s
  rw [after_through]
  exact hp.out_stack (hm _)

theorem Silent.through {m : EStateM Fault τ α} (hm : Silent m) (hp : Passage into out) :
    Silent (through into out m) where
  balanced := hm.balanced.through hp
  outcome_eq h := by
    rw [outcome_through, outcome_through]
    exact hm.outcome_eq (hp.into_congr h)
  work_eq h := by
    rw [after_through, after_through]
    exact hp.out_congr h (hm.work_eq (hp.into_congr h))
  oracle_eq s := by rw [after_through, hp.out_oracle, hm.oracle_eq, hp.into_oracle]
  questions_eq s := by rw [after_through, hp.out_questions, hm.questions_eq, hp.into_questions]
  not_ended s := by
    rw [outcome_through]
    exact hm.not_ended _

theorem IsDialogue.through {m : EStateM Fault τ α} (hm : IsDialogue m) (hp : Passage into out) :
    IsDialogue (through into out m) := by
  obtain ⟨hbalanced, t, ht, hplain, hplay⟩ := hm
  refine ⟨hbalanced.through hp, fun s => (t (into s)).bind fun r => .done (r.1, work (out s r.2)), fun {s s'} h => ?_,
    fun s => ?_, fun s => ?_⟩
  · simp only [ht (hp.into_congr h), hp.out_congr h rfl]
  · exact (hplain (into s)).bind fun r hr => hr
  · have inner := hplay (into s)
    rw [hp.into_oracle] at inner
    rcases he : ((t (into s)).play (context s).oracle).result with fault | ⟨r, s'⟩
    · rw [Dialogue.play_bind_of_error he]
      refine ⟨?_, by rintro _ _ ⟨⟩, ?_, ?_⟩
      · rw [outcome_through, inner.outcome_eq, Dialogue.Exchange.outcome, he]
        rfl
      · rw [after_through, hp.out_oracle, inner.oracle_eq]
      · rw [after_through, hp.out_questions, inner.questions_eq, hp.into_questions]
    · rw [Dialogue.play_bind_of_ok he]
      refine ⟨?_, ?_, ?_, ?_⟩
      · rw [outcome_through, inner.outcome_eq, Dialogue.Exchange.outcome, he]
        rfl
      · rintro _ _ ⟨⟩
        rw [after_through, work_work]
        exact hp.out_congr rfl (inner.work_eq r s' he)
      · rw [after_through, hp.out_oracle, inner.oracle_eq]
        rfl
      · rw [after_through, hp.out_questions, inner.questions_eq, hp.into_questions]
        simp [Dialogue.play]

/-- A step of the run is a computation on a state that holds one. -/
theorem passage_context : Passage (σ := σ) context withContext where
  out_stack h := by rwa [context_withContext]
  into_congr {s s'} h := by
    show (context s).bare = (context s').bare
    exact bare_eq_of_work_eq h
  out_congr h h' := work_withContext_congr h h'
  into_oracle _ := rfl
  into_questions _ := rfl
  out_oracle s c := by
    rw [context_withContext]
    rfl
  out_questions s c := by
    rw [context_withContext]
    rfl

/-- A step inside a node goes in and comes out again. -/
theorem passage_enter (i : Option NodeId) :
    Passage (σ := σ) (τ := σ) (fun s => withContext s ((context s).enter i))
      fun _ t => withContext t (context t).leave where
  out_stack {s t} h := by
    rw [context_withContext] at h ⊢
    rw [Context.leave, h]
    rfl
  into_congr {s s'} h := by
    refine work_withContext_congr h ?_
    rw [Context.bare_enter, bare_eq_of_work_eq h, ← Context.bare_enter]
  out_congr {_ _ t t'} _ h := by
    refine work_withContext_congr h ?_
    rw [Context.bare_leave, bare_eq_of_work_eq h, ← Context.bare_leave]
  into_oracle s := by
    rw [context_withContext]
    rfl
  into_questions s := by rw [context_withContext, Context.questions_enter]
  out_oracle s t := by rw [context_withContext, Context.oracle_leave]
  out_questions s t := by rw [context_withContext, Context.questions_leave]

end

end ApiGraph
