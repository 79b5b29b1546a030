import Mathlib.Data.Finset.Card
import ApiGraph.Proofs.Selecting.Ends
import ApiGraph.Proofs.Selecting.Texts
import ApiGraph.Proofs.Visiting.Sequences

/-!
# The course of a selection

A selection goes into objects and compositions only where it is not inside of them already, so each way
down leaves one fewer to go into. A value below leads to a property or to one of them, and so the way is
at most twice as long as there are objects and compositions.

* `SelectionLine.around` — the properties whose braces are open after lines;
* `Transcript.insideFrom` — the nodes that a run is inside of at each moment;
* `Graph.room` — how many objects and compositions can still be gone into;
* `Selecting.Contained` — a computation that comes to an end, in at most so many braces, and goes into
  pairwise different nodes only;
* `Selecting.contained_selectWithin` — the selection of a value is one if it is given enough depth;
* `Selecting.contained_select` — and so it always is;
* `Conversion.bounded_select` — the selection of any node, from inside of any others, comes to an end.
-/

namespace ApiGraph

open OrderedMap Context Attempt SelectionLine

/-- The properties in whose braces one is after a line. -/
def SelectionLine.turn (outer : List NodeId) : SelectionLine → List NodeId
  | .leaf _ _ _ => outer
  | .opening i _ _ => i :: outer
  | .closing _ _ => outer.tail

/-- The properties in whose braces one is after lines, the innermost first. -/
def SelectionLine.around (outer : List NodeId) (ls : List SelectionLine) : List NodeId :=
  ls.foldl turn outer

theorem SelectionLine.around_append {outer : List NodeId} {ls more : List SelectionLine} :
    around outer (ls ++ more) = around (around outer ls) more := List.foldl_append

/-- The nodes that a run is inside of, the innermost first, if it was inside of some before. -/
def Transcript.insideFrom (outer : List (Option NodeId)) : Transcript → List (Option NodeId)
  | [] => outer
  | .entered i :: t => i :: insideFrom outer t
  | .left _ :: t => (insideFrom outer t).tail
  | _ :: t => insideFrom outer t

theorem Transcript.insideFrom_append (outer : List (Option NodeId)) (new old : Transcript) :
    insideFrom outer (new ++ old) = insideFrom (insideFrom outer old) new := by
  induction new with
  | nil => rfl
  | cons e new ih => cases e <;> simp [insideFrom, ih]

theorem Transcript.insideFrom_of_quiet (outer : List (Option NodeId)) {t : Transcript}
    (h : ∀ e ∈ t, e.isWay = false) : insideFrom outer t = outer := by
  induction t with
  | nil => rfl
  | cons e t ih =>
    obtain ⟨he, ht⟩ := List.forall_mem_cons.1 h
    cases e <;> first | exact ih ht | cases he

/-! ## Room -/

instance (b : Body) : Decidable b.IsType :=
  match b with
  | .object => .isTrue (.inl rfl)
  | .composed kind parts => .isTrue (.inr ⟨kind, parts, rfl⟩)
  | .bare | .scalar _ | .array _ | .union _ | .ref _ | .property _ _ _ | .parameter _ =>
    .isFalse (by simp [Body.IsType])

namespace Graph

/-- The places of the objects and compositions that are not on a stack. -/
def outside (g : Graph) (stack : List (Option NodeId)) : Finset Nat :=
  {j ∈ Finset.range g.size | (g.node ⟨j⟩).body.IsType ∧ stack.contains (some ⟨j⟩) = false}

/-- How many objects and compositions are not on a stack. -/
def room (g : Graph) (stack : List (Option NodeId)) : Nat := (g.outside stack).card

/-- How many objects and compositions there are. -/
def typeCount (g : Graph) : Nat := g.room []

variable {g : Graph} {stack l : List (Option NodeId)} {i : NodeId}

theorem mem_outside {j : Nat} : j ∈ g.outside stack ↔
    j < g.size ∧ (g.node ⟨j⟩).body.IsType ∧ some ⟨j⟩ ∉ stack := by
  simp [outside]

theorem room_le_typeCount : g.room stack ≤ g.typeCount :=
  Finset.card_le_card (Finset.monotone_filter_right _ fun _ _ h => ⟨h.1, rfl⟩)

theorem typeCount_le_size : g.typeCount ≤ g.size :=
  (Finset.card_filter_le _ _).trans_eq (Finset.card_range _)

/-- Going into an object or composition leaves one fewer to go into. -/
theorem room_cons (htype : (g.node i).body.IsType) (houtside : some i ∉ stack) :
    g.room (some i :: stack) + 1 = g.room stack := by
  have hlt : i.index < g.size := by
    refine Nat.lt_of_not_le fun hle => ?_
    rw [node_of_size_le hle] at htype
    rcases htype with h | ⟨_, _, h⟩ <;> cases h
  have hmem : i.index ∈ g.outside stack := mem_outside.2 ⟨hlt, htype, houtside⟩
  have herase : g.outside (some i :: stack) = (g.outside stack).erase i.index := by
    ext j
    have hij : (⟨j⟩ : NodeId) = i ↔ j = i.index := by
      cases i
      simp
    simp only [mem_outside, Finset.mem_erase, List.mem_cons, Option.some.injEq, hij]
    tauto
  rw [room, herase]
  exact Finset.card_erase_add_one hmem

/-- Pairwise different objects and compositions that are gone into one after the other, none of which
is on the stack. -/
def Over (g : Graph) (stack l : List (Option NodeId)) : Prop :=
  ∃ is : List NodeId, l = is.map some ++ stack ∧ is.Nodup ∧
    ∀ i ∈ is, (g.node i).body.IsType ∧ some i ∉ stack

theorem over_self : g.Over stack stack := ⟨[], rfl, List.nodup_nil, by simp⟩

theorem Over.of_cons (htype : (g.node i).body.IsType) (houtside : some i ∉ stack)
    (h : g.Over (some i :: stack) l) : g.Over stack l := by
  obtain ⟨is, rfl, hnodup, his⟩ := h
  refine ⟨is ++ [i], by simp, ?_, ?_⟩
  · rw [List.nodup_append]
    refine ⟨hnodup, List.nodup_singleton i, ?_⟩
    rintro a ha b hb rfl
    rw [List.mem_singleton] at hb
    subst hb
    exact (his a ha).2 (List.mem_cons_self ..)
  · intro j hj
    rcases List.mem_append.1 hj with hj | hj
    · exact ⟨(his j hj).1, fun hmem => (his j hj).2 (List.mem_cons_of_mem _ hmem)⟩
    · rw [List.mem_singleton.1 hj]
      exact ⟨htype, houtside⟩

end Graph

theorem suffix_append_cases {α : Type} {t xs ys : List α} (h : t <:+ xs ++ ys) :
    t <:+ ys ∨ ∃ rest, rest <:+ xs ∧ t = rest ++ ys := by
  rcases List.suffix_or_suffix_of_suffix h (List.suffix_append xs ys) with hin | ⟨rest, rfl⟩
  · exact .inl hin
  · obtain ⟨first, hfirst⟩ := h
    rw [← List.append_assoc] at hfirst
    exact .inr ⟨rest, ⟨first, List.append_cancel_right hfirst⟩, rfl⟩

/-! ## Steps -/

namespace Selecting

variable {α β : Type} {s s' : SelectionDraft} {k : Nat} {opened opened' opened'' : List NodeId}
  {m : Selecting α} {i j : NodeId}

/-- What a computation does on its way, from where some braces are open to where, if it succeeds, others
are: it does not take for ever, at most so many braces are open at a time, and the nodes that it has gone
into and not out of are different objects and compositions that it was not inside of before. -/
structure Contained (k : Nat) (opened opened' : List NodeId) (m : Selecting α) (s : SelectionDraft) :
    Prop where
  returned : s.context.Returned (after m s).context
  ends : outcome m s ≠ .error .endless
  lines : ∃ ls, (after m s).lines = s.lines ++ ls ∧
    (∀ before, before <+: ls → (around opened before).length ≤ k) ∧
    ∀ a, outcome m s = .ok a → around opened ls = opened'
  moments : ∃ new, (after m s).context.transcript = new ++ s.context.transcript ∧
    Transcript.insideFrom s.context.stack new = s.context.stack ∧
    ∀ t, t <:+ new → s.context.graph.Over s.context.stack (Transcript.insideFrom s.context.stack t)

theorem Contained.of_eq {m' : Selecting α} (h : Contained k opened opened' m' s) (he : m s = m' s) :
    Contained k opened opened' m s := by
  have hafter : after m s = after m' s := by rw [after, after, he]
  have houtcome : outcome m s = outcome m' s := by rw [outcome, outcome, he]
  obtain ⟨returned, ends, lines, moments⟩ := h
  rw [← hafter] at returned lines moments
  rw [← houtcome] at ends lines
  exact ⟨returned, ends, lines, moments⟩

/-- Nothing is gone into. -/
theorem contained_of_quiet (returned : s.context.Returned (after m s).context)
    (ends : outcome m s ≠ .error .endless)
    (lines : ∃ ls, (after m s).lines = s.lines ++ ls ∧
      (∀ before, before <+: ls → (around opened before).length ≤ k) ∧
      ∀ a, outcome m s = .ok a → around opened ls = opened')
    (told : ∃ new, (after m s).context.transcript = new ++ s.context.transcript ∧
      ∀ e ∈ new, e.isWay = false) : Contained k opened opened' m s := by
  obtain ⟨new, hnew, hquiet⟩ := told
  have hstay : ∀ t, t <:+ new →
      Transcript.insideFrom s.context.stack t = s.context.stack := fun t ht =>
    Transcript.insideFrom_of_quiet _ fun e he => hquiet e (ht.subset he)
  refine ⟨returned, ends, lines, ⟨new, hnew, hstay new (List.suffix_refl _), ?_⟩⟩
  intro t ht
  rw [hstay t ht]
  exact Graph.over_self

/-- Two computations, one after the other. -/
theorem Contained.bind {f : α → Selecting β} (h : Contained k opened opened' m s)
    (hf : ∀ a s', m s = .ok a s' → s'.context.graph = s.context.graph →
      s'.context.stack = s.context.stack → Contained k opened' opened'' (f a) s') :
    Contained k opened opened'' (m >>= f) s := by
  cases hm : outcome m s with
  | error fault =>
    refine ⟨?_, ?_, ?_, ?_⟩
    · rw [after_bind_of_error hm]
      exact h.returned
    · rw [outcome_bind_of_error hm]
      intro heq
      refine h.ends (hm.trans ?_)
      cases heq
      rfl
    · obtain ⟨ls, hls, hbraces, -⟩ := h.lines
      refine ⟨ls, by rw [after_bind_of_error hm, hls], hbraces, fun b hb => ?_⟩
      rw [outcome_bind_of_error hm] at hb
      cases hb
    · rw [after_bind_of_error hm]
      exact h.moments
  | ok a =>
    have hgraph := h.returned.graph
    have hstack := h.returned.stack
    have hnext := hf a _ (eq_ok_of_outcome hm) hgraph hstack
    refine ⟨?_, ?_, ?_, ?_⟩
    · rw [after_bind_of_ok hm]
      exact h.returned.trans hnext.returned
    · rw [outcome_bind_of_ok hm]
      exact hnext.ends
    · obtain ⟨ls, hls, hbraces, hback⟩ := h.lines
      obtain ⟨more, hmore, hbraces', hback'⟩ := hnext.lines
      refine ⟨ls ++ more, by rw [after_bind_of_ok hm, hmore, hls, List.append_assoc], ?_, ?_⟩
      · intro before hbefore
        rcases List.prefix_or_prefix_of_prefix hbefore (List.prefix_append ls more) with
          hin | ⟨rest, rfl⟩
        · exact hbraces before hin
        · have hrest : rest <+: more := (List.prefix_append_right_inj ls).1 hbefore
          rw [around_append, hback a hm]
          exact hbraces' rest hrest
      · intro b hb
        rw [outcome_bind_of_ok hm] at hb
        rw [around_append, hback a hm, hback' b hb]
    · obtain ⟨new, hnew, hreturn, hover⟩ := h.moments
      obtain ⟨newer, hnewer, hreturn', hover'⟩ := hnext.moments
      rw [hstack, hgraph] at hover'
      rw [hstack] at hreturn'
      refine ⟨newer ++ new, by rw [after_bind_of_ok hm, hnewer, hnew, List.append_assoc], ?_, ?_⟩
      · rw [Transcript.insideFrom_append, hreturn, hreturn']
      · intro t ht
        rcases suffix_append_cases ht with hin | ⟨rest, hrest, rfl⟩
        · exact hover t hin
        · rw [Transcript.insideFrom_append, hreturn]
          exact hover' rest hrest

theorem contained_context_bind {f : Context → Selecting α}
    (h : Contained k opened opened' (f s.context) s) : Contained k opened opened' (context >>= f) s :=
  h.of_eq rfl

/-- A step inside an object or composition that the run is not inside of. -/
theorem contained_within (htype : (s.context.graph.node i).body.IsType)
    (houtside : some i ∉ s.context.stack)
    (h : Contained k opened opened' m { s with context := s.context.enter (some i) }) :
    Contained k opened opened' (within i m) s := by
  have hafter : after (within i m) s =
      { after m { s with context := s.context.enter (some i) } with
        context := (after m { s with context := s.context.enter (some i) }).context.leave } := by
    rw [after, within, after]
    cases m { s with context := s.context.enter (some i) } <;> rfl
  have houtcome : outcome (within i m) s = outcome m { s with context := s.context.enter (some i) } := by
    rw [outcome, within, outcome]
    cases m { s with context := s.context.enter (some i) } <;> rfl
  obtain ⟨returned, ends, lines, new, hnew, hreturn, hover⟩ := h
  refine ⟨?_, by rwa [houtcome], ?_, .left (some i) :: (new ++ [.entered (some i)]), ?_, ?_, ?_⟩
  · rw [hafter]
    exact returned.leave
  · rwa [hafter, houtcome]
  · rw [hafter, Context.leave_of_stack returned.stack]
    show Event.left (some i) :: _ = _
    rw [hnew]
    simp [enter]
  · show (Transcript.insideFrom s.context.stack (new ++ [.entered (some i)])).tail = s.context.stack
    rw [Transcript.insideFrom_append]
    exact congrArg List.tail hreturn
  · intro t ht
    rcases List.suffix_cons_iff.1 ht with rfl | ht
    · show s.context.graph.Over s.context.stack
        (Transcript.insideFrom s.context.stack (new ++ [.entered (some i)])).tail
      rw [Transcript.insideFrom_append]
      exact (congrArg List.tail hreturn) ▸ Graph.over_self
    · rcases suffix_append_cases ht with ht | ⟨rest, hrest, rfl⟩
      · rcases List.suffix_cons_iff.1 ht with rfl | ht
        · exact (hover [] (List.nil_suffix)).of_cons htype houtside
        · rw [List.suffix_nil.1 ht]
          exact Graph.over_self
      · rw [Transcript.insideFrom_append]
        exact (hover rest hrest).of_cons htype houtside

section

variable (hk : opened.length ≤ k)

include hk

/-- Nothing is written. -/
theorem lines_of_eq (h : (after m s).lines = s.lines) :
    ∃ ls, (after m s).lines = s.lines ++ ls ∧
      (∀ before, before <+: ls → (around opened before).length ≤ k) ∧
      ∀ a, outcome m s = .ok a → around opened ls = opened := by
  refine ⟨[], by rw [h, List.append_nil], ?_, fun _ _ => rfl⟩
  intro before hbefore
  rwa [List.prefix_nil.1 hbefore]

theorem contained_pure (a : α) : Contained k opened opened (pure a : Selecting α) s :=
  contained_of_quiet (.refl _) nofun (lines_of_eq hk rfl) ⟨[], rfl, nofun⟩

theorem contained_throw {fault : Fault} (h : fault ≠ .endless) :
    Contained k opened opened (throw fault : Selecting α) s :=
  contained_of_quiet (.refl _) (fun heq => h (Except.error.inj heq)) (lines_of_eq hk rfl)
    ⟨[], rfl, nofun⟩

theorem contained_lift {a : Attempt α} (h : Fails (· ≠ .endless) a) :
    Contained k opened opened (lift a) s := by
  cases a with
  | ok a => exact contained_pure hk a
  | error fault => exact contained_throw hk (h fault rfl)

theorem contained_log (level : Level) (channel : Channel) (text : String) :
    Contained k opened opened (run (Run.log level channel text)) s :=
  contained_of_quiet (returning_run (Run.returning_log _ _ _) s) nofun (lines_of_eq hk rfl)
    ⟨[.logged level channel text], rfl, by simp [Event.isWay]⟩

theorem contained_trace (tag text : String) :
    Contained k opened opened (run (Run.trace tag text)) s :=
  contained_of_quiet (returning_run (Run.returning_trace _ _) s) nofun (lines_of_eq hk rfl)
    ⟨[.logged .debug .traversal _], rfl, by simp [Event.isWay]⟩

theorem contained_write (line : SelectionLine) (h : (turn opened line).length ≤ k) :
    Contained k opened (turn opened line) (write line) s := by
  refine contained_of_quiet (returning_write line s) nofun ⟨[line], rfl, ?_, fun _ _ => rfl⟩
    ⟨[], rfl, nofun⟩
  intro before hbefore
  rcases List.prefix_cons_iff.1 hbefore with rfl | ⟨rest, rfl, hrest⟩
  · exact hk
  · rwa [List.prefix_nil.1 hrest]

theorem contained_forM {f : α → Selecting Unit} {g : Graph} {stack : List (Option NodeId)}
    (hf : ∀ a s, s.context.graph = g → s.context.stack = stack → Contained k opened opened (f a) s)
    (xs : List α) (hgraph : s.context.graph = g) (hstack : s.context.stack = stack) :
    Contained k opened opened (xs.forM f) s := by
  induction xs generalizing s with
  | nil => exact contained_pure hk ()
  | cons x xs ih =>
    exact (hf x s hgraph hstack).bind fun _ s' _ hg hs => ih (hg.trans hgraph) (hs.trans hstack)

end

/-! ## Values -/

variable {g : Graph} {stack : List (Option NodeId)} {select : Selector} {value : Option NodeId}
  {t : NodeId}

theorem contained_selectMembers (hg : g.Ending) (hgraph : s.context.graph = g)
    (hstack : s.context.stack = stack) (htype : (g.node i).body.IsType)
    (hk : opened.length + (g.room stack - 1) ≤ k)
    (hselect : some i ∉ stack → ∀ value s, s.context.graph = g → s.context.stack = some i :: stack →
      Contained k opened opened (select value) s) :
    Contained k opened opened (selectMembers select i (g.node i)) s := by
  have hopened : opened.length ≤ k := by omega
  subst hgraph hstack
  refine contained_context_bind ?_
  split
  · exact (contained_lift hopened (hg.mention i)).bind fun _ _ _ _ _ => contained_log hopened _ _ _
  · next houtside =>
    have houtside : some i ∉ s.context.stack := by simpa using houtside
    have hselect := hselect houtside
    refine contained_within htype houtside ?_
    refine (contained_trace hopened _ _).bind fun _ s₁ _ hg₁ hs₁ => ?_
    extract_lets out
    have hout : ∀ u s, Contained k opened opened (out u) s := fun _ _ => contained_trace hopened _ _
    split
    · refine (contained_lift hopened ?_).bind fun u s₂ _ hg₂ hs₂ => ?_
      · exact (Graph.fails_unionOf _ i).mono fun _ hplain => hplain.2
      · exact (hselect _ _ (hg₂.trans hg₁) (hs₂.trans hs₁)).bind fun u s _ _ _ => hout u s
    · refine (contained_forM hopened (fun prop s hg hs => hselect _ s hg hs) _ hg₁ hs₁).bind ?_
      exact fun u s _ _ _ => hout u s

theorem contained_selectField (hg : g.Ending) (hgraph : s.context.graph = g)
    (hstack : s.context.stack = stack) (hk : opened.length + g.room stack ≤ k)
    (hselect : ∀ t, g.Targets (g.node i).valueType? t → (g.node t).body.IsType → some t ∉ stack →
      ∀ s, s.context.graph = g → s.context.stack = stack →
        Contained k (i :: opened) (i :: opened) (select (g.node i).valueType?) s) :
    Contained k opened opened (selectField select i (g.node i)) s := by
  have hopened : opened.length ≤ k := by omega
  subst hgraph hstack
  refine contained_context_bind ?_
  refine (contained_lift hopened (hg.isCompound _)).bind fun compound s₁ hs₁ _ _ => ?_
  obtain ⟨hcompound, rfl⟩ := eq_ok_of_lift hs₁
  have hname : Fails (· ≠ .endless) (nameOf (s.context.graph.node i)) :=
    (fails_nameOf _).mono fun _ hplain => hplain.2
  split
  · next htrue =>
    rw [htrue, Graph.isCompound_eq_true_iff] at hcompound
    refine (contained_lift hopened (hg.selectionTarget _)).bind fun target s₂ hs₂ _ _ => ?_
    obtain ⟨htarget, rfl⟩ := eq_ok_of_lift hs₂
    split
    · exact contained_throw hopened nofun
    · next t =>
      rw [Graph.selectionTarget_eq_iff] at htarget
      have htype := Graph.IsCompound.isType hcompound htarget
      split
      · exact (contained_lift hopened (hg.mention t)).bind fun _ _ _ _ _ => contained_log hopened _ _ _
      · next houtside =>
        have houtside : some t ∉ s.context.stack := by simpa using houtside
        have hroom := Graph.room_cons htype houtside
        have hmore : (i :: opened).length ≤ k := by
          rw [List.length_cons]
          omega
        refine (contained_lift hopened hname).bind fun name s₃ _ hg₃ hs₃ => ?_
        refine (contained_write hopened (.opening i _ name) hmore).bind fun _ s₄ _ hg₄ hs₄ => ?_
        have hvalue := hselect t htarget htype houtside s₄ (hg₄.trans hg₃) (hs₄.trans hs₃)
        exact hvalue.bind fun _ _ _ _ _ => contained_write hmore (.closing i _) hopened
  · exact (contained_lift hopened hname).bind fun name _ _ _ _ =>
      contained_write hopened (.leaf i _ name) hopened

/-- Twice as much depth as there are objects and compositions to go into is enough for a value that
leads to one of them, and one more for any other. -/
theorem contained_selectWithin (hg : g.Ending) (depth : Nat) (hgraph : s.context.graph = g)
    (hstack : s.context.stack = stack) :
    (2 * g.room stack + 1 ≤ depth → opened.length + g.room stack ≤ k →
      Contained k opened opened (selectWithin depth value) s) ∧
    (∀ t, g.Targets value t → (g.node t).body.IsType → 2 * g.room stack ≤ depth → 1 ≤ depth →
      opened.length + (g.room stack - 1) ≤ k →
      Contained k opened opened (selectWithin depth value) s) := by
  induction depth generalizing stack opened value s with
  | zero =>
    constructor
    · intro h
      omega
    · intro t _ _ _ h
      omega
  | succ depth ih =>
    -- the nodes below an object or composition are selected where there is one fewer to go into
    have hmembers : ∀ t, (g.node t).body.IsType → 2 * g.room stack ≤ depth + 1 →
        opened.length + (g.room stack - 1) ≤ k →
        Contained k opened opened (selectMembers (selectWithin depth) t (g.node t)) s := by
      intro t htype hdepth hk
      refine contained_selectMembers hg hgraph hstack htype hk fun houtside value s' hg' hs' => ?_
      have hroom := Graph.room_cons htype houtside
      exact (ih hg' hs').1 (by omega) (by omega)
    have htarget : ∀ opened, opened.length ≤ k → Contained k opened opened
        (lift (s.context.graph.selectionTarget value)) s := fun _ h => by
      rw [hgraph]
      exact contained_lift h (hg.selectionTarget value)
    constructor
    · intro hdepth hk
      have hopened : opened.length ≤ k := by omega
      refine contained_context_bind ((htarget opened hopened).bind fun target s₁ hs₁ _ _ => ?_)
      obtain ⟨-, rfl⟩ := eq_ok_of_lift hs₁
      split
      · exact contained_throw hopened nofun
      · next i =>
        rw [hgraph]
        dsimp only
        rcases hbody : (g.node i).body with _ | _ | _ | _ | _ | ⟨kind, parts⟩ | _ | _ | _
        · exact contained_throw hopened nofun
        · exact contained_pure hopened ()
        · exact hmembers i (.inl hbody) (by omega) (by omega)
        · exact contained_pure hopened ()
        · exact contained_pure hopened ()
        · exact hmembers i (.inr ⟨kind, parts, hbody⟩) (by omega) (by omega)
        · exact contained_pure hopened ()
        · refine contained_selectField hg hgraph hstack hk fun t ht htype houtside s' hg' hs' => ?_
          have hroom := Graph.room_cons htype houtside
          refine (ih hg' hs').2 t ht htype (by omega) (by omega) ?_
          rw [List.length_cons]
          omega
        · exact contained_pure hopened ()
    · intro t ht htype hdepth _ hk
      have hopened : opened.length ≤ k := by omega
      refine contained_context_bind ((htarget opened hopened).bind fun target s₁ hs₁ _ _ => ?_)
      obtain ⟨htarget, rfl⟩ := eq_ok_of_lift hs₁
      rw [hgraph, Graph.selectionTarget_eq_iff.2 ht] at htarget
      cases htarget
      have := hmembers t htype (by omega) hk
      rw [hgraph]
      obtain hbody | ⟨kind, parts, hbody⟩ := htype <;> simpa only [hbody] using this

/-- A selection is contained, with at most one pair of braces for each object and composition that the
run is not inside of. -/
theorem contained_select (hg : s.context.graph.Ending) (value : Option NodeId) :
    Contained (s.context.graph.room s.context.stack) [] [] (Selecting.select value) s := by
  have hroom : s.context.graph.room s.context.stack ≤ _ := Graph.room_le_typeCount
  have hsize := s.context.graph.typeCount_le_size
  refine contained_context_bind ?_
  exact (contained_selectWithin hg _ rfl rfl).1 (by omega) (by simp)

end Selecting

namespace Conversion

open Selecting

variable {d : Document} {config : Config} {oracle : Oracle} {root : Option NodeId} {c : Context}
  {s : SelectionDraft}

/-- After any visit that left no value that is unwrapped for ever, the selection of any node comes to an
end, in whichever nodes the run is inside of: no way down is longer than twice the number of objects and
compositions, and one. At every moment the nodes that were gone into and not out of are different objects
and compositions that the run was not inside of before, and before each line at most as many braces are
open as there are objects and compositions. -/
theorem bounded_select (h : Milestone d config oracle root c) (hends : ∀ i, ¬c.graph.Endless i)
    (hgraph : s.context.graph = c.graph) (i : NodeId) :
    outcome (select (some i)) s ≠ .error .endless ∧
    (∀ depth, 2 * c.graph.typeCount + 1 ≤ depth →
      outcome (selectWithin depth (some i)) s ≠ .error .endless) ∧
    (∃ new, (after (select (some i)) s).context.transcript = new ++ s.context.transcript ∧
      ∀ t, t <:+ new → c.graph.Over s.context.stack (Transcript.insideFrom s.context.stack t)) ∧
    ∃ ls, (after (select (some i)) s).lines = s.lines ++ ls ∧
      ∀ before, before <+: ls → (around [] before).length ≤ c.graph.typeCount := by
  obtain ⟨A, q, hrest, -⟩ := atRest_of_milestone h
  have hending := hrest.ending hends
  rw [← hgraph] at hending ⊢
  have hroom : s.context.graph.room s.context.stack ≤ _ := Graph.room_le_typeCount
  have hselect := contained_select hending (some i)
  obtain ⟨new, hnew, -, hover⟩ := hselect.moments
  obtain ⟨ls, hls, hbraces, -⟩ := hselect.lines
  refine ⟨hselect.ends, ?_, ⟨new, hnew, hover⟩, ls, hls, ?_⟩
  · intro depth hdepth
    have hbounded : Contained (s.context.graph.room s.context.stack) [] [] (selectWithin depth (some i)) s :=
      (contained_selectWithin hending depth rfl rfl).1 (by omega) (by simp)
    exact hbounded.ends
  · intro before hbefore
    exact (hbraces before hbefore).trans hroom

/-- The selection of an owner that has a pet that has an owner. -/
theorem bounded_select_ownersAndPets :
    let resolve : Run Unit := ["#/components/schemas/Owner", "#/components/schemas/Pet"].forM fun ref => do
      let _ ← Visit.resolveRef Visit.ownersAndPets none (.str ref)
    let c := after resolve (start Oracle.always)
    Milestone Visit.ownersAndPets {} Oracle.always none c ∧ (∀ i, ¬c.graph.Endless i) ∧
      c.graph.typeCount = 2 ∧
      (after (select (some ⟨0⟩)) { context := c }).lines = [.opening ⟨1⟩ 1 "pet", .closing ⟨1⟩ 1] ∧
      outcome (select (some ⟨0⟩)) { context := c } ≠ .error .endless := by
  intro resolve c
  have hschemas : (Visit.ownersAndPets.schemas.toOption.map keys) =
      some ["#/components/schemas/Owner", "#/components/schemas/Pet"] := by decide +kernel
  obtain ⟨schemas, hschemas, hkeys⟩ := Option.map_eq_some_iff.1 hschemas
  have hrun : resolve (start Oracle.always) = .ok () c := eq_ok_of_toOption_outcome (by decide +kernel)
  have hmilestone : Milestone Visit.ownersAndPets {} Oracle.always none c :=
    .resolved (eq_ok_of_toOption hschemas) (hkeys.trans (List.append_nil _).symm) hrun
  have hnone : ∀ j < c.graph.size, c.graph.inner? ⟨j⟩ = none := by decide +kernel
  have hends : ∀ i, ¬c.graph.Endless i := Graph.not_endless_of_rank (fun _ => 0) fun j k hk => by
    rw [hnone j.index (Graph.lt_size_of_inner? hk)] at hk
    cases hk
  have hcount : c.graph.typeCount = 2 := by decide +kernel
  have hlines : (after (select (some ⟨0⟩)) { context := c }).lines =
      [.opening ⟨1⟩ 1 "pet", .closing ⟨1⟩ 1] := by decide +kernel
  have hbounded := bounded_select (s := { context := c }) hmilestone hends rfl ⟨0⟩
  exact ⟨hmilestone, hends, hcount, hlines, hbounded.1⟩

end Conversion

end ApiGraph
