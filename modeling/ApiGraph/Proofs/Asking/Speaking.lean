import ApiGraph.Proofs.Asking.Rounds

/-!
# The questions of one round

Once the properties of the members are collected, nothing comes between the questions about them.

* `Context.Says` — questions are put and answered, without a step into a node or out of one;
* `Context.Speaks`, `Context.Breaks` — a list of questions is answered to the end, or it breaks off;
* `Visit.selectEach_cases`, `Visit.select_cases` — the questions about candidates one by one, and the
  whole round.
-/

namespace ApiGraph

open OrderedMap Visit

variable {c c' c'' : Context} {qs qs' : List Question} {as as' : List Answer} {xs ys : List Inquiry}

namespace Context

/-- Questions are put, all inside of the same nodes, and answers are given. -/
structure Says (c c' : Context) (qs : List Question) (as : List Answer) : Prop extends c.Spoke c' where
  asked : c'.transcript.posed = c.transcript.posed ++ qs.map fun q => (q, c.stack)
  answered : c'.answers = c.answers ++ as

/-- Questions are put, and all are answered. -/
def Speaks (c c' : Context) (xs : List Inquiry) : Prop :=
  c.Says c' (xs.map Inquiry.question) (xs.map Inquiry.answer)

/-- Questions are put one after the other, until one is not answered or not put. -/
def Breaks (c c' : Context) (xs : List Inquiry) : Prop :=
  ∃ qs as, c.Says c' qs as ∧ qs <+: xs.map Inquiry.question ∧ as <+: xs.map Inquiry.answer ∧
    (qs.length = as.length ∨ qs.length = as.length + 1) ∧ as.length < xs.length

theorem Says.refl (c : Context) : c.Says c [] [] :=
  ⟨.refl c, (List.append_nil _).symm, (List.append_nil _).symm⟩

theorem Says.trans (h : c.Says c' qs as) (h' : c'.Says c'' qs' as') :
    c.Says c'' (qs ++ qs') (as ++ as') := by
  refine ⟨h.toSpoke.trans h'.toSpoke, ?_, ?_⟩
  · rw [h'.asked, h.asked, h.stack, List.map_append, List.append_assoc]
  · rw [h'.answered, h.answered, List.append_assoc]

theorem Says.inStep (h : c.Says c' qs as) (hstep : c.InStep) : c'.InStep :=
  h.toSpoke.retained.inStep hstep

theorem Says.told_suffix (h : c.Says c' qs as) : c.transcript <:+ c'.transcript :=
  h.toSpoke.retained.told

theorem Speaks.told_suffix (h : c.Speaks c' xs) : c.transcript <:+ c'.transcript :=
  Says.told_suffix h

theorem Breaks.told_suffix (h : c.Breaks c' xs) : c.transcript <:+ c'.transcript := by
  obtain ⟨_, _, hsaid, -⟩ := h
  exact hsaid.told_suffix

theorem Speaks.trans (h : c.Speaks c' xs) (h' : c'.Speaks c'' ys) : c.Speaks c'' (xs ++ ys) := by
  have hsaid := Says.trans h h'
  rwa [← List.map_append, ← List.map_append] at hsaid

theorem Speaks.breaks (h : c.Speaks c' xs) (h' : c'.Breaks c'' ys) : c.Breaks c'' (xs ++ ys) := by
  obtain ⟨qs, as, hsaid, hqs, has, hlength, hleft⟩ := h'
  refine ⟨_, _, Says.trans h hsaid, ?_, ?_, ?_, ?_⟩
  · rw [List.map_append]
    exact (List.prefix_append_right_inj _).2 hqs
  · rw [List.map_append]
    exact (List.prefix_append_right_inj _).2 has
  · simp only [List.length_append, List.length_map]
    omega
  · simp only [List.length_append, List.length_map]
    omega

/-- Nothing more is said. -/
theorem breaks_refl (c : Context) {x : Inquiry} : c.Breaks c (x :: xs) :=
  ⟨[], [], .refl c, List.nil_prefix, List.nil_prefix, .inl rfl, Nat.succ_pos _⟩

/-- A question that is put and not answered. -/
theorem breaks_of_asked {x : Inquiry} (h : c.Says c' [x.question] []) : c.Breaks c' (x :: xs) :=
  ⟨_, _, h, ⟨xs.map Inquiry.question, rfl⟩, List.nil_prefix, .inr rfl, Nat.succ_pos _⟩

end Context

/-! ## One question -/

/-- What an oracle says besides its answer is no part of the dialogue. -/
theorem Oracle.isSpoken_of_mem_events {q : Question} {o : Oracle} {e : Event}
    (h : e ∈ (o.respond q).events.reverse) : e.isSpoken = false := by
  have := isMute_of_mem_events (List.mem_reverse.1 h)
  cases e <;> first | rfl | cases this

theorem posed_asked (q : Question) (hstep : c.InStep) :
    Transcript.posed ((c.oracle.respond q).events.reverse ++ .asked q :: c.transcript) =
      c.transcript.posed ++ [(q, c.stack)] := by
  rw [Transcript.posed_append fun _ => Oracle.isSpoken_of_mem_events, hstep]
  rfl

/-- A question is put, and it is answered unless the oracle fails. -/
theorem ask_cases (q : Question) (hstep : c.InStep) :
    (∃ a c', Run.ask q c = .ok a c' ∧ c.Says c' [q] [a] ∧ .asked q :: c.transcript <:+ c'.transcript) ∨
    ∃ fault c', Run.ask q c = .error fault c' ∧ c.Says c' [q] [] ∧
      .asked q :: c.transcript <:+ c'.transcript := by
  have hspoke := spoke_ask q c
  have hanswers : Transcript.answers ((c.oracle.respond q).events.reverse ++ .asked q :: c.transcript) =
      c.answers := by
    rw [Transcript.answers_append fun _ => Oracle.isSpoken_of_mem_events, Transcript.answers,
      List.reverse_cons, List.filterMap_append]
    exact List.append_nil _
  cases hr : (c.oracle.respond q).result with
  | ok a =>
    have hask := Run.ask_eq_ok hr
    rw [after_of_ok hask] at hspoke
    refine .inl ⟨a, _, hask, ⟨hspoke, posed_asked q hstep, ?_⟩, .answered a :: _, rfl⟩
    rw [← hanswers, Context.answers, Transcript.answers, List.reverse_cons, List.filterMap_append]
    rfl
  | error fault =>
    have hask := Run.ask_eq_error hr
    rw [after_of_error hask] at hspoke
    exact .inr ⟨fault, _, hask, ⟨hspoke, posed_asked q hstep, by rw [List.append_nil]; exact hanswers⟩,
      (c.oracle.respond q).events.reverse, rfl⟩

/-! ## Names in questions -/

/-- A property in words begins with its name. -/
theorem describe_eq {g : Graph} {i : NodeId} {name words : String} (hname : (g.node i).name = .str name)
    (h : g.describe i = .ok words) : ∃ type, words = name ++ ": " ++ type := by
  have hdisplay : (g.node i).name.display = name := by
    rw [hname]
    rfl
  simp only [Graph.describe, hdisplay] at h
  split at h
  · split at h
    · cases h
      exact ⟨_, rfl⟩
    · cases h
  · next slot _ _ =>
    cases hword : g.typeWord slot.type with
    | error fault =>
      rw [hword] at h
      cases h
    | ok type =>
      rw [hword] at h
      cases h
      exact ⟨type, rfl⟩
  · cases h

/-- The names that are listed are the keys. -/
theorem entries_of_joinNames {separator text : String} {m : OrderedMap Key NodeId}
    (h : Graph.joinNames separator m = .ok text) : ∃ entries : List (String × NodeId),
      m = entries.map (Prod.map Key.text id) ∧ text = separator.intercalate (entries.map Prod.fst) := by
  obtain ⟨names, hnames, htext⟩ := Attempt.bind_eq_ok_iff.1 h
  have hall := Attempt.forall₂_of_mapM_eq_ok hnames
  cases htext
  clear h hnames
  suffices hentries : ∃ entries : List (String × NodeId),
      m = entries.map (Prod.map Key.text id) ∧ names = entries.map Prod.fst by
    obtain ⟨entries, hm, rfl⟩ := hentries
    exact ⟨entries, hm, rfl⟩
  induction hall with
  | nil => exact ⟨[], rfl, rfl⟩
  | @cons e name rest names he _ ih =>
    obtain ⟨entries, rfl, rfl⟩ := ih
    obtain ⟨key, i⟩ := e
    cases key with
    | text t =>
      obtain rfl : t = name := Except.ok.inj he
      exact ⟨(t, i) :: entries, rfl, rfl⟩
    | _ => cases he

/-! ## Rounds -/

/-- The candidates of a round are certain properties, which are called by the keys. -/
structure Round.Covers (r : Round) (c : Context) (collected : OrderedMap Key NodeId) : Prop where
  entries : r.candidates.map Candidate.entry = collected
  nonempty : r.candidates ≠ []
  called : ∀ a ∈ r.candidates, (c.graph.node a.property).name = .str a.name

theorem Round.Covers.distinct_kept {r : Round} {collected : OrderedMap Key NodeId}
    (h : r.Covers c collected) (hdistinct : Distinct (keys collected)) :
    Distinct (keys (r.kept.map Candidate.entry)) := by
  rw [← h.entries] at hdistinct
  exact hdistinct.sublist ((r.kept_sublist.map Candidate.entry).map Prod.fst)

namespace Visit

/-- Candidates are asked about one by one, each under its name. -/
theorem selectEach_cases {entries : List (String × NodeId)} (node : NodeId) (hstep : c.InStep)
    (hcalled : ∀ e ∈ entries, (c.graph.node e.2).name = .str e.1) :
    ∃ candidates : List Candidate,
      candidates.map (fun a => (a.name, a.property)) = entries ∧
      ((∃ c', selectEach (entries.map Prod.snd) c =
          .ok ((candidates.filter fun a => a.reply == .yes).map Candidate.property) c' ∧
        c.Speaks c' (candidates.map (Candidate.inquiry node))) ∨
      ∃ fault c', selectEach (entries.map Prod.snd) c = .error fault c' ∧
        c.Breaks c' (candidates.map (Candidate.inquiry node))) := by
  -- where the questions break off, the other candidates may have been put in any words
  have hrest : ∀ entries : List (String × NodeId), (entries.map fun e => (⟨e.1, "", e.2, .no⟩ : Candidate)).map
      (fun a => (a.name, a.property)) = entries := fun entries => by simp [Function.comp_def]
  induction entries generalizing c with
  | nil => exact ⟨[], rfl, .inl ⟨c, rfl, .refl c⟩⟩
  | cons e rest ih =>
    obtain ⟨name, i⟩ := e
    obtain ⟨hname, hothers⟩ := List.forall_mem_cons.1 hcalled
    cases hwords : c.graph.describe i with
    | error fault =>
      refine ⟨_, hrest ((name, i) :: rest), .inr ⟨fault, c, ?_, c.breaks_refl⟩⟩
      refine bind_of_error ?_
      show Run.lift (c.graph.describe i) c = _
      rw [hwords]
      rfl
    | ok words =>
      obtain ⟨type, rfl⟩ := describe_eq hname hwords
      have hdescribe : Run.onGraph (fun g => g.describe i) c = .ok (name ++ ": " ++ type) c := by
        show Run.lift (c.graph.describe i) c = _
        rw [hwords]
        rfl
      let q : Question := ⟨.yesNo, "Add field '" ++ (name ++ ": " ++ type) ++ "'?"⟩
      rcases ask_cases q hstep with ⟨answer, c₁, hask, hsaid, -⟩ | ⟨fault, c₁, hask, hsaid, -⟩
      · have hyesNo : Run.askYesNo q.text c = .ok (answer == .yes) c₁ := bind_of_ok hask
        have hcalled₁ : ∀ e ∈ rest, (c₁.graph.node e.2).name = .str e.1 := by
          rw [hsaid.graph]
          exact hothers
        obtain ⟨candidates, hmap, hcases⟩ := ih (hsaid.inStep hstep) hcalled₁
        have hfirst : c.Speaks c₁ [Candidate.inquiry node ⟨name, type, i, answer⟩] := hsaid
        refine ⟨⟨name, type, i, answer⟩ :: candidates, by rw [List.map_cons, hmap], ?_⟩
        rcases hcases with ⟨c₂, hrun, hspeaks⟩ | ⟨fault, c₂, hrun, hbreaks⟩
        · refine .inl ⟨c₂, ?_, hfirst.trans hspeaks⟩
          rw [List.map_cons, selectEach, bind_of_ok hdescribe, bind_of_ok hyesNo, bind_of_ok hrun,
            List.filter_cons]
          dsimp only
          split <;> rfl
        · refine .inr ⟨fault, c₂, ?_, hfirst.breaks hbreaks⟩
          rw [List.map_cons, selectEach, bind_of_ok hdescribe, bind_of_ok hyesNo, bind_of_error hrun]
      · have hyesNo : Run.askYesNo q.text c = .error fault c₁ := bind_of_error hask
        refine ⟨⟨name, type, i, .no⟩ :: _, by rw [List.map_cons, hrest rest], .inr ⟨fault, c₁, ?_, ?_⟩⟩
        · rw [List.map_cons, selectEach, bind_of_ok hdescribe, bind_of_error hyesNo]
        · exact Context.breaks_of_asked (x := Candidate.inquiry node ⟨name, type, i, .no⟩) hsaid

/-- What is selected after an answer to the question about all candidates. -/
def chosen (collected : OrderedMap Key NodeId) : Answer → Run (List NodeId)
  | .yes => return values collected
  | .no => return []
  | .subset => selectEach (values collected)

theorem select_eq {i : NodeId} {collected : OrderedMap Key NodeId} {names : String}
    (hne : collected ≠ []) (hnames : Graph.joinNames ",\n - " collected = .ok names) (c : Context) :
    select i collected c = (Run.ask ⟨.yesNoSubset,
      allQuestion ((c.graph.node i).nameOr (c.graph.inlineOwner i)) names⟩ >>= chosen collected) c := by
  have hempty : ¬collected.isEmpty = true := fun h => hne (List.isEmpty_iff.1 h)
  rw [select, if_neg hempty, hnames]
  refine (bind_of_ok (m := Run.lift (.ok names)) rfl).trans ((bind_of_ok (m := get) rfl).trans ?_)
  refine congrArg (fun next => (Run.ask _ >>= next) c) (funext fun answer => ?_)
  cases answer <;> rfl

/-- All questions about what was collected make one round, which may break off. Nothing is asked when
there is nothing to choose, or something that has no name. -/
theorem select_cases {i : NodeId} {collected : OrderedMap Key NodeId} (hstep : c.InStep)
    (hcalled : ∀ e ∈ collected, c.graph.Called e) :
    (collected = [] ∧ select i collected c = .ok [] c) ∨
    (∃ fault, select i collected c = .error fault c) ∨
    ∃ r : Round, r.node = i ∧ r.Covers c collected ∧ ∃ c', .asked r.question :: c.transcript <:+ c'.transcript ∧
      (select i collected c = .ok (r.kept.map Candidate.property) c' ∧ c.Speaks c' r.inquiries ∨
      ∃ fault, select i collected c = .error fault c' ∧ c.Breaks c' r.inquiries) := by
  by_cases hempty : collected.isEmpty = true
  · have hnil := List.isEmpty_iff.1 hempty
    refine .inl ⟨hnil, ?_⟩
    rw [hnil]
    rfl
  have hne : collected ≠ [] := fun h => hempty (List.isEmpty_iff.2 h)
  cases hnames : Graph.joinNames ",\n - " collected with
  | error fault =>
    refine .inr (.inl ⟨fault, ?_⟩)
    rw [select, if_neg hempty, hnames]
    rfl
  | ok names =>
    obtain ⟨entries, hentries, rfl⟩ := entries_of_joinNames hnames
    let owner := (c.graph.node i).nameOr (c.graph.inlineOwner i)
    let q : Question := ⟨.yesNoSubset, allQuestion owner (",\n - ".intercalate (entries.map Prod.fst))⟩
    have hnamed : ∀ e ∈ entries, (c.graph.node e.2).name = .str e.1 := by
      intro e he
      refine hcalled (.text e.1, e.2) ?_ e.1 rfl
      rw [hentries]
      exact List.mem_map_of_mem he
    have hvalues : values collected = entries.map Prod.snd := by
      rw [hentries]
      simp [values, Function.comp_def]
    have hselect : select i collected c = (Run.ask q >>= chosen collected) c :=
      select_eq hne hnames c
    have hround : ∀ (candidates : List Candidate) (answer : Answer),
        candidates.map (fun a => (a.name, a.property)) = entries →
        (⟨i, owner, candidates, answer⟩ : Round).Covers c collected ∧
          (⟨i, owner, candidates, answer⟩ : Round).question = q := by
      rintro candidates answer rfl
      refine ⟨⟨?_, ?_, fun a ha => hnamed _ (List.mem_map_of_mem ha)⟩, ?_⟩
      · rw [hentries]
        simp [Candidate.entry, Function.comp_def]
      · rintro rfl
        exact hne (by rw [hentries]; rfl)
      · simp [Round.question, q, Function.comp_def]
    -- any words will do for candidates that are not asked about one by one
    let unasked := entries.map fun e => (⟨e.1, "", e.2, .no⟩ : Candidate)
    have hunasked : unasked.map (fun a => (a.name, a.property)) = entries := by
      simp [unasked, Function.comp_def]
    have hkept : values collected = unasked.map Candidate.property := by
      simp [hvalues, unasked, Function.comp_def]
    refine .inr (.inr ?_)
    rcases ask_cases q hstep with ⟨answer, c₁, hask, hsaid, htold⟩ | ⟨fault, c₁, hask, hsaid, htold⟩
    · rw [bind_of_ok hask] at hselect
      cases answer with
      | subset =>
        have hnamed₁ : ∀ e ∈ entries, (c₁.graph.node e.2).name = .str e.1 := by
          rw [hsaid.graph]
          exact hnamed
        obtain ⟨candidates, hmap, hcases⟩ := selectEach_cases i (hsaid.inStep hstep) hnamed₁
        obtain ⟨hcovers, hquestion⟩ := hround candidates .subset hmap
        refine ⟨⟨i, owner, candidates, .subset⟩, rfl, hcovers, ?_⟩
        rw [chosen, hvalues] at hselect
        have hfirst : c.Speaks c₁ [⟨Round.question ⟨i, owner, candidates, .subset⟩, [i], .subset⟩] := by
          rw [hquestion]
          exact hsaid
        rw [hquestion]
        rcases hcases with ⟨c₂, hrun, hspeaks⟩ | ⟨fault, c₂, hrun, hbreaks⟩
        · exact ⟨c₂, htold.trans hspeaks.told_suffix, .inl ⟨hselect.trans hrun, hfirst.trans hspeaks⟩⟩
        · exact ⟨c₂, htold.trans hbreaks.told_suffix, .inr ⟨fault, hselect.trans hrun, hfirst.breaks hbreaks⟩⟩
      | yes =>
        obtain ⟨hcovers, hquestion⟩ := hround unasked .yes hunasked
        refine ⟨⟨i, owner, unasked, .yes⟩, rfl, hcovers, c₁, by rwa [hquestion], .inl ⟨?_, ?_⟩⟩
        · rw [hselect, chosen, hkept]
          rfl
        · rw [Context.Speaks, Round.inquiries, hquestion]
          exact hsaid
      | no =>
        obtain ⟨hcovers, hquestion⟩ := hround unasked .no hunasked
        refine ⟨⟨i, owner, unasked, .no⟩, rfl, hcovers, c₁, by rwa [hquestion], .inl ⟨hselect, ?_⟩⟩
        rw [Context.Speaks, Round.inquiries, hquestion]
        exact hsaid
    · rw [bind_of_error hask] at hselect
      obtain ⟨hcovers, hquestion⟩ := hround unasked .no hunasked
      refine ⟨⟨i, owner, unasked, .no⟩, rfl, hcovers, c₁, by rwa [hquestion], .inr ⟨fault, hselect, ?_⟩⟩
      exact Context.breaks_of_asked (by rw [hquestion]; exact hsaid)

end Visit

end ApiGraph
