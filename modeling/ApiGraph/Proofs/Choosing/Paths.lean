import ApiGraph.Document.Operation
import ApiGraph.Proofs.Depicting.Nodes
import ApiGraph.Proofs.Referring.Pointers

/-!
# Operations by method and path

No two operations of a document have the same text, so that one of them can be told from all others by
the question whether to visit it.

* `Operation.eq_of_text_eq` — the text of an operation says its method and its path;
* `Document.Declared` — what the operations of a path have in common;
* `Document.nodup_texts` — the texts of the operations of a document.
-/

namespace ApiGraph

open OrderedMap

/-- A text is split in one way only at the first place of a letter. -/
theorem append_cons_injective {α : Type} {x : α} {as bs ps qs : List α} (ha : x ∉ as) (hb : x ∉ bs)
    (h : as ++ x :: ps = bs ++ x :: qs) : as = bs ∧ ps = qs := by
  induction as generalizing bs with
  | nil =>
    cases bs with
    | nil => exact ⟨rfl, (List.cons.inj h).2⟩
    | cons b bs => exact absurd (List.mem_cons.2 (.inl (List.cons.inj h).1)) hb
  | cons a as ih =>
    cases bs with
    | nil => exact absurd (List.mem_cons.2 (.inl (List.cons.inj h).1.symm)) ha
    | cons b bs =>
      obtain ⟨rfl, hrest⟩ := List.cons.inj h
      obtain ⟨rfl, rfl⟩ := ih (mt (List.mem_cons_of_mem a) ha) (mt (List.mem_cons_of_mem a) hb) hrest
      exact ⟨rfl, rfl⟩

/-- The text of an operation says its method and its path. -/
theorem Operation.eq_of_text_eq {op op' : Operation} (hop : op.method ∈ Document.knownMethods)
    (hop' : op'.method ∈ Document.knownMethods) (h : op.text = op'.text) :
    op.method = op'.method ∧ op.path = op'.path := by
  have hblank : ∀ m ∈ Document.knownMethods, ' ' ∉ m.toList.map capital := by decide
  have hcapitals : ∀ m ∈ Document.knownMethods, ∀ m' ∈ Document.knownMethods,
      m.toList.map capital = m'.toList.map capital → m = m' := by decide
  have htexts : op.method.toList.map capital ++ ' ' :: op.path.toList =
      op'.method.toList.map capital ++ ' ' :: op'.path.toList := by
    simpa [text] using congrArg String.toList h
  obtain ⟨hmethod, hpath⟩ := append_cons_injective (hblank _ hop) (hblank _ hop') htexts
  exact ⟨hcapitals _ hop _ hop' hmethod, String.toList_injective hpath⟩

namespace Document

variable {d : Document} {way wanted : List String} {path method : String} {members item : Json.Members}
  {value declared methods : Json} {op : Operation} {operations : List Operation}

/-- The members of an object in a proper document. -/
theorem HasAt.proper (hraw : d.raw.Proper) (h : d.HasAt way members) : (Json.obj members).Proper := by
  rcases h with h | ⟨rfl, -⟩
  · exact hraw.reaches h
  · exact Json.proper_obj_nil

theorem proper_of_lookupValue (hraw : d.raw.Proper) (h : d.lookupValue value = .ok members) :
    (Json.obj members).Proper := by
  cases value with
  | str ref =>
    rw [lookupValue, lookup] at h
    split at h
    · cases h
    · split at h
      · cases h
      · next hfollow =>
        cases h
        exact hraw.reaches (follow_eq_some_iff.1 hfollow)
      · cases h
  | _ => cases h

theorem proper_of_dereference (hraw : d.raw.Proper) (hvalue : value.Proper)
    (h : d.dereference value = .ok members) : (Json.obj members).Proper := by
  cases value with
  | obj own =>
    rw [dereference] at h
    split at h
    · exact proper_of_lookupValue hraw h
    · cases h
      exact hvalue
  | _ => cases h

/-! ## Operations of a path -/

theorem place_of_operationOf (h : d.operationOf path method item declared = .ok op) :
    op.path = path ∧ op.method = method := by
  obtain ⟨operation, -, h⟩ := Attempt.bind_eq_ok_iff.1 h
  obtain ⟨parameters, -, h⟩ := Attempt.bind_eq_ok_iff.1 h
  obtain ⟨response, -, h⟩ := Attempt.bind_eq_ok_iff.1 h
  cases h
  exact ⟨rfl, rfl⟩

/-- Operations of a path, one for each of some known methods. -/
structure Declared (path : String) (operations : List Operation) : Prop where
  path : ∀ op ∈ operations, op.path = path
  known : ∀ op ∈ operations, op.method ∈ knownMethods
  nodup : (operations.map Operation.method).Nodup

/-- Operations have the methods that they were declared for. -/
theorem methods_of_operationOf {entries : Json.Members}
    (h : List.Forall₂ (fun e op => d.operationOf path e.1 item e.2 = .ok op) entries operations) :
    operations.map Operation.method = keys entries := by
  induction h with
  | nil => rfl
  | cons hop _ ih => exact congrArg₂ List.cons (place_of_operationOf hop).2 ih

theorem declared_operationsOfPath (hitem : (Json.obj item).Proper)
    (h : d.operationsOfPath wanted path item = .ok operations) : Declared path operations := by
  have hsides := Attempt.forall₂_of_mapM_eq_ok h
  refine ⟨fun op hop => ?_, fun op hop => ?_, ?_⟩
  · obtain ⟨e, -, he⟩ := exists_of_forall₂_left hsides.flip hop
    exact (place_of_operationOf he).1
  · obtain ⟨e, he, hop⟩ := exists_of_forall₂_left hsides.flip hop
    have hknown := (List.mem_filter.1 he).2
    rw [(place_of_operationOf hop).2]
    simp only [Bool.and_eq_true, List.contains_iff_mem] at hknown
    exact hknown.1
  · rw [methods_of_operationOf hsides]
    have hdistinct := (Json.proper_obj_iff.1 hitem).1
    refine List.Nodup.sublist (List.filter_sublist.map Prod.fst) ?_
    exact hdistinct.imp fun hne => by simpa using hne

/-- Operations of one path have different texts. -/
theorem Declared.nodup_texts (h : Declared path operations) : (operations.map Operation.text).Nodup := by
  have hnodup := List.pairwise_map.1 h.nodup
  refine List.pairwise_map.2 (hnodup.imp_of_mem fun hop hop' hne htext => hne ?_)
  exact (Operation.eq_of_text_eq (h.known _ hop) (h.known _ hop') htext).1

/-! ## All operations -/

/-- Operations of different paths have different texts. -/
theorem nodup_texts_flatten {paths : Json.Members} {found : List (List Operation)}
    (hpaths : Distinct (keys paths)) (h : List.Forall₂ (fun e ops => Declared e.1 ops) paths found) :
    (found.flatten.map Operation.text).Nodup := by
  induction h with
  | nil => exact List.nodup_nil
  | @cons e ops rest more he hmore ih =>
    obtain ⟨hfirst, hrest⟩ := List.pairwise_cons.1 hpaths
    rw [List.flatten_cons, List.map_append]
    refine List.nodup_append.2 ⟨he.nodup_texts, ih hrest, fun text htext text' htext' heq => ?_⟩
    obtain ⟨op, hop, rfl⟩ := List.mem_map.1 htext
    obtain ⟨op', hop', rfl⟩ := List.mem_map.1 htext'
    obtain ⟨ops', hops', hop'⟩ := List.mem_flatten.1 hop'
    obtain ⟨e', he', hdeclared⟩ := exists_of_forall₂_left hmore.flip hops'
    have hpath := (Operation.eq_of_text_eq (hdeclared.known op' hop') (he.known op hop) heq.symm).2
    rw [hdeclared.path op' hop', he.path op hop] at hpath
    have hne := hfirst e'.1 (List.mem_map_of_mem he')
    rw [hpath, beq_self_eq_true] at hne
    cases hne

/-- No two operations of a document have the same text. -/
theorem nodup_texts (hraw : d.raw.Proper) (h : d.operations methods = .ok operations) :
    (operations.map Operation.text).Nodup := by
  obtain ⟨wanted, -, h⟩ := Attempt.bind_eq_ok_iff.1 h
  obtain ⟨top, htop, h⟩ := Attempt.bind_eq_ok_iff.1 h
  obtain ⟨paths, hpaths, h⟩ := Attempt.bind_eq_ok_iff.1 h
  obtain ⟨found, hfound, h⟩ := Attempt.bind_eq_ok_iff.1 h
  cases h
  have hat : d.HasAt [] top := by
    refine .inl ?_
    cases hobject : d.raw with
    | obj members =>
      rw [hobject] at htop
      cases htop
      exact .refl _
    | _ =>
      rw [hobject] at htop
      cases htop
  obtain ⟨hdistinct, hproper⟩ := Json.proper_obj_iff.1 ((hat.snoc hpaths).proper hraw)
  refine nodup_texts_flatten hdistinct ?_
  have hsides := (List.forall₂_and_left _ _).2 ⟨hproper, Attempt.forall₂_of_mapM_eq_ok hfound⟩
  refine hsides.imp fun e ops he => ?_
  obtain ⟨hvalue, he⟩ := he
  obtain ⟨item, hitem, hops⟩ := Attempt.bind_eq_ok_iff.1 he
  exact declared_operationsOfPath (proper_of_dereference hraw hvalue hitem) hops

end Document

end ApiGraph
