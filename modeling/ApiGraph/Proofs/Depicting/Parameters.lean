import Mathlib.Data.List.Forall2
import ApiGraph.Proofs.Depicting.Operations

/-!
# Parameters of operations

The parameters of a path and those of an operation are merged by name and location: each pair stands
where it occurs first, with what was declared for it last. The field of the operation takes an argument
for each that does not stand in the body of a request.

* `OrderedMap.Merged` — each key once, in the order of first occurrence, with the value bound last;
* `OrderedMap.merged_insertAll` — binding entries one by one merges them;
* `Document.Describes`, `Document.described?` — a parameter stands for a declaration with a name and a
  location;
* `Document.mergeParameters_eq_ok` — parameters that do are merged;
* `Conversion.merged_parameters` — the parameters of an operation, and the arguments of its field.
-/

namespace ApiGraph

open OrderedMap

/-! ## Merging -/

namespace OrderedMap

variable {κ κ' α : Type} [BEq κ] [BEq κ']

/-- Entries are merged: each key is bound once, in the order of first occurrence, to the value that it is
given last. -/
structure Merged (entries merged : OrderedMap κ α) : Prop where
  keys_eq : keys merged = (keys entries).eraseDups
  last : ∀ key a, (key, a) ∈ merged →
    ∃ before after, entries = before ++ (key, a) :: after ∧ key ∉ keys after

/-- What is bound in the end was bound last, or it was there before and not bound again. -/
theorem get?_insertAll_eq_some [LawfulBEq κ] {m more : OrderedMap κ α} {key : κ} {a : α}
    (h : get? key (insertAll m more) = some a) :
    (∃ before after, more = before ++ (key, a) :: after ∧ key ∉ keys after) ∨
      get? key m = some a ∧ key ∉ keys more := by
  induction more generalizing m with
  | nil => exact .inr ⟨h, List.not_mem_nil⟩
  | cons e rest ih =>
    obtain ⟨k, b⟩ := e
    rcases ih (m := insert k b m) h with ⟨before, after, rfl, hafter⟩ | ⟨hget, hrest⟩
    · exact .inl ⟨(k, b) :: before, after, rfl, hafter⟩
    · rw [get?_insert] at hget
      by_cases hk : k = key
      · subst hk
        rw [if_pos BEq.rfl] at hget
        cases hget
        exact .inl ⟨[], rest, rfl, hrest⟩
      · rw [if_neg (by simpa using hk)] at hget
        exact .inr ⟨hget, by simpa [keys, Ne.symm hk] using hrest⟩

theorem merged_insertAll [LawfulBEq κ] (entries : OrderedMap κ α) :
    Merged entries (insertAll [] entries) := by
  refine ⟨?_, fun key a hmem => ?_⟩
  · have hnew : (keys entries).filter (fun key => !contains key ([] : OrderedMap κ α)) = keys entries :=
      List.filter_eq_self.2 fun _ _ => rfl
    rw [keys_insertAll, hnew]
    rfl
  · have hdistinct : Distinct (keys (insertAll [] entries)) :=
      distinct_keys_insertAll (m := []) List.Pairwise.nil entries
    have hget := get?_of_mem hdistinct hmem
    exact (get?_insertAll_eq_some hget).resolve_right nofun

/-- Maps with keys in another form are extended in the same way. -/
theorem insert_map_keys {f : κ → κ'} (hf : ∀ a b, (f a == f b) = (a == b)) (key : κ) (a : α)
    (m : OrderedMap κ α) : insert (f key) a (m.map (Prod.map f id)) = (insert key a m).map (Prod.map f id) := by
  induction m with
  | nil => rfl
  | cons e rest ih =>
    obtain ⟨k, b⟩ := e
    have hstep : (((k, b) :: rest : OrderedMap κ α).map (Prod.map f id)) =
      (f k, b) :: rest.map (Prod.map f id) := rfl
    rw [hstep, insert, insert, hf]
    split
    · rfl
    · rw [ih]
      rfl

end OrderedMap

/-! ## Parameters -/

namespace Document

variable {d : Document} {pathLevel operationLevel : Json} {shared own ps : List Json}
  {declared : OrderedMap (String × String) Json.Members}

/-- A parameter stands for a declaration, by itself or by a reference, which has a name and a location. -/
def Describes (d : Document) (p : Json) (e : (String × String) × Json.Members) : Prop :=
  d.dereference p = .ok e.2 ∧ get? "name" e.2 = some (.str e.1.1) ∧ get? "in" e.2 = some (.str e.1.2)

/-- The declaration that a parameter stands for, under its name and location. -/
def described? (d : Document) (p : Json) : Option ((String × String) × Json.Members) := do
  let members ← (d.dereference p).toOption
  match get? "name" members, get? "in" members with
  | some (.str name), some (.str location) => some ((name, location), members)
  | _, _ => none

theorem described?_eq_some_iff {p : Json} {e : (String × String) × Json.Members} :
    d.described? p = some e ↔ d.Describes p e := by
  obtain ⟨⟨name, location⟩, members⟩ := e
  refine Option.bind_eq_some_iff.trans ?_
  constructor
  · rintro ⟨members', hmembers, hpair⟩
    split at hpair
    · next hname hlocation =>
      cases hpair
      exact ⟨Attempt.eq_ok_of_toOption hmembers, hname, hlocation⟩
    · cases hpair
  · rintro ⟨hmembers, hname, hlocation⟩
    exact ⟨members, by rw [hmembers]; rfl, by rw [hname, hlocation]⟩

instance (d : Document) (p : Json) : Decidable (∃ e, d.Describes p e) :=
  decidable_of_iff ((d.described? p).isSome = true) (by
    rw [Option.isSome_iff_exists]
    exact exists_congr fun e => described?_eq_some_iff)

/-- A name and a location as a key of parameters. -/
def pairKey (pair : String × String) : Key × Key := (.text pair.1, .text pair.2)

theorem pairKey_beq (a b : String × String) : (pairKey a == pairKey b) = (a == b) := by
  rw [pairKey, pairKey]
  exact congrArg₂ and (Key.text_beq_text a.1 b.1) (Key.text_beq_text a.2 b.2)

/-- Parameters are added to those with other names and locations, or take their places. -/
theorem addParameters_eq_ok (h : List.Forall₂ d.Describes ps declared)
    (merged : OrderedMap (String × String) Json.Members) :
    d.addParameters (merged.map (Prod.map pairKey id)) ps =
      .ok ((insertAll merged declared).map (Prod.map pairKey id)) := by
  induction h generalizing merged with
  | nil => rfl
  | @cons p e ps declared hp _ ih =>
    obtain ⟨hmembers, hname, hlocation⟩ := hp
    have hkey : parameterKey? e.2 = some (pairKey e.1) := by
      simp [parameterKey?, hname, hlocation, Json.key?, pairKey]
    rw [addParameters, hmembers]
    show (expect (parameterKey? e.2) >>= fun key =>
      d.addParameters (OrderedMap.insert key e.2 (merged.map (Prod.map pairKey id))) ps) = _
    rw [hkey]
    show d.addParameters (OrderedMap.insert (pairKey e.1) e.2 (merged.map (Prod.map pairKey id))) ps = _
    rw [insert_map_keys pairKey_beq, ih]
    rfl

theorem mergeParameters_eq_ok (hshared : parameterList pathLevel = .ok shared)
    (hown : parameterList operationLevel = .ok own) (h : List.Forall₂ d.Describes (shared ++ own) declared) :
    d.mergeParameters pathLevel operationLevel = .ok (values (insertAll [] declared)) := by
  have hmerged : d.addParameters [] (shared ++ own) = _ := addParameters_eq_ok h []
  rw [mergeParameters, hshared, hown]
  show (d.addParameters [] (shared ++ own) >>= fun merged => pure (values merged)) = _
  rw [hmerged]
  show Except.ok (values ((insertAll [] declared).map (Prod.map pairKey id))) = _
  rw [values, values, List.map_map]
  rfl

/-- The parameters that an operation has are those of its path and its own. -/
theorem parameters_of_operationOf {path method : String} {item operation : Json.Members} {op : Operation}
    (h : d.operationOf path method item (.obj operation) = .ok op) :
    d.mergeParameters (field "parameters" item) (field "parameters" operation) = .ok op.parameters := by
  obtain ⟨members, hmembers, h⟩ := Attempt.bind_eq_ok_iff.1 h
  cases hmembers
  obtain ⟨parameters, hparameters, h⟩ := Attempt.bind_eq_ok_iff.1 h
  obtain ⟨response, -, h⟩ := Attempt.bind_eq_ok_iff.1 h
  cases h
  exact hparameters

/-- Whether a parameter stands in the body of a request is told by its location. -/
theorem listedParameters_eq {op : Operation} {merged : OrderedMap (String × String) Json.Members}
    (hparameters : op.parameters = values merged)
    (hlocation : ∀ e ∈ merged, get? "in" e.2 = some (.str e.1.2)) :
    op.listedParameters = values (merged.filter fun e => e.1.2 ≠ "body") := by
  rw [Operation.listedParameters, hparameters, values, values, List.filter_map]
  refine congrArg _ (List.filter_congr fun e he => ?_)
  simp only [Function.comp_apply, field, hlocation e he, Option.getD_some, Json.isText]
  exact (decide_not (p := e.1.2 = "body")).symm

end Document

namespace Conversion

open Document

variable {d : Document} {item operation : Json.Members} {shared own : List Json}

/-- Parameters are merged without loss. If all parameters of a path and of an operation stand for
declarations with a name and a location, by themselves or by references, then the operation has one for
each pair of these, in the order in which the pairs occur first, those of the path before those of the
operation, and this is the one that was declared last for the pair. The field of the operation takes an
argument for each that does not stand in the body, in the same order: under its name, required just if it
says so, and of the type that its own schema declares, or what it says itself. -/
theorem merged_parameters (hshared : parameterList (field "parameters" item) = .ok shared)
    (hown : parameterList (field "parameters" operation) = .ok own)
    (hall : ∀ p ∈ shared ++ own, ∃ e, d.Describes p e) :
    ∃ declared merged : OrderedMap (String × String) Json.Members,
      List.Forall₂ d.Describes (shared ++ own) declared ∧ Merged declared merged ∧
      d.mergeParameters (field "parameters" item) (field "parameters" operation) = .ok (values merged) ∧
      ∀ path method op, d.operationOf path method item (.obj operation) = .ok op →
        op.parameters = values merged ∧
        ∀ query c i c', operationField query op c = .ok i c' →
          ∃ arguments, (c'.graph.node i).arguments = arguments.map some ∧
            List.Forall₂ c'.graph.Takes (values (merged.filter fun e => e.1.2 ≠ "body")) arguments := by
  obtain ⟨declared, hdeclared⟩ := exists_forall₂ hall
  have hmerge := mergeParameters_eq_ok hshared hown hdeclared
  have hmerged := merged_insertAll declared
  refine ⟨declared, insertAll [] declared, hdeclared, hmerged, hmerge,
    fun path method op hop => ?_⟩
  have hparameters : op.parameters = values (insertAll [] declared) :=
    Except.ok.inj ((parameters_of_operationOf hop).symm.trans hmerge)
  have hlocation : ∀ e ∈ insertAll [] declared, get? "in" e.2 = some (.str e.1.2) := by
    rintro ⟨pair, p⟩ he
    obtain ⟨before, after, hsplit, -⟩ := hmerged.last pair p he
    obtain ⟨q, -, hq⟩ := exists_of_forall₂_left hdeclared.flip
      (show (pair, p) ∈ declared by rw [hsplit]; simp)
    exact hq.2.2
  refine ⟨hparameters, fun query c i c' hfield => ?_⟩
  obtain ⟨slot, arguments, link, hbody, -, htakes⟩ := (serving_operationField hfield).serves.offers.body
  rw [listedParameters_eq hparameters hlocation] at htakes
  exact ⟨arguments, by rw [Node.arguments, hbody], htakes⟩

/-- A document with a parameter that paths may refer to. -/
def pagedPets : Document :=
  ⟨.obj [("components", .obj [("parameters", .obj [
    ("Limit", .obj [("name", .str "limit"), ("in", .str "query"),
      ("schema", .obj [("type", .str "string")])])])])]⟩

/-- An operation that declares the identifier of its path anew. -/
def pagedGet : Json.Members :=
  [("parameters", .arr [
    .obj [("name", .str "pet"), ("in", .str "body"), ("schema", .obj [("type", .str "object")])],
    .obj [("name", .str "id"), ("in", .str "path"), ("required", .bool true), ("type", .str "integer")],
    .obj [("name", .str "limit"), ("in", .str "header"), ("type", .str "string")]])]

/-- A path with an identifier, and with a limit that is declared twice. -/
def pagedPath : Json.Members :=
  [("parameters", .arr [
      .obj [("$ref", .str "#/components/parameters/Limit")],
      .obj [("name", .str "id"), ("in", .str "path"), ("schema", .obj [("type", .str "string")])],
      .obj [("name", .str "limit"), ("in", .str "query"), ("schema", .obj [("type", .str "integer")])]]),
    ("get", .obj pagedGet)]

/-- There are two limits, in the query and in the header. The one in the query is an integer, as it is
declared last, and the identifier is required, as the operation says. -/
theorem merged_parameters_pagedPets :
    ∃ op i c' arguments, pagedPets.operationOf "/pets" "get" pagedPath (.obj pagedGet) = .ok op ∧
      op.parameters.map (fun p => ((field "name" p).display, (field "in" p).display)) =
        [("limit", "query"), ("id", "path"), ("pet", "body"), ("limit", "header")] ∧
      operationField ⟨0⟩ op (start Oracle.always) = .ok i c' ∧
      (c'.graph.node i).arguments = arguments.map some ∧
      arguments.map (fun a => (c'.graph.node a).slot?.map fun slot =>
          (slot.isRequired, (slot.declaration.get? "type").map Json.display)) =
        [some (false, some "integer"), some (true, some "integer"), some (false, some "string")] ∧
      ∃ merged : OrderedMap (String × String) Json.Members, op.parameters = values merged ∧
        List.Forall₂ c'.graph.Takes (values (merged.filter fun e => e.1.2 ≠ "body")) arguments := by
  have hlists : ((parameterList (field "parameters" pagedPath)).toOption.bind fun shared =>
      (parameterList (field "parameters" pagedGet)).toOption.map fun own =>
        decide (∀ p ∈ shared ++ own, ∃ e, pagedPets.Describes p e)) = some true := by decide +kernel
  obtain ⟨shared, hshared, hlists⟩ := Option.bind_eq_some_iff.1 hlists
  obtain ⟨own, hown, hall⟩ := Option.map_eq_some_iff.1 hlists
  obtain ⟨-, merged, -, -, -, hops⟩ := merged_parameters
    (Attempt.eq_ok_of_toOption hshared) (Attempt.eq_ok_of_toOption hown) (of_decide_eq_true hall)
  -- the operation is read and its field is made at once
  let made : Run (Operation × NodeId) := do
    let op ← Run.lift (pagedPets.operationOf "/pets" "get" pagedPath (.obj pagedGet))
    let i ← operationField ⟨0⟩ op
    return (op, i)
  obtain ⟨⟨op, i⟩, hmade, hpairs⟩ : ∃ a, made (start Oracle.always) = .ok a _ ∧
      (a.1.parameters.map fun p => ((field "name" p).display, (field "in" p).display), a.2) =
        ([("limit", "query"), ("id", "path"), ("pet", "body"), ("limit", "header")], ⟨0⟩) :=
    exists_eq_ok_of_map_outcome (by decide +kernel)
  have harguments : ((after made (start Oracle.always)).graph.node ⟨0⟩).arguments.map (fun a =>
      ((after made (start Oracle.always)).graph.node (a.getD ⟨0⟩)).slot?.map fun slot =>
        (slot.isRequired, (slot.declaration.get? "type").map Json.display)) =
      [some (false, some "integer"), some (true, some "integer"), some (false, some "string")] := by
    decide +kernel
  generalize after made (start Oracle.always) = c' at hmade harguments
  obtain ⟨hpairs, rfl⟩ := Prod.mk.inj hpairs
  obtain ⟨op', c₁, hlift, hmade⟩ := bind_eq_ok_iff.1 hmade
  obtain ⟨hop, rfl⟩ := Visit.eq_ok_of_lift hlift
  obtain ⟨i, c₂, hfield, hmade⟩ := bind_eq_ok_iff.1 hmade
  cases hmade
  obtain ⟨hparameters, hfields⟩ := hops _ _ _ hop
  obtain ⟨arguments, hnodes, htakes⟩ := hfields _ _ _ _ hfield
  rw [hnodes, List.map_map] at harguments
  exact ⟨op, _, _, arguments, hop, hpairs, hfield, hnodes, harguments, merged, hparameters, htakes⟩

end Conversion

end ApiGraph
