import ApiGraph.Document.Basic
import ApiGraph.Naming
import ApiGraph.Proofs.Outcome
import ApiGraph.Proofs.Referring.Values

/-!
# References to what a document has

A reference spells a way of keys. What is written for a key is read back as that key, whatever
characters it has, so the declaration that is found is the one at the end of the way.

* `Pointer.ofKeys` — the reference to the end of a way;
* `Pointer.localKeys?_ofKeys`, `Pointer.lastSegment_ofKeys` — the two readers of references;
* `Document.Decodes` — what the reference to a way is looked up to;
* `Document.Catalogues` — what the list of named schemas says of them;
* `Document.decodes_and_catalogues` — all references are looked up so, in both dialects.
-/

namespace ApiGraph

open OrderedMap

namespace Pointer

/-- The reference to the end of a way of keys. -/
def ofKeys (keys : List String) : String := "#/" ++ "/".intercalate (keys.map escape)

/-! ## Pieces between slashes -/

theorem splitSlashes_of_notMem {piece : List Char} (h : '/' ∉ piece) :
    splitSlashes piece = [piece] := by
  induction piece with
  | nil => rfl
  | cons c rest ih =>
    obtain ⟨hc, hrest⟩ := List.ne_and_not_mem_of_not_mem_cons h
    rw [splitSlashes, ih hrest]
    · rfl
    · exact fun hslash => absurd hslash.symm hc

theorem splitSlashes_append {piece : List Char} (h : '/' ∉ piece) (rest : List Char) :
    splitSlashes (piece ++ '/' :: rest) = piece :: splitSlashes rest := by
  induction piece with
  | nil => rfl
  | cons c more ih =>
    obtain ⟨hc, hmore⟩ := List.ne_and_not_mem_of_not_mem_cons h
    rw [List.cons_append, splitSlashes, ih hmore]
    · rfl
    · exact fun hslash => absurd hslash.symm hc

/-- Pieces without slashes are got back from their join. -/
theorem splitSlashes_intercalate {pieces : List (List Char)} (hne : pieces ≠ [])
    (h : ∀ piece ∈ pieces, '/' ∉ piece) : splitSlashes (['/'].intercalate pieces) = pieces := by
  induction pieces with
  | nil => exact absurd rfl hne
  | cons piece rest ih =>
    obtain ⟨hpiece, hrest⟩ := List.forall_mem_cons.1 h
    cases rest with
    | nil => simpa using splitSlashes_of_notMem hpiece
    | cons next more =>
      have hjoin : ['/'].intercalate (piece :: next :: more) =
          piece ++ '/' :: ['/'].intercalate (next :: more) := by simp
      rw [hjoin, splitSlashes_append hpiece, ih (List.cons_ne_nil _ _) hrest]

/-! ## The two readers of references -/

theorem toList_ofKeys (keys : List String) :
    (ofKeys keys).toList = '#' :: '/' :: ['/'].intercalate (keys.map fun key => escapeChars key.toList) := by
  have hslash : "/".toList = ['/'] := rfl
  have hstart : "#/".toList = ['#', '/'] := rfl
  have hpieces : String.toList ∘ escape = fun key => escapeChars key.toList := by
    funext key
    exact String.toList_ofList
  rw [ofKeys, String.toList_append, String.toList_intercalate, hslash, hstart, List.map_map, hpieces]
  rfl

theorem splitSlashes_keys {keys : List String} (hne : keys ≠ []) :
    splitSlashes (['/'].intercalate (keys.map fun key => escapeChars key.toList)) =
      keys.map fun key => escapeChars key.toList := by
  refine splitSlashes_intercalate (by simpa using hne) fun piece hpiece => ?_
  obtain ⟨key, -, rfl⟩ := List.mem_map.1 hpiece
  exact slash_not_mem_escapeChars key.toList

/-- The keys that a reference was made of are read back. -/
theorem localKeys?_ofKeys {keys : List String} (hne : keys ≠ []) :
    localKeys? (ofKeys keys) = some keys := by
  have hread : ∀ key : String, unescape (String.ofList (escapeChars key.toList)) = key :=
    fun key => unescape_escape key
  rw [localKeys?, toList_ofKeys]
  simp only [splitSlashes_keys hne, List.map_map, Function.comp_def, hread, List.map_id']

/-- What stands after the last slash is the last key. -/
theorem lastSegment_ofKeys (way : List String) (key : String) :
    lastSegment (ofKeys (way ++ [key])) = escape key := by
  have hmark : '/' ∉ ['#'] := by decide
  rw [lastSegment, toList_ofKeys]
  rw [← List.singleton_append, splitSlashes_append hmark,
    splitSlashes_keys (List.append_ne_nil_of_right_ne_nil _ (List.cons_ne_nil _ _)), List.map_append,
    ← List.cons_append, List.map_singleton, List.getLastD_concat]
  rfl

theorem ofKeys_injective {keys keys' : List String} (hne : keys ≠ []) (hne' : keys' ≠ [])
    (h : ofKeys keys = ofKeys keys') : keys = keys' := by
  have hread := congrArg localKeys? h
  rw [localKeys?_ofKeys hne, localKeys?_ofKeys hne'] at hread
  exact Option.some.inj hread

end Pointer

/-- The type name for a reference is the one for the name that it ends with. -/
theorem typeName_ofKeys (way : List String) (name : String) :
    typeName (Pointer.ofKeys (way ++ [name])) = typeNameOfKey name := by
  rw [typeName, Pointer.lastSegment_ofKeys, Pointer.unescape_escape]

namespace Document

open Pointer

variable {d : Document} {keys way : List String} {v w : Json} {members : Json.Members}

/-! ## Lookup -/

theorem follow_eq_some_iff : follow v keys = some w ↔ v.Reaches keys w := by
  induction keys generalizing v with
  | nil =>
    constructor
    · intro h
      cases h
      exact .refl _
    · intro h
      cases h
      rfl
  | cons key rest ih =>
    rw [Json.reaches_cons_iff, follow]
    cases v with
    | obj members =>
      cases hget : OrderedMap.get? key members with
      | none => simp [Json.get?, hget]
      | some next => simp [Json.get?, hget, ih]
    | _ => simp [Json.get?]

/-- What the reference to a way is looked up to. -/
structure Decodes (d : Document) (keys : List String) : Prop where
  /-- The declaration at the end of the way. -/
  declaration : ∀ {members}, d.raw.Reaches keys (.obj members) → d.lookup (ofKeys keys) = .ok members
  /-- A value on the way that has no such key, or that is no object. -/
  broken : ∀ {before key after v}, keys = before ++ key :: after → d.raw.Reaches before v →
    (∀ members, v = .obj members → key ∉ OrderedMap.keys members) →
      d.lookup (ofKeys keys) = .error (.danglingReference (ofKeys keys))
  /-- A value at the end of the way that is no object. -/
  single : ∀ {v}, d.raw.Reaches keys v → v.isObject = false →
    d.lookup (ofKeys keys) = .error (.notADeclaration (ofKeys keys))

/-- A way that is broken ends nowhere. -/
theorem not_reaches_of_broken {before after : List String} {key : String} {u : Json}
    (hbefore : u.Reaches before v) (hv : ∀ members, v = .obj members → key ∉ OrderedMap.keys members) :
    ¬u.Reaches (before ++ key :: after) w := by
  induction hbefore with
  | refl v =>
    intro h
    obtain ⟨members, next, rfl, hget, -⟩ := Json.reaches_cons_iff.1 h
    rw [get?_eq_none_iff.2 (hv members rfl)] at hget
    cases hget
  | member found _ ih =>
    intro h
    obtain ⟨members', next, hobj, hget, hrest⟩ := Json.reaches_cons_iff.1 h
    cases hobj
    rw [found] at hget
    cases hget
    exact ih hv hrest

theorem decodes (d : Document) (hne : keys ≠ []) : d.Decodes keys where
  declaration h := by
    simp only [lookup, localKeys?_ofKeys hne, follow_eq_some_iff.2 h]
  broken := by
    rintro before key after v rfl hbefore hv
    have hnone : follow d.raw (before ++ key :: after) = none := by
      rw [Option.eq_none_iff_forall_ne_some]
      exact fun w hw => not_reaches_of_broken hbefore hv (follow_eq_some_iff.1 hw)
    simp only [lookup, localKeys?_ofKeys hne, hnone]
  single := by
    intro v h hv
    simp only [lookup, localKeys?_ofKeys hne, follow_eq_some_iff.2 h]
    cases v with
    | obj members => cases hv
    | _ => rfl

/-! ## Named schemas -/

/-- What the list of named schemas says of the declarations at a place of a document. -/
structure Catalogues (d : Document) (way : List String) (schemas : OrderedMap String Json) : Prop where
  /-- They are all there, in order. -/
  listed : ∀ {members}, d.raw.Reaches way (.obj members) →
    schemas = members.map fun e => (ofKeys (way ++ [e.1]), e.2)
  /-- And there are no others. -/
  reached : ∀ {ref schema}, (ref, schema) ∈ schemas →
    ∃ name, ref = ofKeys (way ++ [name]) ∧ d.raw.Reaches (way ++ [name]) schema
  nodup : (OrderedMap.keys schemas).Nodup
  declaration : ∀ {ref members}, (ref, .obj members) ∈ schemas → d.lookup ref = .ok members
  single : ∀ {ref schema}, (ref, schema) ∈ schemas → schema.isObject = false →
    d.lookup ref = .error (.notADeclaration ref)
  typeName : ∀ {name schema}, (ofKeys (way ++ [name]), schema) ∈ schemas →
    typeName (ofKeys (way ++ [name])) = typeNameOfKey name

theorem ofKeys_snoc_injective (way : List String) {name name' : String}
    (h : ofKeys (way ++ [name]) = ofKeys (way ++ [name'])) : name = name' := by
  have hne : ∀ name, way ++ [name] ≠ [] := fun name => by simp
  exact List.singleton_inj.1 (List.append_cancel_left (ofKeys_injective (hne name) (hne name') h))

/-- The members of an object are listed under their references. -/
theorem catalogues_map (hraw : d.raw.Proper) (h : d.raw.Reaches way (.obj members)) :
    d.Catalogues way (members.map fun e => (ofKeys (way ++ [e.1]), e.2)) := by
  have hdistinct := (Json.proper_obj_iff.1 (hraw.reaches h)).1
  have hreached : ∀ {ref schema}, (ref, schema) ∈ (members.map fun e => (ofKeys (way ++ [e.1]), e.2)) →
      ∃ name, ref = ofKeys (way ++ [name]) ∧ d.raw.Reaches (way ++ [name]) schema := by
    intro ref schema hmem
    obtain ⟨⟨name, schema'⟩, hentry, heq⟩ := List.mem_map.1 hmem
    cases heq
    exact ⟨name, rfl, h.snoc (get?_of_mem hdistinct hentry)⟩
  refine ⟨fun h' => ?_, hreached, ?_, fun hmem => ?_, fun hmem hsingle => ?_, fun _ => ?_⟩
  · cases h.unique h'
    rfl
  · have hkeys : OrderedMap.keys (members.map fun e => (ofKeys (way ++ [e.1]), e.2)) =
        (OrderedMap.keys members).map fun name => ofKeys (way ++ [name]) := by
      simp [OrderedMap.keys, List.map_map, Function.comp_def]
    rw [hkeys, List.Nodup, List.pairwise_map]
    refine List.Pairwise.imp (fun hne heq => ?_) hdistinct
    rw [ofKeys_snoc_injective way heq, beq_self_eq_true] at hne
    cases hne
  · obtain ⟨name, rfl, hname⟩ := hreached hmem
    exact (d.decodes (by simp)).declaration hname
  · obtain ⟨name, rfl, hname⟩ := hreached hmem
    exact (d.decodes (by simp)).single hname hsingle
  · exact typeName_ofKeys way _

/-- The members of the object at a place; there are none where there is no object. -/
def HasAt (d : Document) (way : List String) (members : Json.Members) : Prop :=
  d.raw.Reaches way (.obj members) ∨
    (members = [] ∧ ∀ members, ¬d.raw.Reaches way (.obj members))

/-- One key further. -/
theorem HasAt.snoc {key : String} {declared : Json.Members} (h : d.HasAt way members)
    (hmembers : membersOf (field key members) = .ok declared) : d.HasAt (way ++ [key]) declared := by
  have hvalue : field key members = .obj declared ∨
      (declared = [] ∧ ∀ more, field key members ≠ .obj more) := by
    rw [membersOf.eq_def] at hmembers
    split at hmembers
    · next heq =>
      cases hmembers
      exact .inl heq
    · next hnone =>
      split at hmembers
      · cases hmembers
      · cases hmembers
        exact .inr ⟨rfl, hnone⟩
  rcases h with h | ⟨rfl, hnone⟩
  · rcases hvalue with hvalue | ⟨rfl, hother⟩
    · refine .inl (h.snoc ?_)
      cases hget : OrderedMap.get? key members with
      | none => simp [field, hget] at hvalue
      | some v => simpa [field, hget] using hvalue
    · refine .inr ⟨rfl, fun more hmore => ?_⟩
      obtain ⟨between, hbetween, hget⟩ := Json.reaches_snoc_iff.1 hmore
      cases h.unique hbetween
      exact hother more (by rw [field, hget]; rfl)
  · rcases hvalue with hvalue | ⟨rfl, -⟩
    · cases hvalue
    · refine .inr ⟨rfl, fun more hmore => ?_⟩
      obtain ⟨between, hbetween, -⟩ := Json.reaches_snoc_iff.1 hmore
      exact hnone between hbetween

theorem HasAt.catalogues (hraw : d.raw.Proper) (h : d.HasAt way members) :
    d.Catalogues way (members.map fun e => (ofKeys (way ++ [e.1]), e.2)) := by
  rcases h with h | ⟨rfl, hnone⟩
  · exact catalogues_map hraw h
  · exact ⟨fun h => absurd h (hnone _), by simp, List.Pairwise.nil, by simp, by simp, by simp⟩

theorem ofKeys_definitions (name : String) :
    ofKeys (["definitions"] ++ [name]) = "#/definitions/" ++ escape name := by
  have hkey : escape "definitions" = "definitions" := by decide +kernel
  apply String.toList_injective
  simp [ofKeys, hkey]

theorem ofKeys_componentSchemas (name : String) :
    ofKeys (["components", "schemas"] ++ [name]) = "#/components/schemas/" ++ escape name := by
  have hkeys : escape "components" = "components" ∧ escape "schemas" = "schemas" := by decide +kernel
  apply String.toList_injective
  simp [ofKeys, hkeys]

/-- The older dialect has its declarations in one place and the newer one in another. -/
theorem schemas_cases {schemas : OrderedMap String Json} (h : d.schemas = .ok schemas) :
    ∃ top declared way, d.raw = .obj top ∧ d.HasAt way declared ∧
      schemas = (declared.map fun e => (ofKeys (way ++ [e.1]), e.2)) ∧
      way = if OrderedMap.contains "swagger" top then ["definitions"] else ["components", "schemas"] := by
  obtain ⟨swagger, hswagger, h⟩ := Attempt.bind_eq_ok_iff.1 h
  obtain ⟨top, htop, h⟩ := Attempt.bind_eq_ok_iff.1 h
  have hraw : d.raw = .obj top := by
    cases hraw : d.raw with
    | obj members => rw [hraw] at htop; cases htop; rfl
    | _ => rw [hraw] at htop; cases htop
  have hat : d.HasAt [] top := .inl (hraw ▸ .refl _)
  have hdialect : OrderedMap.contains "swagger" top = swagger := by
    rw [isSwagger, hraw] at hswagger
    exact Except.ok.inj hswagger
  cases swagger with
  | true =>
    obtain ⟨declared, hdeclared, h⟩ := Attempt.bind_eq_ok_iff.1 h
    cases h
    refine ⟨top, declared, _, hraw, hat.snoc hdeclared, ?_, by rw [hdialect]; rfl⟩
    exact List.map_congr_left fun e _ => Prod.ext (ofKeys_definitions e.1).symm rfl
  | false =>
    obtain ⟨components, hcomponents, h⟩ := Attempt.bind_eq_ok_iff.1 h
    obtain ⟨declared, hdeclared, h⟩ := Attempt.bind_eq_ok_iff.1 h
    cases h
    refine ⟨top, declared, _, hraw, (hat.snoc hcomponents).snoc hdeclared, ?_, by rw [hdialect]; rfl⟩
    exact List.map_congr_left fun e _ => Prod.ext (ofKeys_componentSchemas e.1).symm rfl

/-- The reference to a way is looked up to the declaration at its end, and to a fault where there is
none. The named schemas are listed once each, in order, under the references to them. -/
theorem decodes_and_catalogues {d : Document} (hraw : d.raw.Proper) :
    (∀ keys : List String, keys ≠ [] → d.Decodes keys) ∧
      ∀ schemas, d.schemas = .ok schemas →
        ((∃ v, d.raw.Reaches ["swagger"] v) → d.Catalogues ["definitions"] schemas) ∧
          ((¬∃ v, d.raw.Reaches ["swagger"] v) → d.Catalogues ["components", "schemas"] schemas) := by
  refine ⟨fun keys hne => d.decodes hne, fun schemas hschemas => ?_⟩
  obtain ⟨top, declared, way, htop, hat, rfl, hway⟩ := schemas_cases hschemas
  have hdialect : OrderedMap.contains "swagger" top = true ↔ ∃ v, d.raw.Reaches ["swagger"] v := by
    rw [OrderedMap.contains, Option.isSome_iff_exists, htop]
    constructor
    · rintro ⟨v, hv⟩
      exact ⟨v, .member hv (.refl v)⟩
    · rintro ⟨v, h⟩
      obtain ⟨members, u, hobj, hget, -⟩ := Json.reaches_cons_iff.1 h
      cases hobj
      exact ⟨u, hget⟩
  constructor
  · intro h
    rw [if_pos (hdialect.2 h)] at hway
    exact hway ▸ hat.catalogues hraw
  · intro h
    rw [if_neg (fun hswagger => h (hdialect.1 hswagger))] at hway
    exact hway ▸ hat.catalogues hraw

/-- Documents that are read from a text have each key once in each object. -/
theorem proper_ofJson {text : String} (h : Json.read? text = some v) : (ofJson v).raw.Proper := by
  rw [ofJson, Json.orElse]
  split
  · exact Json.proper_of_read? h
  · exact Json.proper_obj_nil

/-- A document with names that a reference has to spell in another way. -/
def awkward : Document :=
  ⟨.obj [("components", .obj [("schemas", .obj [("", .obj []), ("~", .obj []),
    ("a/b", .obj [("type", .str "integer")]), ("~1", .obj [("type", .str "string")]), ("~01", .null)])])]⟩

theorem proper_awkward : awkward.raw.Proper := by
  have hnil : (Json.obj []).Proper := Json.proper_obj_nil
  simp [awkward, Json.proper_obj_iff, hnil, Distinct, OrderedMap.keys, Json.proper_str, Json.proper_null]

/-- The name `~1` is not taken for a slash. -/
theorem decodes_awkward : awkward.raw.Proper ∧
    awkward.lookup (ofKeys ["components", "schemas", "~1"]) = .ok [("type", .str "string")] ∧
    (∃ schemas, awkward.schemas = .ok schemas ∧ awkward.Catalogues ["components", "schemas"] schemas) := by
  have hall := decodes_and_catalogues proper_awkward
  refine ⟨proper_awkward, (hall.1 _ (by simp)).declaration ?_, _, rfl, (hall.2 _ rfl).2 ?_⟩
  · exact .member rfl (.member rfl (.member rfl (.refl _)))
  · rintro ⟨v, h⟩
    obtain ⟨members, u, hobj, hget, -⟩ := Json.reaches_cons_iff.1 h
    cases hobj
    cases hget

end Document

end ApiGraph
