import ApiGraph.Conversion
import ApiGraph.Proofs.Outcome

/-!
# Faults of reading

Which faults the values can end with that are read off a document or a graph. None is the end of the
operator's input, which only an oracle meets, and only walks along links can go on without end.

* `Fault.Plain`, `Fault.OfWalk` — faults that are neither, and faults that may be of a walk;
* `fails_operations`, `fails_read` and their like — documents and schemas have plain faults only;
* `fails_isCompound`, `fails_identity` and their like — walks along links.
-/

namespace ApiGraph

open Attempt

/-- A fault that is neither the end of the input nor a walk without end. -/
def Fault.Plain (fault : Fault) : Prop := fault ≠ .inputEnded ∧ fault ≠ .endless

/-- A fault that is not the end of the input. -/
def Fault.OfWalk (fault : Fault) : Prop := fault ≠ .inputEnded

theorem Fault.Plain.ofWalk {fault : Fault} (h : fault.Plain) : fault.OfWalk := h.1

theorem plain_malformed : Fault.malformed.Plain := ⟨nofun, nofun⟩

theorem ofWalk_malformed : Fault.malformed.OfWalk := nofun

section

variable {α : Type}

theorem fails_expect_plain (a : Option α) : Fails Fault.Plain (expect a) :=
  fails_expect plain_malformed a

theorem fails_expect_ofWalk (a : Option α) : Fails Fault.OfWalk (expect a) :=
  fails_expect ofWalk_malformed a

end

/-! ## Documents -/

theorem fails_has (word : String) (v : Json) : Fails Fault.Plain (v.has word) := by
  cases v <;> simp [Json.has, Fault.Plain]

theorem fails_elements (v : Json) : Fails Fault.Plain v.elements := by
  cases v <;> simp [Json.elements, Fault.Plain]

namespace Document

theorem fails_lookup (d : Document) (ref : String) : Fails Fault.Plain (d.lookup ref) := by
  unfold lookup
  split
  · simp [Fault.Plain]
  · split <;> simp [Fault.Plain]

theorem fails_lookupValue (d : Document) (ref : Json) : Fails Fault.Plain (d.lookupValue ref) := by
  cases ref with
  | str s => exact fails_lookup d s
  | _ => simp [lookupValue, Fault.Plain]

theorem fails_dereference (d : Document) (v : Json) : Fails Fault.Plain (d.dereference v) := by
  cases v with
  | obj members =>
    simp only [dereference]
    split
    · exact fails_lookupValue d _
    · exact fails_ok _
  | _ => simp [dereference, Fault.Plain]

theorem fails_membersOf (v : Json) : Fails Fault.Plain (membersOf v) := by
  unfold membersOf
  split
  · exact fails_ok _
  · split <;> simp [Fault.Plain]

theorem fails_schemas (d : Document) : Fails Fault.Plain d.schemas := by
  unfold schemas
  refine (fails_has _ _).bind fun swagger => (fails_expect_plain _).bind fun top => ?_
  split
  · exact (fails_membersOf _).bind fun _ => fails_pure _
  · exact (fails_membersOf _).bind fun _ => (fails_membersOf _).bind fun _ => fails_pure _

theorem fails_wantedMethods (methods : Json) : Fails Fault.Plain (wantedMethods methods) := by
  unfold wantedMethods
  split
  · refine (fails_elements _).bind fun elements => Fails.mapM (fun v => ?_) _
    cases v <;> simp [Fault.Plain]
  · exact fails_ok _

theorem fails_addParameters (d : Document) (merged : OrderedMap (Key × Key) Json.Members)
    (ps : List Json) : Fails Fault.Plain (d.addParameters merged ps) := by
  induction ps generalizing merged with
  | nil => exact fails_ok _
  | cons p rest ih =>
    exact (fails_dereference d p).bind fun _ => (fails_expect_plain _).bind fun _ => ih _

theorem fails_mergeParameters (d : Document) (pathLevel operationLevel : Json) :
    Fails Fault.Plain (d.mergeParameters pathLevel operationLevel) := by
  refine (fails_elements _).bind fun shared => (fails_elements _).bind fun own => ?_
  exact (fails_addParameters d _ _).bind fun _ => fails_pure _

theorem fails_answerFor (responses code : Json) : Fails Fault.Plain (answerFor responses code) := by
  unfold answerFor
  split
  · exact fails_expect_plain _
  · exact fails_expect_plain _
  · simp [Fault.Plain]

theorem fails_schemaOfAnswer (d : Document) (answer : Json) :
    Fails Fault.Plain (d.schemaOfAnswer answer) := by
  refine (fails_dereference d answer).bind fun response => ?_
  split
  · exact fails_pure _
  · refine (fails_membersOf _).bind fun content => ?_
    dsimp only
    split
    · refine (fails_has _ _).bind fun has => ?_
      split
      · exact (fails_expect_plain _).bind fun _ => fails_pure _
      · exact fails_pure _
    · exact fails_pure _

theorem fails_firstSchema (d : Document) (responses : Json) (codes : List Json) :
    Fails Fault.Plain (d.firstSchema responses codes) := by
  induction codes with
  | nil => exact fails_ok _
  | cons code rest ih =>
    refine (fails_answerFor _ _).bind fun answer => (fails_schemaOfAnswer d _).bind fun found => ?_
    cases found with
    | none => exact ih
    | some schema => exact fails_pure _

theorem fails_responseSchema (d : Document) (operation : Json.Members) :
    Fails Fault.Plain (d.responseSchema operation) := by
  refine (fails_elements _).bind fun codes => (fails_has _ _).bind fun hasDefault => ?_
  exact fails_firstSchema d _ _

theorem fails_operationOf (d : Document) (path method : String) (item : Json.Members)
    (declared : Json) : Fails Fault.Plain (d.operationOf path method item declared) := by
  refine (fails_expect_plain _).bind fun operation => (fails_mergeParameters d _ _).bind fun _ => ?_
  exact (fails_responseSchema d _).bind fun _ => fails_pure _

theorem fails_operations (d : Document) (methods : Json) :
    Fails Fault.Plain (d.operations methods) := by
  refine (fails_wantedMethods _).bind fun wanted => (fails_expect_plain _).bind fun top => ?_
  refine (fails_membersOf _).bind fun paths => Fails.bind ?_ fun _ => fails_pure _
  refine Fails.mapM (fun entry => (fails_dereference d _).bind fun item => ?_) _
  exact Fails.mapM (fun entry => fails_operationOf d _ _ _ _) _

end Document

/-! ## Schemas -/

namespace Schema

theorem fails_requiredNames (value : Json) : Fails Fault.Plain (requiredNames value) := by
  refine (fails_elements _).bind fun elements => ?_
  split <;> simp [Fault.Plain]

theorem fails_effectiveType (owner : String) (members : Json.Members) :
    Fails Fault.Plain (effectiveType owner members) := by
  unfold effectiveType
  extract_lets declared rest
  have hrest : ∀ type, Fails Fault.Plain (rest type) := by
    intro type
    dsimp only [rest]
    split <;> exact fails_pure _
  clear_value declared
  split
  · split
    · exact (fails_ok _).bind hrest
    · exact (fails_error_iff.2 ⟨(by simp), (by simp)⟩).bind hrest
  · exact (fails_ok _).bind hrest

theorem fails_scalarOf (owner : String) (type : Json) : Fails Fault.Plain (scalarOf owner type) := by
  unfold scalarOf
  split
  · exact fails_ok _
  · simp [Fault.Plain]
  · simp [Fault.Plain]
  · split
    · split <;> simp [Fault.Plain]
    · simp [Fault.Plain]

theorem fails_ofMembers (owner : String) (members : Json.Members) :
    Fails Fault.Plain (Form.ofMembers owner members) := by
  unfold Form.ofMembers
  split
  · exact fails_ok _
  · split
    · exact fails_ok _
    · exact fails_ok _
    · split
      · simp [Fault.Plain]
      · refine (fails_effectiveType _ _).bind fun type => ?_
        split
        · exact fails_pure _
        · split
          · exact (fails_requiredNames _).bind fun _ => fails_pure _
          · exact (fails_scalarOf _ _).bind fun _ => fails_pure _

mutual

/-- A declaration is refused by a plain fault. -/
theorem fails_read (owner : String) : ∀ v, Fails Fault.Plain (read owner v)
  | .obj members => by
    rw [read]
    split
    · next h => exact fails_error_iff.2 (fails_ofMembers owner members _ h)
    · exact fails_ok _
    · exact (fails_readItems owner members).map
    · exact (fails_readProperties _ members).map
  | .null | .bool _ | .int _ | .float _ | .str _ | .arr _ => by simp [read, Fault.Plain]

theorem fails_readItems (owner : String) :
    ∀ members : List (String × Json), Fails Fault.Plain (readItems owner members)
  | [] => by simp [readItems, Fault.Plain]
  | (key, value) :: rest => by
    rw [readItems]
    split
    · split
      · exact fails_read owner value
      · simp [Fault.Plain]
    · exact fails_readItems owner rest

theorem fails_readProperties (required : List String) :
    ∀ members : List (String × Json), Fails Fault.Plain (readProperties required members)
  | [] => fails_ok _
  | (key, value) :: rest => by
    unfold readProperties
    split
    · split
      · exact fails_readEach required _
      · split <;> simp [Fault.Plain]
    · exact fails_readProperties required rest

theorem fails_readEach (required : List String) :
    ∀ declared : List (String × Json), Fails Fault.Plain (readEach required declared)
  | [] => fails_ok _
  | (name, declaration) :: rest => by
    rw [readEach]
    split
    · next h => exact fails_error_iff.2 (fails_read name declaration _ h)
    · exact (fails_readEach required rest).map

end

end Schema

/-! ## Walks along links -/

namespace Graph

theorem fails_joinNames (separator : String) (props : OrderedMap Key NodeId) :
    Fails Fault.Plain (joinNames separator props) := by
  refine Fails.bind (Fails.mapM (fun entry => ?_) props) fun _ => fails_pure _
  split <;> simp [Fault.Plain]

theorem fails_typeWord (g : Graph) (type : Option NodeId) : Fails Fault.Plain (g.typeWord type) := by
  unfold typeWord
  split
  · exact fails_ok _
  · split
    · split <;> simp [Fault.Plain]
    · exact fails_ok _
    · exact fails_ok _

theorem fails_describe (g : Graph) (i : NodeId) : Fails Fault.Plain (g.describe i) := by
  unfold describe
  dsimp only
  split
  · split <;> simp [Fault.Plain]
  · exact (fails_typeWord g _).bind fun _ => fails_pure _
  · simp [Fault.Plain]

theorem fails_simpleName (n : Node) : Fails Fault.Plain n.simpleName := by
  unfold Node.simpleName
  split
  · exact fails_ok _
  · split <;> simp [Fault.Plain]

section

variable {P : Fault → Prop} (h : P .malformed)

include h

/-- What is asked about a choice fails only where the choice has not got its shape. -/
theorem fails_unionVariant_of (g : Graph) (i : NodeId) : Fails P (g.unionVariant i) := by
  unfold unionVariant
  dsimp only
  split
  · exact fails_expect h _
  · exact fails_error_iff.2 h

theorem fails_unionOf_of (g : Graph) (i : NodeId) : Fails P (g.unionOf i) := by
  unfold unionOf
  dsimp only
  split
  · exact fails_expect h _
  · exact fails_error_iff.2 h

theorem fails_oneOfVariant_of (g : Graph) (i : NodeId) : Fails P (g.oneOfVariant i) :=
  (fails_unionOf_of h g i).bind fun _ => (fails_expect h _).bind fun _ => fails_unionVariant_of h g _

end

theorem fails_unionVariant (g : Graph) (i : NodeId) : Fails Fault.Plain (g.unionVariant i) :=
  fails_unionVariant_of plain_malformed g i

theorem fails_unionOf (g : Graph) (i : NodeId) : Fails Fault.Plain (g.unionOf i) :=
  fails_unionOf_of plain_malformed g i

theorem fails_oneOfVariant (g : Graph) (i : NodeId) : Fails Fault.Plain (g.oneOfVariant i) :=
  fails_oneOfVariant_of plain_malformed g i

theorem fails_propertiesOf (g : Graph) (i : NodeId) : Fails Fault.OfWalk (g.propertiesOf i) := by
  unfold propertiesOf
  generalize g.size + 1 = steps
  induction steps generalizing i with
  | zero => simp [propertiesWithin, Fault.OfWalk]
  | succ steps ih =>
    rw [propertiesWithin]
    split
    · exact ih _
    all_goals exact fails_ok _

theorem fails_isCompound (g : Graph) (i : Option NodeId) : Fails Fault.OfWalk (g.isCompound i) := by
  unfold isCompound
  generalize g.size + 2 = steps
  induction steps generalizing i with
  | zero => simp [isCompoundWithin, Fault.OfWalk]
  | succ steps ih =>
    cases i with
    | none => exact fails_ok _
    | some i =>
      rw [isCompoundWithin]
      split
      · exact ih _
      · exact ih _
      · exact ((fails_unionVariant g i).mono fun _ h => h.ofWalk).bind fun _ => ih _
      · exact ((fails_oneOfVariant g i).mono fun _ h => h.ofWalk).bind fun _ => ih _
      all_goals exact fails_ok _

theorem fails_selectionTarget (g : Graph) (i : Option NodeId) :
    Fails Fault.OfWalk (g.selectionTarget i) := by
  unfold selectionTarget
  generalize g.size + 2 = steps
  induction steps generalizing i with
  | zero => simp [selectionTargetWithin, Fault.OfWalk]
  | succ steps ih =>
    cases i with
    | none => exact fails_ok _
    | some i =>
      rw [selectionTargetWithin]
      split
      · exact ih _
      · exact ih _
      · exact ((fails_unionVariant g i).mono fun _ h => h.ofWalk).bind fun _ => ih _
      · exact fails_ok _

theorem fails_identity (g : Graph) (i : NodeId) : Fails Fault.OfWalk (g.identity i) := by
  unfold identity
  generalize g.size + 1 = steps
  induction steps generalizing i with
  | zero => simp [identityWithin, Fault.OfWalk]
  | succ steps ih =>
    have below : ∀ j : Option NodeId,
        Fails Fault.OfWalk (do g.identityWithin steps (← expect j)) := fun j =>
      (fails_expect_ofWalk j).bind fun k => ih k
    rw [identityWithin]
    dsimp only
    split
    · simp [Fault.OfWalk]
    · split
      · simp [Fault.OfWalk]
      · exact fails_ok _
      · split
        · exact fails_ok _
        · exact ((fails_joinNames _ _).mono fun _ h => h.ofWalk).bind fun _ => fails_pure _
      · exact (below _).bind fun _ => fails_pure _
      · exact (Fails.mapM below _).bind fun _ => fails_pure _
      · exact (Fails.mapM below _).bind fun _ => fails_pure _
      all_goals exact fails_ok _

end Graph

/-! ## Conversions -/

theorem Conversion.fails_fieldNameOf (op : Operation) :
    Fails Fault.Plain (Conversion.fieldNameOf op) := by
  unfold Conversion.fieldNameOf
  split
  · split <;> simp [Fault.Plain]
  · exact fails_ok _

theorem Conversion.fails_wantedOperations (d : Document) (config : Config) :
    Fails Fault.Plain (Conversion.wantedOperations d config) :=
  (fails_expect_plain _).bind fun _ => Document.fails_operations d _

namespace Drafting

theorem fails_scalarFor (config : Config) (p : Primitive) : Fails Fault.Plain (scalarFor config p) :=
  (fails_expect_plain _).bind fun _ => (fails_expect_plain _).bind fun _ => fails_pure _

theorem fails_textOf (v : Json) : Fails Fault.Plain (textOf v) := by
  cases v <;> simp [textOf, Fault.Plain]

theorem fails_wordsOf (v : Json) : Fails Fault.Plain (wordsOf v) := by
  unfold wordsOf
  split
  · exact fails_ok _
  · split <;> simp [Fault.Plain]

theorem fails_inlineTarget (g : Graph) (steps : Nat) (i : Option NodeId) :
    Fails Fault.OfWalk (inlineTarget g steps i) := by
  induction steps generalizing i with
  | zero => simp [inlineTarget, Fault.OfWalk]
  | succ steps ih =>
    cases i with
    | none => exact fails_ok _
    | some i =>
      rw [inlineTarget]
      split
      · exact ih _
      · exact ((g.fails_unionVariant i).mono fun _ h => h.ofWalk).bind fun _ => ih _
      · split
        · exact ((g.fails_oneOfVariant i).mono fun _ h => h.ofWalk).bind fun _ => ih _
        · exact fails_ok _
      · exact fails_ok _

theorem fails_variantOf (g : Graph) (i : NodeId) : Fails Fault.Plain (variantOf g i) := by
  unfold variantOf
  split
  · exact g.fails_oneOfVariant i
  · exact g.fails_unionVariant i
  · exact fails_ok _

end Drafting

namespace Selecting

theorem fails_mention (g : Graph) (i : NodeId) : Fails Fault.OfWalk (mention g i) := by
  unfold mention
  dsimp only
  split
  · exact fails_ok _
  · exact g.fails_identity i

theorem fails_nameOf (n : Node) : Fails Fault.Plain (nameOf n) := by
  unfold nameOf
  split <;> simp [Fault.Plain]

end Selecting

end ApiGraph
