import Mathlib.Tactic.Tauto
import ApiGraph.Proofs.Outcome

/-!
# Links between nodes

How nodes hang together, and what of a node a visit never changes.

* `Node.below` — the nodes that a visit of a node goes on to;
* `Node.links`, `Node.followed`, `Node.spurned` — all nodes that a node leads to, those that visits
  follow, and the others;
* `Node.Kept` — what stays of a node while it is visited;
* `Node.children_putProperty` — properties and children are gathered side by side.
-/

namespace ApiGraph

open OrderedMap

namespace Body

/-- A body without the nodes that its references lead to. -/
def unlinked : Body → Body
  | .ref link => .ref ⟨link.ref, none⟩
  | .property slot arguments (some link) => .property slot arguments (some ⟨link.ref, none⟩)
  | body => body

/-- The reference of a body and the node that it leads to. -/
def link? : Body → Option Link
  | .ref link => some link
  | .property _ _ link => link
  | _ => none

end Body

namespace Node

/-- The nodes below a node that are there before it is visited. -/
def below (n : Node) : List NodeId :=
  match n.body with
  | .object => values n.props
  | .array items => items.toList
  | .property slot arguments none => arguments.filterMap id ++ slot.type.toList
  | .parameter slot => slot.type.toList
  | _ => []

/-- The arguments of a property. -/
def arguments (n : Node) : List (Option NodeId) :=
  match n.body with
  | .property _ arguments _ => arguments
  | _ => []

/-- The items of an array. -/
def items? (n : Node) : Option NodeId :=
  match n.body with
  | .array items => items
  | _ => none

/-- Where the reference of a node leads. -/
def target? (n : Node) : Option NodeId := n.body.link?.bind Link.target

/-- All nodes that a node leads to. -/
def links (n : Node) : List NodeId :=
  values n.props ++ n.children.filterMap id ++ n.items?.toList ++ n.type?.join.toList ++
    n.arguments.filterMap id ++ n.target?.toList

/-- The arguments of a property whose type is a reference. -/
def spurned (n : Node) : List NodeId :=
  if n.body.link?.isSome then n.arguments.filterMap id else []

/-- The nodes that visits follow: all but the arguments of a property whose type is a reference. -/
def followed (n : Node) : List NodeId :=
  values n.props ++ n.children.filterMap id ++ n.items?.toList ++ n.type?.join.toList ++
    (if n.body.link?.isSome then [] else n.arguments.filterMap id) ++ n.target?.toList

theorem mem_followed_of_valueType? {n : Node} {k : NodeId} (h : n.valueType? = some k) :
    k ∈ n.followed := by
  rcases hbody : n.body with _ | _ | _ | _ | _ | _ | _ | ⟨slot, arguments, _ | link⟩ | _ <;>
    simp [valueType?, hbody] at h
  · simp [followed, type?, slot?, hbody, h]
  · simp [followed, target?, Body.link?, hbody, h]

theorem mem_links_iff {n : Node} {k : NodeId} : k ∈ n.links ↔ k ∈ n.followed ∨ k ∈ n.spurned := by
  simp only [links, followed, spurned, List.mem_append]
  split <;> simp only [List.not_mem_nil, or_false]
  tauto

theorem mem_spurned_iff {n : Node} {k : NodeId} :
    k ∈ n.spurned ↔ ∃ slot arguments link, n.body = .property slot arguments (some link) ∧
      some k ∈ arguments := by
  constructor
  · intro h
    rcases hn : n.body with _ | _ | _ | _ | _ | _ | _ | ⟨slot, members, _ | link⟩ | _ <;>
      simp [spurned, Node.arguments, Body.link?, hn] at h
    exact ⟨slot, members, link, rfl, h⟩
  · rintro ⟨slot, members, link, hn, h⟩
    simp [spurned, Node.arguments, Body.link?, hn, h]

/-- A property of a given name. -/
def IsProperty (n : Node) (name : String) : Prop :=
  n.name = .str name ∧ ∃ slot arguments link, n.body = .property slot arguments link

/-! ## What a visit keeps -/

/-- What stays of a node: its kind with the nodes below, its names, and its properties unless it
gathers them. -/
structure Kept (n n' : Node) : Prop where
  body : n'.body.unlinked = n.body.unlinked
  name : n'.name = n.name
  parent : n'.parent = n.parent
  attached : n'.attached = n.attached
  props : n.body.isComposed = false → n'.props = n.props

theorem Kept.refl (n : Node) : n.Kept n := ⟨rfl, rfl, rfl, rfl, fun _ => rfl⟩

theorem isComposed_unlinked (b : Body) : b.unlinked.isComposed = b.isComposed := by
  rcases b with _ | _ | _ | _ | _ | _ | _ | ⟨_, _, _ | _⟩ | _ <;> rfl

theorem Kept.isComposed {n n' : Node} (h : n.Kept n') :
    n'.body.isComposed = n.body.isComposed := by
  rw [← isComposed_unlinked, h.body, isComposed_unlinked]

theorem Kept.trans {n n' n'' : Node} (h : n.Kept n') (h' : n'.Kept n'') : n.Kept n'' where
  body := h'.body.trans h.body
  name := h'.name.trans h.name
  parent := h'.parent.trans h.parent
  attached := h'.attached.trans h.attached
  props hn := (h'.props (h.isComposed.trans hn)).trans (h.props hn)

theorem IsProperty.kept {n n' : Node} {name : String} (h : n.IsProperty name) (hk : n.Kept n') :
    n'.IsProperty name := by
  obtain ⟨hname, slot, arguments, link, hbody⟩ := h
  refine ⟨hk.name.trans hname, ?_⟩
  have hb := hk.body
  rw [hbody] at hb
  rcases hn : n'.body with _ | _ | _ | _ | _ | _ | _ | ⟨s, as, _ | l⟩ | _ <;> rw [hn] at hb <;>
    cases link <;> simp [Body.unlinked] at hb
  · exact ⟨s, as, none, rfl⟩
  · exact ⟨s, as, some l, rfl⟩

theorem Kept.ref {n n' : Node} (h : n.Kept n') {link : Link} (hbody : n'.body = .ref link) :
    ∃ link', n.body = .ref link' ∧ link'.ref = link.ref := by
  have hb := h.body
  rw [hbody] at hb
  rcases hn : n.body with _ | _ | _ | _ | _ | _ | l | ⟨_, _, _ | _⟩ | _ <;> rw [hn] at hb <;>
    simp [Body.unlinked] at hb
  exact ⟨l, rfl, hb.symm⟩

theorem Kept.link {n n' : Node} (h : n.Kept n') {link : Link} (hlink : n'.body.link? = some link) :
    ∃ link', n.body.link? = some link' ∧ link'.ref = link.ref := by
  have hb := h.body
  rcases hn' : n'.body with _ | _ | _ | _ | _ | _ | l' | ⟨_, _, _ | l'⟩ | _ <;>
    rw [hn'] at hb hlink <;> simp [Body.link?] at hlink
  all_goals
    subst hlink
    rcases hn : n.body with _ | _ | _ | _ | _ | _ | l | ⟨_, _, _ | l⟩ | _ <;> rw [hn] at hb <;>
      simp [Body.unlinked] at hb
  · exact ⟨l, rfl, hb.symm⟩
  · exact ⟨l, rfl, hb.2.2.symm⟩

/-- A body without a link stays the same. -/
theorem Kept.body_eq {n n' : Node} (h : n.Kept n') (hlink : n.body.link? = none) :
    n'.body = n.body := by
  have hb := h.body
  rcases hn : n.body with _ | _ | _ | _ | _ | _ | _ | ⟨_, _, _ | _⟩ | _ <;> rw [hn] at hlink hb <;>
    simp [Body.link?] at hlink <;>
    rcases hn' : n'.body with _ | _ | _ | _ | _ | _ | _ | ⟨_, _, _ | _⟩ | _ <;> rw [hn'] at hb <;>
    simp [Body.unlinked] at hb <;> simp [hb]

/-- The nodes below stay the same. -/
theorem Kept.below {n n' : Node} (h : n.Kept n') : n'.below = n.below := by
  have hb := h.body
  have hprops := h.props
  rcases hn : n.body with _ | _ | _ | _ | _ | _ | _ | ⟨_, _, _ | _⟩ | _ <;>
    rcases hn' : n'.body with _ | _ | _ | _ | _ | _ | _ | ⟨_, _, _ | _⟩ | _ <;>
    rw [hn, hn'] at hb <;> simp [Body.unlinked] at hb <;> simp [Node.below, hn, hn', hb]
  rw [hprops (by rw [hn]; rfl)]

theorem slot?_unlinked (n : Node) : ({ n with body := n.body.unlinked } : Node).slot? = n.slot? := by
  rcases n with ⟨_ | _ | _ | _ | _ | _ | _ | ⟨_, _, _ | _⟩ | _⟩ <;> rfl

theorem Kept.slot? {n n' : Node} (h : n.Kept n') : n'.slot? = n.slot? := by
  rw [← slot?_unlinked, ← slot?_unlinked n, Node.slot?, Node.slot?]
  simp only [h.body]

/-- A property keeps its arguments. -/
theorem Kept.arguments {n n' : Node} (h : n.Kept n') : n'.arguments = n.arguments := by
  have hb := h.body
  rcases hn : n.body with _ | _ | _ | _ | _ | _ | _ | ⟨_, _, _ | _⟩ | _ <;>
    rcases hn' : n'.body with _ | _ | _ | _ | _ | _ | _ | ⟨_, _, _ | _⟩ | _ <;>
    rw [hn, hn'] at hb <;> simp [Body.unlinked] at hb <;> simp [Node.arguments, hn, hn', hb]

theorem Kept.visit {n n' : Node} (h : n.Kept n') : n.Kept { n' with visited := true } :=
  ⟨h.body, h.name, h.parent, h.attached, h.props⟩

/-! ## Gathering -/

theorem body_addChild (n : Node) (child : Option NodeId) : (n.addChild child).body = n.body := by
  unfold addChild
  split <;> rfl

theorem props_addChild (n : Node) (child : Option NodeId) : (n.addChild child).props = n.props := by
  unfold addChild
  split <;> rfl

theorem visited_addChild (n : Node) (child : Option NodeId) :
    (n.addChild child).visited = n.visited := by
  unfold addChild
  split <;> rfl

theorem attached_addChild (n : Node) (child : Option NodeId) :
    (n.addChild child).attached = n.attached := by
  unfold addChild
  split <;> rfl

theorem children_addChild {n : Node} (h : n.children = []) (child : Option NodeId) :
    (n.addChild child).children = [child] := by
  rw [addChild, h, if_neg List.not_mem_nil]
  rfl

theorem addArgument_of_property {n : Node} {slot : Slot} {arguments : List (Option NodeId)}
    {link : Option Link} (h : n.body = .property slot arguments link) (argument : Option NodeId) :
    n.addArgument argument = { n with body := .property slot (arguments ++ [argument]) link } := by
  simp only [addArgument, h]

theorem name_addArgument (argument : Option NodeId) (n : Node) :
    (n.addArgument argument).name = n.name := by
  unfold addArgument
  split <;> rfl

theorem props_addArgument (argument : Option NodeId) (n : Node) :
    (n.addArgument argument).props = n.props := by
  unfold addArgument
  split <;> rfl

theorem Kept.addChild {n n' : Node} (h : n.Kept n') (child : Option NodeId) :
    n.Kept (n'.addChild child) := by
  unfold Node.addChild
  split
  · exact h
  · exact ⟨h.body, h.name, h.parent, h.attached, h.props⟩

theorem props_putProperty (n : Node) (key : Key) (prop : NodeId) :
    (n.putProperty key prop).props = insert key prop n.props := by
  unfold putProperty
  dsimp only
  split
  · split
    · rfl
    · rw [props_addChild]
  · rw [props_addChild]

theorem body_putProperty (n : Node) (key : Key) (prop : NodeId) :
    (n.putProperty key prop).body = n.body := by
  unfold putProperty
  dsimp only
  split
  · split
    · rfl
    · rw [body_addChild]
  · rw [body_addChild]

theorem visited_putProperty (n : Node) (key : Key) (prop : NodeId) :
    (n.putProperty key prop).visited = n.visited := by
  unfold putProperty addChild
  dsimp only
  repeat' split
  all_goals rfl

theorem name_putProperty (n : Node) (key : Key) (prop : NodeId) :
    (n.putProperty key prop).name = n.name := by
  unfold putProperty addChild
  dsimp only
  repeat' split
  all_goals rfl

theorem parent_putProperty (n : Node) (key : Key) (prop : NodeId) :
    (n.putProperty key prop).parent = n.parent := by
  unfold putProperty addChild
  dsimp only
  repeat' split
  all_goals rfl

theorem attached_putProperty (n : Node) (key : Key) (prop : NodeId) :
    (n.putProperty key prop).attached = n.attached := by
  unfold putProperty addChild
  dsimp only
  repeat' split
  all_goals rfl

theorem kept_putProperty {n : Node} (h : n.body.isComposed = true) (key : Key) (prop : NodeId) :
    n.Kept (n.putProperty key prop) := by
  have hbound : n.Kept { n with props := insert key prop n.props } :=
    ⟨rfl, rfl, rfl, rfl, fun hn => by rw [h] at hn; cases hn⟩
  unfold putProperty
  dsimp only
  split
  · split
    · exact ⟨rfl, rfl, rfl, rfl, fun hn => by rw [h] at hn; cases hn⟩
    · exact hbound.addChild _
  · exact hbound.addChild _

theorem replaceFirst_append {old : NodeId} {xs : List NodeId} (h : old ∉ xs) (new : NodeId)
    (ys : List NodeId) :
    putProperty.replaceFirst old new ((xs ++ old :: ys).map some) =
      (xs ++ new :: ys).map some := by
  induction xs with
  | nil => simp [putProperty.replaceFirst]
  | cons x xs ih =>
    obtain ⟨hx, hxs⟩ := not_or.1 (mt List.mem_cons.2 h)
    have hne : ¬ some x = some old := fun he => hx (Option.some.inj he).symm
    simp only [List.cons_append, List.map_cons, putProperty.replaceFirst, if_neg hne]
    exact congrArg (some x :: ·) (ih hxs)

/-- A node whose children are its properties stays one when a property is bound, as long as a property
that is there already is bound under its old key. -/
theorem children_putProperty {n : Node} (h : n.children = (values n.props).map some)
    (hnodup : (values n.props).Nodup) {prop : NodeId} {key : Key}
    (hprop : get? key n.props = none → prop ∉ values n.props) :
    (n.putProperty key prop).children = (values (insert key prop n.props)).map some := by
  obtain ⟨xs, ys, hinsert, hold⟩ := exists_values_insert key prop n.props
  rw [hinsert]
  rcases hold with ⟨hnone, hvalues, rfl⟩ | ⟨old, hsome, hvalues⟩
  · have hchild : some prop ∉ n.children := by
      rw [h]
      intro hmem
      obtain ⟨p, hp, he⟩ := List.mem_map.1 hmem
      exact hprop hnone (Option.some.inj he ▸ hp)
    simp only [putProperty, hnone, addChild, if_neg hchild]
    rw [h, hvalues, List.map_append]
    rfl
  · have hmem : some old ∈ n.children := by
      rw [h, hvalues]
      simp
    have hxs : old ∉ xs := by
      rw [hvalues] at hnodup
      exact fun hx => (List.nodup_append.1 hnodup).2.2 old hx old List.mem_cons_self rfl
    simp only [putProperty, hsome, if_pos hmem]
    rw [h, hvalues, replaceFirst_append hxs]

end Node

end ApiGraph
