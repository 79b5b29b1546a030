import Mathlib.Data.List.Nodup
import ApiGraph.Inspection.Dump

/-!
# What dumps write

A dump notes each node that it writes, and names a node by its number when it comes back to it. So no node
is written twice, whatever leads back to what.

* `Graph.Notes` — a part of a dump: nodes are only noted in addition, and none twice;
* `Graph.notes_dumpOnce` — a node that was not met before is noted;
* `Graph.notes_dumpWithin` — a dump down to any depth.
-/

namespace ApiGraph.Graph

variable {α β : Type} {g : Graph}

/-- A part of a dump: the nodes that were met before stay noted with their numbers, and no node is noted
twice. -/
def Notes (m : StateM (List NodeId) α) : Prop :=
  ∀ met, met <+: (m met).2 ∧ (met.Nodup → (m met).2.Nodup)

theorem notes_pure (a : α) : Notes (pure a) := fun _ => ⟨List.prefix_rfl, id⟩

theorem Notes.bind {m : StateM (List NodeId) α} {k : α → StateM (List NodeId) β} (hm : Notes m)
    (hk : ∀ a, Notes (k a)) : Notes (m >>= k) := by
  intro met
  obtain ⟨hmore, hnodup⟩ := hm met
  obtain ⟨hmore', hnodup'⟩ := hk (m met).1 (m met).2
  exact ⟨hmore.trans hmore', fun h => hnodup' (hnodup h)⟩

theorem notes_mapM {k : α → StateM (List NodeId) β} (hk : ∀ a, Notes (k a)) (xs : List α) :
    Notes (xs.mapM k) := by
  induction xs with
  | nil => exact notes_pure _
  | cons x xs ih =>
    rw [List.mapM_cons]
    exact (hk x).bind fun _ => ih.bind fun _ => notes_pure _

theorem dumpOnce_eq (write : Node → StateM (List NodeId) Json) (i : NodeId) (met : List NodeId) :
    g.dumpOnce write (some i) met = match met.idxOf? i with
      | some k => (.obj [("seen", .int k)], met)
      | none => write (g.node i) (met ++ [i]) := by
  show (match met.idxOf? i with
    | some k => pure (.obj [("seen", .int k)])
    | none => do
      set (met ++ [i])
      write (g.node i) : StateM (List NodeId) Json) met = _
  cases met.idxOf? i <;> rfl

/-- A node that was not met before is noted before it is written. -/
theorem notes_dumpOnce {write : Node → StateM (List NodeId) Json} (hwrite : ∀ n, Notes (write n))
    (i : Option NodeId) : Notes (g.dumpOnce write i) := by
  cases i with
  | none => exact notes_pure _
  | some i =>
    intro met
    rw [dumpOnce_eq]
    split
    · exact ⟨List.prefix_rfl, id⟩
    · next hnew =>
      obtain ⟨hmore, hnodup⟩ := hwrite (g.node i) (met ++ [i])
      refine ⟨(List.prefix_append _ _).trans hmore, fun h => hnodup ?_⟩
      rw [← List.concat_eq_append]
      exact .concat (List.idxOf?_eq_none_iff.1 hnew) h

theorem notes_dumpBelow {below : Dumper} (hbelow : ∀ i, Notes (below i)) (n : Node) :
    Notes (dumpBelow below n) := by
  refine (notes_mapM (fun link => ?_) _).bind fun _ => (notes_mapM (fun _ => ?_) _).bind fun _ =>
    (notes_mapM hbelow _).bind fun _ => notes_pure _
  · obtain ⟨name, target | targets⟩ := link
    · exact (hbelow target).bind fun _ => notes_pure _
    · exact (notes_mapM hbelow _).bind fun _ => notes_pure _
  · exact (hbelow _).bind fun _ => notes_pure _

/-- Down to any depth, a dump writes no node twice, and none that was met before. -/
theorem notes_dumpWithin (g : Graph) (depth : Nat) (i : Option NodeId) : Notes (g.dumpWithin depth i) := by
  induction depth generalizing i with
  | zero => exact notes_dumpOnce (fun _ => notes_pure _) i
  | succ depth ih => exact notes_dumpOnce (notes_dumpBelow ih) i

end ApiGraph.Graph
