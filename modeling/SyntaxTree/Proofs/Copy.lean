/-
SyntaxTree/Proofs/Copy.lean

Copies, as branches.  `copied next b` is `b` with its identities replaced, in pre-order, by
the consecutive ones from `next` on; origins, rules and labels are those of `b`.  Copying the
subtree at `b.id` out of a tree that bears `b` gives the registry of exactly that branch,

    t.copySubtree b.id next = ofRegistry (registry ((b.copied next).nodes none)) (some next),

in pre-order and not just up to order.  What a copy consumes is `b.size` identities.
-/
import Mathlib.Data.List.Basic
import SyntaxTree.Proofs.Walk
import SyntaxTree.Tree.Copy

namespace SyntaxTree

namespace NodeId

/-- Consecutive identities differ. -/
theorem nodup_block (next : NodeId) (k : Nat) : (next.block k).Nodup := by
  refine List.Nodup.map (fun i j h => ?_) List.nodup_range
  exact Nat.add_left_cancel (NodeId.mk.inj h)

/-- Numbering the items of a list one after another. -/
theorem map_shift_idxOf {l : List NodeId} (hnd : l.Nodup) (next : NodeId) :
    (l.map fun i => next.shift (l.idxOf i)) = next.block l.length := by
  refine List.ext_getElem (by simp [block]) fun k hk _ => ?_
  rw [List.length_map] at hk
  simp [block, hnd.idxOf_getElem k hk]

theorem zip_block {l : List NodeId} (hnd : l.Nodup) (next : NodeId) :
    l.zip (next.block l.length) = l.map fun i => (i, next.shift (l.idxOf i)) := by
  have h := List.zip_map' (f := fun i => i) (g := fun i => next.shift (l.idxOf i)) (l := l)
  rwa [List.map_id', map_shift_idxOf hnd] at h

end NodeId

namespace Branch

/-! ### Links within a branch -/

/-- The links of a node in a branch stay in the branch, except for that of the bottom to its
parent. -/
theorem links_of_mem_nodes {p : Option NodeId} {b : Branch} {n : Node} (hn : n ∈ b.nodes p) :
    (n.parent = p ∨ ∃ q ∈ b.ids, n.parent = some q) ∧ ∀ i ∈ n.children, i ∈ b.ids := by
  induction b generalizing p with
  | grow v bs ih =>
    rw [nodes, List.mem_cons] at hn
    rw [ids_grow]
    rcases hn with rfl | hn
    · refine ⟨Or.inl rfl, fun i hi => ?_⟩
      exact List.mem_cons_of_mem _ ((map_id_sublist bs).subset hi)
    · obtain ⟨b, hb, hn⟩ := mem_grove.mp hn
      obtain ⟨hparent, hchildren⟩ := ih b hb hn
      have up : ∀ i ∈ b.ids, i ∈ v.id :: bs.flatMap ids := fun i hi =>
        List.mem_cons_of_mem _ (List.mem_flatMap.mpr ⟨b, hb, hi⟩)
      refine ⟨Or.inr ?_, fun i hi => up i (hchildren i hi)⟩
      rcases hparent with h | ⟨q, hq, h⟩
      · exact ⟨v.id, List.mem_cons_self, h⟩
      · exact ⟨q, up q hq, h⟩

theorem parent_of_mem_grove {b : Branch} {n : Node} (hn : n ∈ grove (some b.id) b.limbs) :
    ∃ q ∈ b.ids, n.parent = some q := by
  obtain ⟨v, bs⟩ := b
  obtain ⟨d, hd, hn⟩ := mem_grove.mp hn
  rw [ids_grow]
  rcases (links_of_mem_nodes hn).1 with h | ⟨q, hq, h⟩
  · exact ⟨v.id, List.mem_cons_self, h⟩
  · exact ⟨q, List.mem_cons_of_mem _ (List.mem_flatMap.mpr ⟨d, hd, hq⟩), h⟩

/-! ### Copied branches -/

/-- The identity that a copy numbered from `next` on has in the place of another. -/
def copiedId (next : NodeId) (b : Branch) (i : NodeId) : NodeId := next.shift (b.ids.idxOf i)

/-- A branch under new identities, numbered in pre-order from `next` on. -/
def copied (next : NodeId) (b : Branch) : Branch :=
  b.map fun v => { v with id := b.copiedId next v.id }

theorem id_copied (next : NodeId) (b : Branch) : (b.copied next).id = next := by
  rw [id, copied, bud_map]
  cases b
  simp [copiedId, ids_grow, bud, NodeId.shift]

theorem ids_copied (next : NodeId) {b : Branch} (hnd : b.ids.Nodup) :
    (b.copied next).ids = next.block b.size := by
  rw [ids, copied, buds_map, List.map_map]
  have h : b.buds.map (Bud.id ∘ fun v => { v with id := b.copiedId next v.id })
      = b.ids.map (b.copiedId next) := by
    rw [ids, List.map_map]; rfl
  rw [h]
  exact NodeId.map_shift_idxOf hnd next

theorem size_copied (next : NodeId) (b : Branch) : (b.copied next).size = b.size := by
  rw [size, ids, copied, buds_map, List.length_map, List.length_map, size, ids, List.length_map]

theorem map_origin_copied (next : NodeId) (b : Branch) :
    (b.copied next).buds.map Bud.origin = b.buds.map Bud.origin := by
  rw [copied, buds_map, List.map_map]; rfl

theorem shape_copied (next : NodeId) (b : Branch) : (b.copied next).shape = b.shape := by
  refine shape_map ?_ ?_ b
  · intro v; rfl
  · intro v; rfl

end Branch

open Branch

namespace Tree

variable {t : Tree} {b : Branch} {next : NodeId}

/-! ### Copying out of a tree -/

theorem Bears.renumbering_eq (h : t.Bears b) (hnd : b.ids.Nodup) :
    t.renumbering b.id next = .tabulate (fun i => i) (b.copiedId next) b.ids := by
  rw [renumbering, h.preOrderFrom_eq hnd, NodeId.zip_block hnd]
  rfl

/-- What stands in a copy under the new identities are the nodes of the copied branch. -/
theorem map_copyNode {m : OrderedMap NodeId NodeId}
    (hm : ∀ i ∈ b.ids, m.get? i = some (b.copiedId next i)) (hnd : b.ids.Nodup)
    (p : Option NodeId) :
    ((b.nodes p).map fun n => copyNode m b.id n (b.copiedId next n.id))
      = (b.copied next).nodes none := by
  have hchildren : ∀ {l : List NodeId}, (∀ i ∈ l, i ∈ b.ids) →
      l.filterMap m.get? = l.map (b.copiedId next) := fun hl =>
    List.filterMap_eq_map_iff_forall_eq_some.mpr fun i hi => hm i (hl i hi)
  rw [nodes_eq p b, nodes_eq none (b.copied next), List.map_cons]
  congr 1
  · -- the bottom: no parent, and all its children are copied
    have hlimbs := hchildren (links_of_mem_nodes (bottom_mem_nodes p b)).2
    have hbottom : (b.copied next).bottom none
        = { b.bud with id := b.copiedId next b.id }.node none
            ((b.limbs.map Branch.id).map (b.copiedId next)) := by
      rw [bottom, copied, bud_map, limbs_map, map_id_map (f := b.copiedId next) fun _ => rfl]
      rfl
    rw [copyNode, hlimbs, if_pos (show (b.bottom p).id = b.id from rfl), hbottom]
    rfl
  · -- the rest: parent and children are copied
    have hlimbs : (b.copied next).limbs = b.limbs.map (Branch.map fun v =>
        { v with id := b.copiedId next v.id }) := limbs_map _ b
    have hid : (b.copied next).id = b.copiedId next b.id := id_map (fun _ => rfl) b
    rw [hlimbs, hid, show some (b.copiedId next b.id) = (some b.id).map (b.copiedId next) from rfl,
      grove_map fun _ => rfl]
    refine List.map_congr_left fun n hn => ?_
    obtain ⟨q, hq, hparent⟩ := parent_of_mem_grove hn
    have hn' : n ∈ b.nodes p := by rw [nodes_eq]; exact List.mem_cons_of_mem _ hn
    rw [copyNode, if_neg (id_ne_of_mem_grove hnd hn), hchildren (links_of_mem_nodes hn').2, hparent]
    simp [hm q hq, Bud.node, Node.bud]

/-- **A copied subtree** has the nodes of the copied branch, in pre-order. -/
theorem Bears.copySubtree_eq (h : t.Bears b) (hnd : b.ids.Nodup) :
    t.copySubtree b.id next = ofRegistry (registry ((b.copied next).nodes none)) (some next) := by
  have hget : ∀ i ∈ b.ids, (t.renumbering b.id next).get? i = some (b.copiedId next i) := by
    intro i hi
    rw [h.renumbering_eq hnd, OrderedMap.get?_tabulate_eq_some_iff (by simpa using hnd)]
    exact ⟨i, hi, rfl, rfl⟩
  have hroot := hget b.id b.id_mem_ids
  have hentries : (t.renumbering b.id next).entries
      = b.ids.map fun i => (i, b.copiedId next i) := by rw [h.renumbering_eq hnd]; rfl
  obtain ⟨p, hp⟩ := h
  -- every identity of the branch is live, so none is left out of the copy
  have hcopied : (t.renumbering b.id next).entries.filterMap (fun e =>
        (t.node? e.1).map fun n => (e.2, copyNode (t.renumbering b.id next) b.id n e.2))
      = (registry ((b.copied next).nodes none)).entries := by
    rw [hentries, List.filterMap_map, ← map_id_nodes p, List.filterMap_map, ← map_copyNode hget hnd p]
    show _ = List.map _ _
    rw [List.map_map]
    refine List.filterMap_eq_map_iff_forall_eq_some.mpr fun n hn => ?_
    show (t.node? n.id).map _ = _
    rw [hp n hn]
    rfl
  show ofRegistry ⟨_⟩ _ = _
  have hid : b.copiedId next b.id = next :=
    (id_map (f := b.copiedId next) (fun _ => rfl) b).symm.trans (id_copied next b)
  rw [hroot, hid]
  exact congrArg (fun es => ofRegistry ⟨es⟩ (some next)) hcopied

end Tree

end SyntaxTree
