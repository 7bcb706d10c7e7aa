/-
SyntaxTree/Proofs/PostOrder.lean

What comes before what in post-order.  A place divides the post-order of a tree: `closedBefore`
lists the nodes that are closed before the hole is reached, `closedAfter` those that are
closed after it has been left, and the branch in the hole comes between them as a whole,

    (plug c bs).flatMap postIds = closedBefore c ++ bs.flatMap postIds ++ closedAfter c.

From this the order of any two related nodes is read off: children before their parent,
and of two siblings the left one with all that is below it before the right one.
-/
import SyntaxTree.Proofs.Walk
import SyntaxTree.Proofs.WellFormed

namespace SyntaxTree

open Branch Relation

/-- What lies in the front part of a list has the smaller index. -/
theorem idxOf_lt_idxOf {l r : List NodeId} {i j : NodeId} (hnd : (l ++ r).Nodup) (hi : i ∈ l)
    (hj : j ∈ r) : (l ++ r).idxOf i < (l ++ r).idxOf j := by
  have hjl : j ∉ l := fun h => (List.nodup_append.mp hnd).2.2 j h j hj rfl
  rw [List.idxOf_append_of_mem hi, List.idxOf_append_of_notMem hjl]
  exact Nat.lt_of_lt_of_le (List.idxOf_lt_length_of_mem hi) (Nat.le_add_right _ _)

theorem Branch.postIds_perm (b : Branch) : b.postIds.Perm b.ids := by
  induction b with
  | grow v bs ih =>
    rw [postIds_grow, ids_grow]
    exact List.perm_append_comm.trans ((List.Perm.flatMap_left bs ih).cons v.id)

namespace Place

/-- The nodes that a post-order closes before it comes to the hole. -/
def closedBefore : Place → List NodeId
  | top => []
  | on _ l _ up => up.closedBefore ++ l.flatMap postIds

/-- The nodes that a post-order closes after it has left the hole. -/
def closedAfter : Place → List NodeId
  | top => []
  | on v _ r up => r.flatMap postIds ++ v.id :: up.closedAfter

/-- The post-order of a filled place. -/
theorem flatMap_postIds_plug (c : Place) (bs : List Branch) :
    (c.plug bs).flatMap postIds = c.closedBefore ++ bs.flatMap postIds ++ c.closedAfter := by
  induction c generalizing bs with
  | top => simp [plug, closedBefore, closedAfter]
  | on v l r up ih =>
    rw [plug, ih, List.flatMap_singleton, postIds_grow, closedBefore, closedAfter]
    simp only [List.flatMap_append, List.append_assoc, List.singleton_append]

end Place

namespace Tree

namespace Spells

variable {t : Tree} {bs : List Branch} {c : Place} {s : Branch}

theorem postOrder_eq (h : t.Spells bs) : t.postOrder = bs.flatMap postIds := by
  rw [postOrder]
  cases hr : t.root with
  | none =>
    obtain rfl := h.root_eq_none_iff.mp hr
    rfl
  | some r =>
    obtain ⟨b, rfl, rfl⟩ := h.eq_singleton hr
    rw [List.flatMap_singleton]
    exact h.atTop.postOrderFrom_id

/-- **A post-order has every live node** once. -/
theorem postOrder_perm (h : t.Spells bs) : t.postOrder.Perm t.nodeIds := by
  rw [h.postOrder_eq, h.nodeIds_eq]
  refine (List.Perm.flatMap_left bs fun b _ => b.postIds_perm).trans ?_
  rw [← map_id_grove none]
  exact (h.perm.map Node.id).symm

theorem nodup_postOrder (h : t.Spells bs) : t.postOrder.Nodup :=
  h.postOrder_perm.nodup_iff.mpr (h.nodeIds_eq ▸ h.nodup_ids)

/-- The post-order around the node at a place. -/
theorem postOrder_eq_append (h : t.Spells (c.plug [s])) : t.postOrder
    = c.closedBefore ++ s.limbs.flatMap postIds ++ s.id :: c.closedAfter := by
  rw [h.postOrder_eq, c.flatMap_postIds_plug, List.flatMap_singleton]
  obtain ⟨v, bs⟩ := s
  rw [postIds_grow, ← List.append_assoc, List.append_assoc _ [v.id]]
  rfl

/-- **Children come before their parent.** -/
theorem idxOf_child_lt (h : t.Spells (c.plug [s])) {d : Branch} (hd : d ∈ s.limbs) :
    t.postOrder.idxOf d.id < t.postOrder.idxOf s.id := by
  have hnd := h.nodup_postOrder
  rw [h.postOrder_eq_append] at hnd ⊢
  refine idxOf_lt_idxOf hnd ?_ List.mem_cons_self
  refine List.mem_append_right _ (List.mem_flatMap.mpr ⟨d, hd, ?_⟩)
  exact d.postIds_perm.mem_iff.mpr d.id_mem_ids

/-- When a post-order comes to a node, it has closed the children. -/
theorem mem_of_postOrder_eq (h : t.Spells (c.plug [s])) {l r : List NodeId}
    (hsplit : t.postOrder = l ++ s.id :: r) {d : Branch} (hd : d ∈ s.limbs) : d.id ∈ l := by
  have hnd := h.nodup_postOrder
  have hlt := h.idxOf_child_lt hd
  rw [hsplit] at hnd hlt
  have hs : s.id ∉ l := fun hmem =>
    (List.nodup_append.mp hnd).2.2 s.id hmem s.id List.mem_cons_self rfl
  -- a child that is not in front would come after its parent
  by_contra hl
  rw [List.idxOf_append_of_notMem hs, List.idxOf_append_of_notMem hl, List.idxOf_cons_self] at hlt
  omega

/-- **Of two siblings, the left one comes before the right one**, each with all that is below
it. -/
theorem idxOf_sibling_lt (h : t.Spells (c.plug [s])) {l m r : List Branch} {d e : Branch}
    (hlimbs : s.limbs = l ++ d :: m ++ e :: r) {i j : NodeId} (hi : i ∈ d.ids) (hj : j ∈ e.ids) :
    t.postOrder.idxOf i < t.postOrder.idxOf j := by
  have hnd := h.nodup_postOrder
  have hsplit : t.postOrder = (c.closedBefore ++ (l ++ d :: m).flatMap postIds)
      ++ ((e :: r).flatMap postIds ++ s.id :: c.closedAfter) := by
    rw [h.postOrder_eq_append, hlimbs, List.flatMap_append]
    simp only [List.append_assoc]
  rw [hsplit] at hnd ⊢
  refine idxOf_lt_idxOf hnd (List.mem_append_right _ ?_) (List.mem_append_left _ ?_)
  · exact List.mem_flatMap.mpr ⟨d, by simp, d.postIds_perm.mem_iff.mpr hi⟩
  · exact List.mem_flatMap.mpr ⟨e, by simp, e.postIds_perm.mem_iff.mpr hj⟩

end Spells

end Tree

end SyntaxTree
