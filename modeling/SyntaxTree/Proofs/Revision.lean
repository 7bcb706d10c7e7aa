/-
SyntaxTree/Proofs/Revision.lean

What operations do to the identities in a tree.

Trees that are made have new identities only, and all of those that the operation has used
up: the listings of the copies that an operation takes, put one behind the other, are a
block of consecutive identities from the next free one on (`nodeIds_copyEach`).

Trees that are changed are revised: the old identities that stay are listed first, in
their old order, then come the new ones, and what has gone is in the tree that was cut
out.  A removal and a replacement are both revisions (`Sound.revises_remove`,
`Sound.revises_replace`), and differ only in the number of new identities.
-/
import SyntaxTree.Proofs.Replace
import SyntaxTree.Proofs.Stream

namespace SyntaxTree

open Branch

namespace Tree

variable {t u candidate graft : Tree} {c : Place} {s b : Branch} {next i : NodeId}

/-! ### Trees that are made -/

theorem Spells.nodeIds_copySubtree (h : t.Spells (c.plug [s])) (next : NodeId) :
    (t.copySubtree s.id next).nodeIds = next.block s.size := by
  rw [(h.copySubtree next).nodeIds_eq, h.nodeList_copySubtree, map_id_nodes,
    ids_copied next h.nodup_ids_branch]

namespace Sound

theorem lt_of_contains (h : t.Sound next) (hi : t.contains i = true) : i < next := by
  obtain ⟨bs, hs⟩ := h.spells
  obtain ⟨n, hn, rfl⟩ := List.mem_map.mp (hs.contains_iff.mp hi)
  exact (h.used n hn).1

theorem nodeIds_copySubtree (h : t.Sound next) (hi : t.contains i = true) (free : NodeId) :
    (t.copySubtree i free).nodeIds = free.block (t.copySubtree i free).size := by
  obtain ⟨c, s, hs, rfl⟩ := h.exists_place hi
  rw [hs.nodeIds_copySubtree, hs.size_copySubtree]

theorem nodeIds_copyOf (h : t.Sound next) (free : NodeId) :
    (t.copyOf free).nodeIds = free.block (t.copyOf free).size := by
  rw [Tree.copyOf]
  cases hr : t.root with
  | none => rfl
  | some r =>
    obtain ⟨b, hb, rfl⟩ := h.exists_branch hr
    exact h.nodeIds_copySubtree hb.atTop.contains_id free

theorem nodeIds_extract (h : t.Sound next) {free : NodeId} {piece : Tree}
    (hp : t.extract i free = some piece) : piece.nodeIds = free.block piece.size := by
  rw [Tree.extract] at hp
  split at hp
  case isTrue hi => exact Option.some.inj hp ▸ h.nodeIds_copySubtree hi free
  case isFalse => cases hp

/-- **Copies taken one after another** share a block of identities among them. -/
theorem nodeIds_copyEach (h : t.Sound next) {starts : List NodeId}
    (hs : ∀ i ∈ starts, t.contains i = true) (free : NodeId) :
    ∃ k, (t.copyEach starts free).1.flatMap nodeIds = free.block k ∧
      (t.copyEach starts free).2 = free.shift k := by
  induction starts generalizing free with
  | nil => exact ⟨0, rfl, rfl⟩
  | cons i starts ih =>
    have hcopy := h.nodeIds_copySubtree (hs i List.mem_cons_self) free
    obtain ⟨k, hids, hfree⟩ := ih (fun j hj => hs j (List.mem_cons_of_mem _ hj))
      (free.shift (t.copySubtree i free).size)
    refine ⟨(t.copySubtree i free).size + k, ?_, ?_⟩
    · rw [NodeId.block_add, ← hcopy, ← hids]; rfl
    · exact hfree.trans (congrArg NodeId.mk (Nat.add_assoc _ _ _))

theorem nodeIds_findAll (h : t.Sound next) (p : Node → Bool) (free : NodeId) :
    ∃ k, (t.findAll p free).1.flatMap nodeIds = free.block k ∧
      (t.findAll p free).2 = free.shift k := by
  obtain ⟨bs, hs⟩ := h.spells
  exact h.nodeIds_copyEach (fun i hi => hs.contains_of_mem_matching hi) free

theorem nodeIds_findOutermost (h : t.Sound next) (p : Node → Bool) (free : NodeId) :
    ∃ k, (t.findOutermost p free).1.flatMap nodeIds = free.block k ∧
      (t.findOutermost p free).2 = free.shift k := by
  obtain ⟨bs, hs⟩ := h.spells
  exact h.nodeIds_copyEach
    (fun i hi => hs.contains_of_mem_matching (List.mem_filter.mp hi).1) free

end Sound

/-! ### Trees that are changed -/

/-- The tree `u` is `t` without the nodes of `removed` and with nodes under the identities `new`. -/
structure Revises (t removed : Tree) (new : List NodeId) (u : Tree) : Prop where
  removed_subset : ∀ i, removed.contains i = true → t.contains i = true
  /-- The old identities keep their order, and the new ones follow. -/
  nodeIds_eq : u.nodeIds = t.nodeIds.filter (fun i => !removed.contains i) ++ new
  /-- A node that stays is what it was, apart from its relatives. -/
  exists_bud_eq : ∀ n ∈ t.nodeList, ¬ removed.contains n.id = true → ∃ m ∈ u.nodeList, m.bud = n.bud

theorem Revises.contains_iff {removed : Tree} {new : List NodeId} (h : t.Revises removed new u) :
    u.contains i = true ↔
      (t.contains i = true ∧ ¬ removed.contains i = true) ∨ i ∈ new := by
  rw [contains_iff_mem_nodeIds, h.nodeIds_eq, List.mem_append, List.mem_filter,
    contains_iff_mem_nodeIds, Bool.not_eq_true', Bool.not_eq_true]

theorem not_contains_empty (i : NodeId) : ¬ Tree.empty.contains i = true := Bool.false_ne_true

/-- A change that takes no node out and brings none in. -/
theorem revises_of_nodes_eq (hu : u.nodes = t.nodes) : t.Revises empty [] u := by
  refine ⟨fun i hi => absurd hi (not_contains_empty i), ?_, ?_⟩
  · rw [nodeIds, hu, List.append_nil]
    exact (List.filter_eq_self.mpr fun _ _ => rfl).symm
  · intro n hn _
    refine ⟨n, ?_, rfl⟩
    rwa [nodeList, hu]

namespace Spells

theorem mem_survivors_iff_removed (h : t.Spells (c.plug [s])) {n : Node} :
    n ∈ t.survivors s ↔ n ∈ t.nodeList ∧ ¬ (t.detach s.id).removed.contains n.id = true := by
  rw [survivors, List.mem_filter, h.contains_removed_iff]
  simp

/-- A tree that lists the survivors of a cut, and then other nodes, revises the tree. -/
theorem revises (h : t.Spells (c.plug [s])) {k : Option NodeId} {f : List NodeId → List NodeId}
    (ns : List Node) (hu : u.nodes = registry ((t.survivors s).map (Node.relink k f) ++ ns)) :
    t.Revises (t.detach s.id).removed (ns.map Node.id) u := by
  refine ⟨?_, ?_, ?_⟩
  · intro i hi
    rw [h.contains_removed_iff, ← map_id_nodes c.parent] at hi
    obtain ⟨n, hn, rfl⟩ := List.mem_map.mp hi
    exact h.contains_iff.mpr (List.mem_map_of_mem (h.mem_nodeList hn))
  · -- the survivors are the nodes that are not in what was cut out
    have hkept : (t.survivors s).map Node.id
        = t.nodeIds.filter fun i => !(t.detach s.id).removed.contains i := by
      rw [h.nodeIds_eq, List.filter_map, survivors]
      refine congrArg _ (List.filter_congr fun n _ => ?_)
      have hiff := h.contains_removed_iff (i := n.id)
      rw [← List.contains_iff_mem, ← Bool.eq_iff_iff] at hiff
      rw [Function.comp_apply, hiff]
    rw [nodeIds, hu, keys_registry, List.map_append, Node.map_id_relink, hkept]
  · intro n hn hout
    have hmem := h.mem_survivors_iff_removed.mpr ⟨hn, hout⟩
    refine ⟨n.relink k f, ?_, n.bud_relink k f⟩
    rw [nodeList_eq_of_nodes_eq hu]
    exact List.mem_append_left _ (List.mem_map_of_mem hmem)

theorem revises_rest (h : t.Spells (c.plug [s])) :
    t.Revises (t.detach s.id).removed [] (t.detach s.id).rest := by
  refine h.revises (k := c.parent) (f := fun is => is.filter (· ≠ s.id)) [] ?_
  rw [h.detach_rest_eq, List.append_nil, ← keptNodes_eq]
  rfl

theorem revises_planted (h : t.Spells (c.plug [s])) (ht : t.Sound next) (hg : graft.Sound next)
    (hb : graft.Spells [b]) : t.Revises (t.detach s.id).removed (next.block b.size)
      (t.planted s.id (graft.copySubtree b.id next)) := by
  have hq := ht.scion hg hb
  have hnew : ((t.graft s (b.copied next)).nodes c.parent).map Node.id = next.block b.size := by
    rw [map_id_nodes, hb.ids_graft_copied]
  rw [← hnew]
  refine h.revises (k := c.parent) (f := NodeId.overwrite s.id (t.graft s (b.copied next)).id) _ ?_
  rw [hq.planted_eq h]
  rfl

end Spells

namespace Sound

/-- **A removal revises the tree**, without new identities. -/
theorem revises_remove (h : t.Sound next) {r : Removal} (hr : t.remove candidate = .ok r) :
    t.Revises r.removed [] r.rest := by
  obtain ⟨c, s, hs, rfl⟩ := h.exists_of_remove hr
  exact hs.revises_rest

/-- **A replacement revises the tree**; the new identities are those of the graft. -/
theorem revises_replace (ht : t.Sound next) (hg : graft.Sound next) {r : Replacement}
    (hr : t.replace candidate graft next = .ok r) :
    t.Revises r.removed (next.block r.added) r.result := by
  obtain ⟨c, s, b, hs, hb, rfl⟩ := ht.exists_of_replace hg hr
  exact hs.revises_planted ht hg hb

end Sound

end Tree

end SyntaxTree
