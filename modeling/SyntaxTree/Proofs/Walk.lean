/-
SyntaxTree/Proofs/Walk.lean

The walks of a tree, against recursion on branches.  A walk works off a stack within a
number of steps; what it does with one entry of the stack is independent of the rest,

    preWalk t (b.size + k) (b.id :: stack) = (preWalk t k stack).map (b.ids ++ ·),

and the same holds of the post-order with twice as many steps.  The steps that a walk is
granted are enough for every branch the tree bears, so the walks are the recursive orders.

`branchAt? t i` reads a tree as a branch: it follows the children of `i` downwards.  On a
tree that spells `plug c [s]` it finds `s` at `s.id`.
-/
import Mathlib.Data.List.Perm.Subperm
import SyntaxTree.Proofs.Spelling
import SyntaxTree.Tree.Walk

namespace SyntaxTree

open Branch

namespace Tree

/-- The nodes of a branch are live nodes of the tree, whatever stands above the branch. -/
def Bears (t : Tree) (b : Branch) : Prop := ∃ p, ∀ n ∈ b.nodes p, t.node? n.id = some n

namespace Bears

variable {t : Tree} {b : Branch} {v : Bud} {bs : List Branch}

theorem node?_eq (h : t.Bears b) : ∃ p, t.node? b.id = some (b.bottom p) :=
  h.imp fun p hp => hp _ (bottom_mem_nodes p b)

theorem limb (h : t.Bears (grow v bs)) : ∀ b ∈ bs, t.Bears b := by
  obtain ⟨p, hp⟩ := h
  intro b hb
  refine ⟨some v.id, fun n hn => hp n ?_⟩
  rw [Branch.nodes]
  exact List.mem_cons_of_mem _ (mem_grove.mpr ⟨b, hb, hn⟩)

/-- A tree has at least the nodes of the branches it bears. -/
theorem size_le (h : t.Bears b) (hnd : b.ids.Nodup) : b.size ≤ t.size := by
  obtain ⟨p, hp⟩ := h
  have hsub : b.ids ⊆ t.nodeIds := by
    intro i hi
    rw [← map_id_nodes p, List.mem_map] at hi
    obtain ⟨n, hn, rfl⟩ := hi
    rw [← contains_iff_mem_nodeIds, contains, OrderedMap.contains]
    exact Option.isSome_iff_exists.mpr ⟨n, hp n hn⟩
  have hlen : t.nodeIds.length = t.size := by
    simp [nodeIds, OrderedMap.keys, size, OrderedMap.size]
  exact hlen ▸ (hnd.subperm hsub).length_le

end Bears

theorem Spells.bears {t : Tree} {c : Place} {s : Branch} (h : t.Spells (c.plug [s])) :
    t.Bears s :=
  ⟨c.parent, fun _ hn => h.toCoherent.node?_id (h.mem_nodeList hn)⟩

/-! ### Pre-order -/

mutual

/-- A walk sees the whole of a branch before it comes to the rest of the stack. -/
theorem preWalk_branch {t : Tree} : ∀ {b : Branch}, t.Bears b → ∀ k stack,
    t.preWalk (b.size + k) (b.id :: stack) = (t.preWalk k stack).map (b.ids ++ ·)
  | grow v bs, h, k, stack => by
    obtain ⟨p, hp⟩ := h.node?_eq
    have hsize : (grow v bs).size + k = ((bs.flatMap ids).length + k) + 1 := by
      rw [size_grow]; omega
    rw [hsize, preWalk, hp]
    -- one step is spent on the bottom, which leaves the branches on it at the top of the stack
    show (t.preWalk _ (bs.map Branch.id ++ stack)).map _ = _
    rw [preWalk_branches h.limb, ids_grow, Option.map_map]
    rfl

theorem preWalk_branches {t : Tree} : ∀ {bs : List Branch}, (∀ b ∈ bs, t.Bears b) → ∀ k stack,
    t.preWalk ((bs.flatMap ids).length + k) (bs.map Branch.id ++ stack)
      = (t.preWalk k stack).map (bs.flatMap ids ++ ·)
  | [], _, k, stack => by simp
  | b :: bs, h, k, stack => by
    have hlen : ((b :: bs).flatMap ids).length + k = b.size + ((bs.flatMap ids).length + k) := by
      rw [List.flatMap_cons, List.length_append, Branch.size]; omega
    rw [hlen, List.map_cons, List.cons_append, preWalk_branch (h b List.mem_cons_self),
      preWalk_branches fun c hc => h c (List.mem_cons_of_mem _ hc), Option.map_map,
      List.flatMap_cons]
    congr 1
    funext l
    exact (List.append_assoc _ _ _).symm

end

/-- **The pre-order of a branch that the tree bears** is the recursive one. -/
theorem Bears.preOrderFrom_eq {t : Tree} {b : Branch} (h : t.Bears b) (hnd : b.ids.Nodup) :
    t.preOrderFrom b.id = b.ids := by
  obtain ⟨k, hk⟩ := Nat.le.dest (h.size_le hnd)
  rw [preOrderFrom, ← hk, Nat.add_assoc, preWalk_branch h]
  simp [preWalk]

/-! ### Post-order -/

mutual

/-- A walk closes the whole of a branch before it comes to the rest of the stack. -/
theorem postWalk_branch {t : Tree} : ∀ {b : Branch}, t.Bears b → ∀ k stack,
    t.postWalk (2 * b.size + k) (.expand b.id :: stack)
      = (t.postWalk k stack).map (b.postIds ++ ·)
  | grow v bs, h, k, stack => by
    obtain ⟨p, hp⟩ := h.node?_eq
    have hsize : 2 * (grow v bs).size + k = (2 * (bs.flatMap ids).length + (k + 1)) + 1 := by
      rw [size_grow]; omega
    rw [hsize, postWalk, hp]
    -- the bottom takes two steps: it is expanded now and closed when the branches are done
    show t.postWalk _ ((bs.map Branch.id).map .expand ++ .close v.id :: stack) = _
    rw [postWalk_branches h.limb, postWalk, postIds_grow, Option.map_map]
    congr 1
    funext l
    simp

theorem postWalk_branches {t : Tree} : ∀ {bs : List Branch}, (∀ b ∈ bs, t.Bears b) → ∀ k stack,
    t.postWalk (2 * (bs.flatMap ids).length + k) ((bs.map Branch.id).map .expand ++ stack)
      = (t.postWalk k stack).map (bs.flatMap postIds ++ ·)
  | [], _, k, stack => by simp
  | b :: bs, h, k, stack => by
    have hlen : 2 * ((b :: bs).flatMap ids).length + k
        = 2 * b.size + (2 * (bs.flatMap ids).length + k) := by
      rw [List.flatMap_cons, List.length_append, Branch.size]; omega
    rw [hlen, List.map_cons, List.map_cons, List.cons_append,
      postWalk_branch (h b List.mem_cons_self),
      postWalk_branches fun c hc => h c (List.mem_cons_of_mem _ hc), Option.map_map,
      List.flatMap_cons]
    congr 1
    funext l
    exact (List.append_assoc _ _ _).symm

end

/-- **The post-order of a branch that the tree bears** is the recursive one. -/
theorem Bears.postOrderFrom_eq {t : Tree} {b : Branch} (h : t.Bears b) (hnd : b.ids.Nodup) :
    t.postOrderFrom b.id = b.postIds := by
  obtain ⟨k, hk⟩ := Nat.le.dest (h.size_le hnd)
  have hsteps : 2 * t.size + 1 = 2 * b.size + (2 * k + 1) := by omega
  rw [postOrderFrom, hsteps, postWalk_branch h]
  simp [postWalk]

/-! ### Reading a tree -/

/-- The branch at an identity, as far as it is no higher than a number of levels. -/
def readAt (t : Tree) : Nat → NodeId → Option Branch
  | 0, _ => none
  | levels + 1, i =>
    match t.node? i with
    | none => none
    | some n => (n.children.mapM (readAt t levels)).map (grow n.bud)

/-- The branch at an identity: its node, and below it the branches at its children. -/
def branchAt? (t : Tree) (i : NodeId) : Option Branch := t.readAt t.size i

/-- The tree as a branch; there is none for an empty tree. -/
def branch? (t : Tree) : Option Branch := t.root.bind t.branchAt?

/-- Reading finds the branches that the tree bears. -/
theorem Bears.readAt_eq {t : Tree} {b : Branch} (h : t.Bears b) {levels : Nat}
    (hle : b.size ≤ levels) : t.readAt levels b.id = some b := by
  induction b generalizing levels with
  | grow v bs ih =>
    obtain ⟨p, hp⟩ := h.node?_eq
    rw [size_grow] at hle
    obtain ⟨levels, rfl⟩ := Nat.exists_eq_succ_of_ne_zero (by omega : levels ≠ 0)
    -- a branch on `v` is smaller than the whole, so one level less is enough for it
    have hread : (bs.map Branch.id).mapM (t.readAt levels) = some bs := by
      have hbs : ∀ b ∈ bs, t.readAt levels b.id = some b := by
        intro b hb
        exact ih b hb (h.limb b hb) (Nat.le_trans (size_le_of_mem hb) (Nat.le_of_succ_le_succ hle))
      clear ih h hp hle
      induction bs with
      | nil => rfl
      | cons b bs ih =>
        rw [List.map_cons, List.mapM_cons, hbs b List.mem_cons_self,
          ih fun c hc => hbs c (List.mem_cons_of_mem _ hc)]
        rfl
    rw [readAt, hp]
    show ((bs.map Branch.id).mapM (t.readAt levels)).map _ = _
    rw [hread]
    rfl

namespace Spells

variable {t : Tree} {bs : List Branch} {c : Place} {s : Branch}

theorem branchAt?_id (h : t.Spells (c.plug [s])) : t.branchAt? s.id = some s :=
  h.bears.readAt_eq (h.bears.size_le h.nodup_ids_branch)

theorem branch?_eq (h : t.Spells bs) : t.branch? = bs.head? := by
  rw [branch?, h.root_eq]
  obtain rfl | ⟨b, rfl⟩ := h.eq_nil_or_singleton
  · rfl
  · exact h.atTop.branchAt?_id

theorem preOrderFrom_id (h : t.Spells (c.plug [s])) : t.preOrderFrom s.id = s.ids :=
  h.bears.preOrderFrom_eq h.nodup_ids_branch

theorem preOrder_eq (h : t.Spells bs) : t.preOrder = bs.flatMap ids := by
  rw [preOrder, h.root_eq]
  obtain rfl | ⟨b, rfl⟩ := h.eq_nil_or_singleton
  · rfl
  · rw [List.flatMap_singleton]
    exact h.atTop.preOrderFrom_id

theorem postOrderFrom_id (h : t.Spells (c.plug [s])) : t.postOrderFrom s.id = s.postIds :=
  h.bears.postOrderFrom_eq h.nodup_ids_branch

end Spells

end Tree

end SyntaxTree
