/-
SyntaxTree/Proofs/Depth.lean

How deep a tree is.  The depth of a node is the number of buds that are passed on the way
up from its place (`Spells.depthOf_id`).  The greatest depth in a tree is the height of its
branch, the crown, and it is reached at a leaf: from every place there is a way on up to a
leaf that lies as high as the crown of the branch there (`Branch.exists_tip`).  So it does not
matter whether the greatest depth is looked for among all nodes or among the leaves only
(`Spells.depth_leaves`, `Spells.depth_nodes`).
-/
import Mathlib.Algebra.GroupWithZero.Nat
import Mathlib.Order.MinMax
import SyntaxTree.Proofs.Ancestry
import SyntaxTree.Tree.Stats

namespace SyntaxTree

open Branch

/-! ### The greatest of some numbers -/

section Max

variable {α : Type} [LinearOrder α] {l : List α} {a k : α}

/-- The greatest is one that none exceeds. -/
theorem foldl_max_eq (hk : k ∈ l) (ha : a ≤ k) (hle : ∀ x ∈ l, x ≤ k) : l.foldl max a = k := by
  rw [List.foldl_max, List.max?_eq_some_iff.mpr ⟨hk, hle⟩]
  exact max_eq_right ha

theorem le_foldl_max (hk : k ∈ l) : k ≤ l.foldl max a := by
  obtain ⟨m, hm⟩ := Option.isSome_iff_exists.mp
    (List.isSome_max?_iff.mpr (List.ne_nil_of_mem hk))
  rw [List.foldl_max, hm]
  exact (List.max?_eq_some_iff.mp hm |>.2 k hk).trans (le_max_right a m)

theorem foldl_max_mem (ha : a ∈ l) : l.foldl max a ∈ l := by
  obtain ⟨m, hm⟩ := Option.isSome_iff_exists.mp
    (List.isSome_max?_iff.mpr (List.ne_nil_of_mem ha))
  obtain ⟨hmem, hle⟩ := List.max?_eq_some_iff.mp hm
  rwa [foldl_max_eq hmem (hle a ha) hle]

end Max

namespace Branch

/-! ### Leaves and heights of branches -/

/-- The number of nodes of a branch that have no branches on them. -/
def tips : Branch → Nat := fold fun _ ls => if ls.isEmpty then 1 else ls.sum

/-- The number of edges between the bottom of a branch and its highest node. -/
def crown : Branch → Nat := fold fun _ ls => (ls.map (· + 1)).foldl max 0

theorem tips_grow (v : Bud) (bs : List Branch) :
    (grow v bs).tips = if bs.isEmpty then 1 else (bs.map tips).sum := by
  rw [tips, fold_grow, List.isEmpty_map]

theorem crown_grow (v : Bud) (bs : List Branch) :
    (grow v bs).crown = (bs.map fun b => b.crown + 1).foldl max 0 := by
  rw [crown, fold_grow, List.map_map]
  rfl

theorem crown_lt_of_mem {v : Bud} {bs : List Branch} {b : Branch} (hb : b ∈ bs) :
    b.crown < (grow v bs).crown := by
  rw [crown_grow]
  exact le_foldl_max (List.mem_map_of_mem (f := fun b => b.crown + 1) hb)

/-- A branch with others on it is one higher than the highest of them. -/
theorem exists_crown_eq {v : Bud} {bs : List Branch} (hne : bs ≠ []) :
    ∃ b ∈ bs, (grow v bs).crown = b.crown + 1 := by
  have hsome : ((bs.map fun b => b.crown + 1).max?).isSome = true := by
    rw [List.isSome_max?_iff]
    simpa using hne
  obtain ⟨k, hk⟩ := Option.isSome_iff_exists.mp hsome
  obtain ⟨hmem, hle⟩ := List.max?_eq_some_iff.mp hk
  obtain ⟨b, hb, rfl⟩ := List.mem_map.mp hmem
  exact ⟨b, hb, (crown_grow v bs).trans (foldl_max_eq hmem (Nat.zero_le _) hle)⟩

mutual

/-- The leaves among the nodes of a branch are its tips. -/
theorem length_filter_isLeaf (p : Option NodeId) : ∀ b : Branch,
    ((b.nodes p).filter Node.isLeaf).length = b.tips
  | grow v [] => rfl
  | grow v (b :: bs) => by
    -- a node with branches on it is no leaf
    have hbottom : (v.node p ((b :: bs).map Branch.id)).isLeaf = false := rfl
    rw [nodes, List.filter_cons_of_neg (Bool.eq_false_iff.mp hbottom),
      length_filter_isLeaf_grove (some v.id) (b :: bs), tips_grow]
    rfl

theorem length_filter_isLeaf_grove (p : Option NodeId) : ∀ bs : List Branch,
    ((grove p bs).filter Node.isLeaf).length = (bs.map tips).sum
  | [] => by rw [grove_nil]; rfl
  | b :: bs => by
    rw [grove_cons, List.filter_append, List.length_append, length_filter_isLeaf p b,
      length_filter_isLeaf_grove p bs, List.map_cons, List.sum_cons]

end

/-! ### Ways up to a leaf -/

/-- Nowhere in a branch does another reach higher than the whole. -/
theorem length_trunk_add_crown_le {b s : Branch} {c : Place} (h : c.plug [s] = [b]) :
    c.trunk.length + s.crown ≤ b.crown := by
  induction c generalizing s with
  | top =>
    obtain rfl : s = b := List.singleton_inj.mp h
    exact Nat.le_of_eq (Nat.zero_add _)
  | on v l r up ih =>
    have hup := ih h
    have hlt : s.crown < (grow v (l ++ [s] ++ r)).crown := crown_lt_of_mem (by simp)
    rw [Place.trunk, List.length_cons]
    omega

/-- **From every place there is a way on** to a leaf that lies as high as the branch reaches. -/
theorem exists_tip (b : Branch) (up : Place) :
    ∃ c v, Place.plug c [grow v []] = up.plug [b] ∧
      c.trunk.length = up.trunk.length + b.crown := by
  induction b generalizing up with
  | grow v bs ih =>
    rcases eq_or_ne bs [] with rfl | hne
    · exact ⟨up, v, rfl, (Nat.add_zero _).symm⟩
    · -- the way goes on along the highest branch
      obtain ⟨b, hb, hcrown⟩ := exists_crown_eq (v := v) hne
      obtain ⟨l, r, rfl⟩ := List.append_of_mem hb
      obtain ⟨c, w, hplug, hlength⟩ := ih b hb (.on v l r up)
      refine ⟨c, w, hplug.trans ?_, ?_⟩
      · rw [Place.plug, List.append_assoc, List.singleton_append]
      · rw [hlength, hcrown, Place.trunk, List.length_cons]
        omega

end Branch

namespace Tree

namespace Spells

variable {t : Tree} {c : Place} {s b : Branch}

/-- **The depth of a node** is the number of buds on the way up from its place. -/
theorem depthOf_id (h : t.Spells (c.plug [s])) : t.depthOf s.id = c.trunk.length := by
  rw [depthOf, h.ancestors_id, List.length_map]

theorem length_leaves {bs : List Branch} (h : t.Spells bs) :
    t.leaves.length = (bs.map tips).sum := by
  have hperm : (t.leaves).Perm ((grove none bs).filter Node.isLeaf) := h.perm.filter _
  rw [hperm.length_eq, length_filter_isLeaf_grove]

theorem depthOf_le (h : t.Spells [b]) {n : Node} (hn : n ∈ t.nodeList) :
    t.depthOf n.id ≤ b.crown := by
  obtain ⟨c, s, hplug, rfl⟩ := h.exists_plug_eq hn
  have hs : t.Spells (c.plug [s]) := hplug.symm ▸ h
  have hle := length_trunk_add_crown_le hplug
  have hdepth : t.depthOf s.id = c.trunk.length := hs.depthOf_id
  show t.depthOf s.id ≤ _
  omega

/-- The crown of a tree is reached at a leaf. -/
theorem exists_leaf (h : t.Spells [b]) : ∃ n ∈ t.leaves, t.depthOf n.id = b.crown := by
  obtain ⟨c, v, hplug, hlength⟩ := exists_tip b .top
  have hs : t.Spells (c.plug [grow v []]) := hplug.symm ▸ h
  refine ⟨(grow v []).bottom c.parent, ?_, ?_⟩
  · exact List.mem_filter.mpr ⟨hs.mem_nodeList (bottom_mem_nodes _ _), rfl⟩
  · exact hs.depthOf_id.trans (hlength.trans (Nat.zero_add _))

/-- Among any nodes that include the leaves, the greatest depth is the crown. -/
theorem foldl_depthOf_eq (h : t.Spells [b]) {ns : List Node} (hleaves : t.leaves ⊆ ns)
    (hns : ns ⊆ t.nodeList) : (ns.map fun n => t.depthOf n.id).foldl max 0 = b.crown := by
  obtain ⟨n, hn, hdepth⟩ := h.exists_leaf
  refine foldl_max_eq (List.mem_map.mpr ⟨n, hleaves hn, hdepth⟩) (Nat.zero_le _) fun k hk => ?_
  obtain ⟨m, hm, rfl⟩ := List.mem_map.mp hk
  exact h.depthOf_le (hns hm)

theorem depth_leaves (h : t.Spells [b]) :
    (t.leaves.map fun n => t.depthOf n.id).foldl max 0 = b.crown :=
  h.foldl_depthOf_eq (List.Subset.refl _) List.filter_sublist.subset

theorem depth_nodes (h : t.Spells [b]) : (t.nodeIds.map t.depthOf).foldl max 0 = b.crown := by
  rw [h.nodeIds_eq, List.map_map]
  exact h.foldl_depthOf_eq List.filter_sublist.subset (List.Subset.refl _)

end Spells

end Tree

end SyntaxTree
