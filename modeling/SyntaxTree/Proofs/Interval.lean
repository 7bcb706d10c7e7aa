/-
SyntaxTree/Proofs/Interval.lean

Ancestry read off the walks.  One node lies above another if and only if it is opened before it
and closed after it: the pre-order and the post-order together tell the ancestors
(`Encloses`).  At a place this is a division of what surrounds the hole.  Whatever a
pre-order meets before it comes to the hole is either on the way up or closed by then,

    before c ~ trunk c ++ closedBefore c,

and whatever a post-order closes after the hole is either on the way up or comes after it
in pre-order as well.  The two have nothing but the way up in common.

The way up has an end, and it ends at the root.  Counted from above, a node is in the subtrees
at its ancestors and in its own, so that the sizes of all subtrees add up to what the depths
do (`Sound.sum_extent`).
-/
import Mathlib.Combinatorics.Enumerative.DoubleCounting
import SyntaxTree.Proofs.Copying
import SyntaxTree.Proofs.Depth
import SyntaxTree.Proofs.Order

namespace SyntaxTree

open Branch Relation

section Lists

variable {l r : List NodeId} {i j : NodeId}

/-- What is in front of an element is what has a smaller index. -/
theorem idxOf_lt_idxOf_middle_iff (hnd : (l ++ j :: r).Nodup) :
    (l ++ j :: r).idxOf i < (l ++ j :: r).idxOf j ↔ i ∈ l := by
  have hj : j ∉ l := (List.nodup_cons.mp (List.nodup_middle.mp hnd)).1 ∘ List.mem_append_left r
  refine ⟨fun hlt => ?_, fun hi => idxOf_lt_idxOf hnd hi List.mem_cons_self⟩
  by_contra hi
  rw [List.idxOf_append_of_notMem hi, List.idxOf_append_of_notMem hj, List.idxOf_cons_self] at hlt
  omega

/-- What comes behind an element is what has a greater index. -/
theorem idxOf_middle_lt_idxOf_iff (hnd : (l ++ j :: r).Nodup) (hi : i ∈ l ++ j :: r) :
    (l ++ j :: r).idxOf j < (l ++ j :: r).idxOf i ↔ i ∈ r := by
  rw [List.append_cons] at hnd hi ⊢
  refine ⟨fun hlt => (List.mem_append.mp hi).resolve_left fun hfront => ?_,
    idxOf_lt_idxOf hnd (by simp)⟩
  rcases List.mem_append.mp hfront with hl | hj
  · have hback := idxOf_lt_idxOf (List.append_assoc l [j] r ▸ hnd) hl
      (List.mem_append_left r (List.mem_singleton_self j))
    rw [← List.append_assoc] at hback
    exact Nat.lt_asymm hlt hback
  · rw [List.mem_singleton.mp hj] at hlt
    exact Nat.lt_irrefl _ hlt

end Lists

namespace Place

/-- What is opened before the hole is on the way up, or it is closed before the hole. -/
theorem perm_before (c : Place) (hole : List NodeId) :
    ((c.before hole).map Node.id).Perm (c.trunk.map Bud.id ++ c.closedBefore) := by
  induction c generalizing hole with
  | top => exact .refl _
  | on v l r up ih =>
    have hleft : (l.flatMap ids).Perm (l.flatMap postIds) :=
      .flatMap_left l fun b _ => b.postIds_perm.symm
    rw [before, trunk, closedBefore, List.map_append, List.map_cons, List.map_cons, map_id_grove,
      Bud.id_node, List.cons_append, ← List.append_assoc]
    exact List.perm_middle.trans (((ih [v.id]).append hleft).cons v.id)

/-- What is closed after the hole is on the way up, or it is opened after the hole. -/
theorem perm_closedAfter (c : Place) :
    c.closedAfter.Perm (c.trunk.map Bud.id ++ c.after.map Node.id) := by
  induction c with
  | top => exact .refl _
  | on v l r up ih =>
    have hright : (r.flatMap postIds).Perm (r.flatMap ids) :=
      .flatMap_left r fun b _ => b.postIds_perm
    rw [closedAfter, trunk, after, List.map_append, List.map_cons, map_id_grove, List.cons_append]
    refine List.perm_middle.trans (.cons v.id ((hright.append ih).trans ?_))
    rw [← List.append_assoc, ← List.append_assoc]
    exact List.perm_append_comm.append_right _

end Place

namespace Tree

/-- The node `a` comes before `d` in pre-order and after it in post-order. -/
def Encloses (t : Tree) (a d : NodeId) : Prop :=
  t.preOrder.idxOf a < t.preOrder.idxOf d ∧ t.postOrder.idxOf d < t.postOrder.idxOf a

instance (t : Tree) (a d : NodeId) : Decidable (t.Encloses a d) := instDecidableAnd

variable {t : Tree} {c : Place} {s : Branch} {next a d p i : NodeId} {k : Nat}

namespace Spells

/-! ### Enclosure -/

theorem preOrder_eq_cons (h : t.Spells (c.plug [s])) : t.preOrder
    = (c.before [s.id]).map Node.id ++ s.id :: (s.limbs.flatMap ids ++ c.after.map Node.id) := by
  rw [h.preOrder_eq_append, ← grow_bud_limbs s, ids_grow, List.append_assoc]
  rfl

theorem nodup_preOrder {bs : List Branch} (h : t.Spells bs) : t.preOrder.Nodup :=
  h.preOrder_perm.nodup_iff.mpr (h.nodeIds_eq ▸ h.nodup_ids)

/-- **The nodes that enclose a node** are those on the way up from it. -/
theorem encloses_iff (h : t.Spells (c.plug [s])) (ha : t.contains a = true) :
    t.Encloses a s.id ↔ a ∈ c.trunk.map Bud.id := by
  have hpre := h.nodup_preOrder
  have hpost := h.nodup_postOrder
  have ha : a ∈ t.postOrder := h.postOrder_perm.mem_iff.mpr (contains_iff_mem_nodeIds.mp ha)
  rw [h.preOrder_eq_cons] at hpre
  rw [h.postOrder_eq_append] at hpost ha
  rw [Encloses, h.preOrder_eq_cons, h.postOrder_eq_append, idxOf_lt_idxOf_middle_iff hpre,
    idxOf_middle_lt_idxOf_iff hpost ha, (c.perm_before _).mem_iff, List.mem_append]
  constructor
  · rintro ⟨hup | hclosed, hafter⟩
    · exact hup
    · -- nothing is closed both before the hole and after it
      exact absurd rfl ((List.nodup_append.mp hpost).2.2 a (List.mem_append_left _ hclosed) a
        (List.mem_cons_of_mem _ hafter))
  · intro hup
    exact ⟨.inl hup, c.perm_closedAfter.mem_iff.mpr (List.mem_append_left _ hup)⟩

/-- The nodes below a node are those reached from it by going down. -/
theorem mem_descendants_iff (h : t.Spells (c.plug [s])) :
    i ∈ t.descendants s.id ↔ TransGen t.Child s.id i := by
  have hbelow : t.descendants s.id = s.limbs.flatMap ids := by
    rw [descendants, h.preOrderFrom_id, ← grow_bud_limbs s, ids_grow]
    rfl
  rw [hbelow, List.mem_flatMap, TransGen.head'_iff]
  constructor
  · rintro ⟨d, hd, hi⟩
    obtain ⟨c', -, hlimb⟩ := h.exists_limb hd
    exact ⟨d.id, h.child_iff.mpr ⟨d, hd, rfl⟩, hlimb.reflTransGen_child hi⟩
  · rintro ⟨j, hj, hji⟩
    obtain ⟨d, hd, rfl⟩ := h.child_iff.mp hj
    obtain ⟨c', -, hlimb⟩ := h.exists_limb hd
    exact ⟨d, hd, hlimb.reflTransGen_child_iff.mp hji⟩

/-! ### The way up -/

theorem nodup_ancestors (h : t.Spells (c.plug [s])) : (s.id :: t.ancestors s.id).Nodup := by
  have hpre := h.nodup_preOrder
  rw [h.preOrder_eq_cons, List.append_cons] at hpre
  have hup := List.perm_append_singleton _ _ |>.nodup_iff.mp hpre.of_append_left
  rw [((c.perm_before _).cons _).nodup_iff, ← List.cons_append] at hup
  rw [h.ancestors_id]
  exact hup.of_append_left

/-- **The way up ends at the root.** -/
theorem root_eq_getLastD (h : t.Spells (c.plug [s])) :
    t.root = some ((t.ancestors s.id).getLastD s.id) := by
  rw [h.ancestors_id]
  induction c generalizing s with
  | top => exact h.root_eq
  | on v l r up ih => rw [ih h.up, Place.trunk, List.map_cons, List.getLastD_cons]; rfl

theorem climb_eq (h : t.Spells (c.plug [s])) (hk : t.depthOf s.id ≤ k) :
    t.climb k s.id = some (t.ancestors s.id) := by
  rw [h.depthOf_id] at hk
  obtain ⟨m, rfl⟩ := Nat.le.dest hk
  rw [h.climb_id, h.ancestors_id]

/-- A child is one level deeper than the node it is a child of. -/
theorem depthOf_child (h : t.Spells (c.plug [s])) (hp : t.Child p s.id) :
    t.depthOf s.id = t.depthOf p + 1 := by
  have hparent := h.parent_eq_of_child hp
  cases c with
  | top => cases hparent
  | on v l r up =>
    obtain rfl : v.id = p := Option.some.inj hparent
    have hup : t.depthOf v.id = up.trunk.length := h.up.depthOf_id
    rw [h.depthOf_id, hup, Place.trunk, List.length_cons]

end Spells

namespace Sound

theorem isAncestor_iff (h : t.Sound next) (hd : t.contains d = true) :
    t.isAncestor a d = true ↔ TransGen t.Child a d := by
  rw [isAncestor, List.contains_iff_mem, h.mem_ancestors_iff hd]

/-- **Being an ancestor is being enclosing.** -/
theorem isAncestor_iff_encloses (h : t.Sound next) (ha : t.contains a = true)
    (hd : t.contains d = true) : t.isAncestor a d = true ↔ t.Encloses a d := by
  rw [h.isAncestor_iff hd]
  obtain ⟨c, s, hs, rfl⟩ := h.exists_place hd
  rw [hs.encloses_iff ha, hs.mem_trunk_iff]

theorem isAncestor_iff_mem_descendants (h : t.Sound next) (ha : t.contains a = true)
    (hd : t.contains d = true) : t.isAncestor a d = true ↔ d ∈ t.descendants a := by
  rw [h.isAncestor_iff hd]
  obtain ⟨c, s, hs, rfl⟩ := h.exists_place ha
  rw [hs.mem_descendants_iff]

/-- Both ends of a way down are live, or neither is. -/
theorem contains_iff (h : t.Sound next) (had : ReflTransGen t.Child a d) :
    t.contains a = true ↔ t.contains d = true := by
  obtain ⟨bs, hs⟩ := h.spells
  induction had with
  | refl => exact Iff.rfl
  | @tail p i _ hchild ih =>
    obtain ⟨n, hn, hi⟩ := hchild
    obtain ⟨m, hm, -⟩ := hs.wellFormed.child_live p n i hn hi
    exact ih.trans (iff_of_true (Option.isSome_of_eq_some hn) (Option.isSome_of_eq_some hm))

theorem mem_cons_ancestors_iff (h : t.Sound next) (hd : t.contains d = true) :
    a ∈ d :: t.ancestors d ↔ ReflTransGen t.Child a d := by
  rw [List.mem_cons, h.mem_ancestors_iff hd, reflTransGen_iff_eq_or_transGen, eq_comm]

theorem nodup_ancestors (h : t.Sound next) (hd : t.contains d = true) :
    (d :: t.ancestors d).Nodup := by
  obtain ⟨c, s, hs, rfl⟩ := h.exists_place hd
  exact hs.nodup_ancestors

theorem depthOf_lt_size (h : t.Sound next) (hd : t.contains d = true) : t.depthOf d < t.size := by
  obtain ⟨bs, hs⟩ := h.spells
  have hsub : d :: t.ancestors d ⊆ t.nodeIds := fun a ha =>
    contains_iff_mem_nodeIds.mp ((h.contains_iff ((h.mem_cons_ancestors_iff hd).mp ha)).mpr hd)
  have hle := ((h.nodup_ancestors hd).subperm hsub).length_le
  rwa [hs.nodeIds_eq, List.length_map, ← size_eq_length] at hle

theorem getLast?_ancestors (h : t.Sound next) (hd : t.contains d = true) :
    (t.ancestors d).getLast? = if t.root = some d then none else t.root := by
  obtain ⟨c, s, hs, rfl⟩ := h.exists_place hd
  have hroot := hs.root_eq_getLastD
  have hnd := hs.nodup_ancestors
  rcases List.eq_nil_or_concat (t.ancestors s.id) with hup | ⟨ps, r, hup⟩
  · rw [hup] at hroot ⊢
    rw [if_pos (by simpa using hroot), List.getLast?_nil]
  · -- the last of the ancestors is not the node itself
    rw [hup] at hroot hnd ⊢
    have hr : t.root = some r := by simpa using hroot
    have hne : r ≠ s.id := fun e => (List.nodup_cons.mp hnd).1 (by simp [e])
    rw [hr, if_neg fun e => hne (Option.some.inj e), List.concat_eq_append, List.getLast?_concat]

/-! ### Double counting -/

/-- **The sizes of all subtrees** add up to what the depths do, each counted from one: either sum
counts the pairs of a node and one that is above it or the same. -/
theorem sum_extent (h : t.Sound next) :
    (t.nodeIds.map t.extent).sum = (t.nodeIds.map fun i => t.depthOf i + 1).sum := by
  classical
  have hnd : t.nodeIds.Nodup := h.spells.elim fun bs hbs => hbs.wellFormed.nodup_keys
  have hextent : ∀ i ∈ t.nodeIds.toFinset,
      t.extent i = (t.nodeIds.toFinset.bipartiteAbove (ReflTransGen t.Child) i).card := by
    intro i hi
    have hwalk := h.enumerates_preOrder
    rw [List.mem_toFinset, ← contains_iff_mem_nodeIds] at hi
    rw [extent, ← List.toFinset_card_of_nodup (hwalk.nodup i)]
    congr 1
    ext j
    rw [List.mem_toFinset, hwalk.mem_iff, Finset.mem_bipartiteAbove, List.mem_toFinset,
      ← contains_iff_mem_nodeIds]
    exact ⟨fun hj => ⟨(h.contains_iff hj.2).mp hi, hj.2⟩, fun hj => ⟨hi, hj.2⟩⟩
  have hdepth : ∀ j ∈ t.nodeIds.toFinset,
      t.depthOf j + 1 = (t.nodeIds.toFinset.bipartiteBelow (ReflTransGen t.Child) j).card := by
    intro j hj
    rw [List.mem_toFinset, ← contains_iff_mem_nodeIds] at hj
    rw [depthOf, ← List.length_cons, ← List.toFinset_card_of_nodup (h.nodup_ancestors hj)]
    congr 1
    ext i
    rw [List.mem_toFinset, h.mem_cons_ancestors_iff hj, Finset.mem_bipartiteBelow,
      List.mem_toFinset, ← contains_iff_mem_nodeIds]
    exact ⟨fun hi => ⟨(h.contains_iff hi).mpr hj, hi⟩, fun hi => hi.2⟩
  rw [← List.sum_toFinset _ hnd, ← List.sum_toFinset _ hnd, Finset.sum_congr rfl hextent,
    Finset.sum_congr rfl hdepth]
  exact Finset.sum_card_bipartiteAbove_eq_sum_card_bipartiteBelow _

end Sound

end Tree

namespace Workshop

open SyntaxTree.Tree

/-- **Ancestry agrees with the walks**, in every tree of every run. A node lies above another if it
comes before it in pre-order and after it in post-order, and if the other is among its descendants.
The way up ends at the root, without meeting a node twice, and its length grows by one with every
step down. -/
theorem run_ancestry (jobs : List Job) {t : Tree} (ht : t ∈ (run jobs).trees) :
    (∀ a d, t.contains a = true → t.contains d = true →
      (t.isAncestor a d = true ↔ t.Encloses a d) ∧
      (t.isAncestor a d = true ↔ d ∈ t.descendants a)) ∧
    (∀ d, t.contains d = true →
      (∀ k, t.depthOf d ≤ k → t.climb k d = some (t.ancestors d)) ∧ (t.ancestors d).Nodup ∧
      (t.ancestors d).length = t.depthOf d ∧ t.depthOf d < t.size ∧
      (t.ancestors d).getLast? = if t.root = some d then none else t.root) ∧
    (∀ p i, t.Child p i → t.depthOf i = t.depthOf p + 1) ∧
    IsStrictOrder {i // t.contains i = true} (fun a d => t.isAncestor a d = true) ∧
    (t.nodeIds.map t.extent).sum = (t.nodeIds.map fun i => t.depthOf i + 1).sum := by
  have h := (sound_run jobs).tree ht
  obtain ⟨bs, hbs⟩ := h.spells
  refine ⟨fun a d ha hd => ⟨h.isAncestor_iff_encloses ha hd,
    h.isAncestor_iff_mem_descendants ha hd⟩, ?_, ?_, { irrefl := ?_, trans := ?_ }, h.sum_extent⟩
  · intro d hd
    refine ⟨?_, (h.nodup_ancestors hd).of_cons, rfl, h.depthOf_lt_size hd, h.getLast?_ancestors hd⟩
    obtain ⟨c, s, hs, rfl⟩ := h.exists_place hd
    exact fun k => hs.climb_eq
  · intro p i hchild
    obtain ⟨n, hn, hi⟩ := hchild
    obtain ⟨m, hm, -⟩ := hbs.wellFormed.child_live p n i hn hi
    obtain ⟨c, s, hs, rfl⟩ := h.exists_place (Option.isSome_of_eq_some hm)
    exact hs.depthOf_child ⟨n, hn, hi⟩
  · rintro ⟨a, ha⟩ haa
    exact hbs.wellFormed.acyclic a ((h.isAncestor_iff ha).mp haa)
  · rintro ⟨a, _⟩ ⟨b, hb⟩ ⟨d, hd⟩ hab hbd
    exact (h.isAncestor_iff hd).mpr (((h.isAncestor_iff hb).mp hab).trans
      ((h.isAncestor_iff hd).mp hbd))

/-- After fifteen of the errands the sum has a copy of itself below it. The way up from the second
number of the copy leads over the copy to the root; the copy does not enclose what stands on its
right. -/
theorem ancestry_errands : ∃ t a d e, (run (errands.take 15)).forest.tree? "sum" = some t ∧
    t.isAncestor a d = true ∧ t.Encloses a d ∧ d ∈ t.descendants a ∧ ¬ t.Encloses a e ∧
    t.preOrder.idxOf a < t.preOrder.idxOf e ∧ t.depthOf d = 2 ∧
    t.climb 2 d = some (t.ancestors d) ∧ (t.ancestors d).getLast? = t.root ∧
    (t.nodeIds.map t.extent).sum = 11 := by
  have hfull : ((run (errands.take 15)).forest.tree? "sum").bind (fun t =>
      (t.atPath? [0]).bind fun a => (t.atPath? [0, 1]).bind fun d => (t.atPath? [1]).map fun e =>
        decide (t.contains a = true ∧ t.contains d = true ∧ t.contains e = true ∧
          t.isAncestor a d = true ∧ t.isAncestor a e = false ∧
          t.preOrder.idxOf a < t.preOrder.idxOf e ∧ t.depthOf d = 2 ∧ t.root ≠ some d ∧
          (t.nodeIds.map fun i => t.depthOf i + 1).sum = 11)) = some true := by decide
  obtain ⟨t, ht, hfull⟩ := Option.bind_eq_some_iff.mp hfull
  obtain ⟨a, -, hfull⟩ := Option.bind_eq_some_iff.mp hfull
  obtain ⟨d, -, hfull⟩ := Option.bind_eq_some_iff.mp hfull
  obtain ⟨e, -, hfull⟩ := Option.map_eq_some_iff.mp hfull
  obtain ⟨ha, hd, he, hup, hbeside, hbefore, hdepth, hroot, hsum⟩ := of_decide_eq_true hfull
  obtain ⟨hpair, hway, -, -, hcount⟩ := run_ancestry _ (mem_trees_of_tree? ht)
  obtain ⟨hends, -, -, -, hlast⟩ := hway d hd
  have hapart : ¬ t.Encloses a e := fun h =>
    Bool.eq_false_iff.mp hbeside ((hpair a e ha he).1.mpr h)
  exact ⟨t, a, d, e, ht, hup, (hpair a d ha hd).1.mp hup, (hpair a d ha hd).2.mp hup, hapart,
    hbefore, hdepth, hends 2 hdepth.le, hlast.trans (if_neg hroot), hcount.trans hsum⟩

end Workshop

end SyntaxTree
