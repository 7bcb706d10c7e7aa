/-
SyntaxTree/Proofs/Order.lean

The orders of the walks, as recursions.  A walk works off a stack; the order it comes to is
the one that is defined by going down the children,

    order i = visit i (the orders of the children of i, one after another),

with nothing where there is no live node.  On a tree in use these equations have a single
solution (`Sound.recursive_unique`).  If `visit i below` is `i :: below` it is the
pre-order, and if it is `below ++ [i]` it is the post-order.

Either order has the subtree at a node as a block of the whole (`Enumerates`).  A place
divides the pre-order as it divides the post-order: into what comes before the hole, the
filling, and what comes after it.
-/
import SyntaxTree.Proofs.PostOrder
import SyntaxTree.Proofs.Workshop

namespace SyntaxTree

open Branch Relation

namespace Tree

/-- The order that goes down the children from left to right, and makes of a node and of what is
below it a list by `visit`. -/
def Recursive (t : Tree) (visit : NodeId → List NodeId → List NodeId)
    (order : NodeId → List NodeId) : Prop :=
  ∀ i, order i = match t.node? i with
    | some n => visit i (n.children.flatMap order)
    | none => []

/-- The list `order i` has every node of the subtree at `i` once, and is a block of the list
`whole`, which has every node of the tree once. -/
structure Enumerates (t : Tree) (order : NodeId → List NodeId) (whole : List NodeId) : Prop where
  nodup : ∀ i, (order i).Nodup
  mem_iff : ∀ i j, j ∈ order i ↔ t.contains i = true ∧ ReflTransGen t.Child i j
  nodup_whole : whole.Nodup
  perm : whole.Perm t.nodeIds
  block : ∀ i, t.contains i = true → order i <:+: whole

variable {t : Tree} {bs : List Branch} {c : Place} {s : Branch} {next i : NodeId} {k : Nat}
  {visit : NodeId → List NodeId → List NodeId} {order other : NodeId → List NodeId}

theorem node?_eq_none (hi : t.contains i = false) : t.node? i = none :=
  Option.isNone_iff_eq_none.mp (Option.isSome_eq_false_iff.mp hi)

/-- An identity stands for the bottom of the branch at some place, or for nothing. -/
theorem Sound.place_or_dead (h : t.Sound next) (i : NodeId) :
    (∃ (c : Place) (s : Branch), t.Spells (c.plug [s]) ∧ s.id = i) ∨ t.contains i = false := by
  by_cases hi : t.contains i = true
  · exact .inl (h.exists_place hi)
  · exact .inr (Bool.eq_false_iff.mpr hi)

/-! ### Recursion along the children -/

namespace Recursive

theorem eq_nil (h : t.Recursive visit order) (hi : t.contains i = false) : order i = [] := by
  rw [h i, node?_eq_none hi]

/-- At a place the children are the branches that stand on the one there. -/
theorem eq_visit (h : t.Recursive visit order) (hs : t.Spells (c.plug [s])) :
    order s.id = visit s.id ((s.limbs.map Branch.id).flatMap order) := by
  rw [h s.id, hs.node?_id]
  rfl

end Recursive

/-- **Recursion along the children** has a single solution. -/
theorem Sound.recursive_unique (ht : t.Sound next) (h : t.Recursive visit order)
    (h' : t.Recursive visit other) : order = other := by
  have live : ∀ (s : Branch) {c : Place}, t.Spells (c.plug [s]) → order s.id = other s.id := by
    intro s
    induction s with
    | grow v bs ih =>
      intro c hs
      rw [h.eq_visit hs, h'.eq_visit hs, List.flatMap_map, List.flatMap_map]
      refine congrArg (visit v.id) (List.flatMap_congr fun d hd => ?_)
      obtain ⟨c', -, hlimb⟩ := hs.exists_limb hd
      exact ih d hd hlimb
  funext i
  rcases ht.place_or_dead i with ⟨c, s, hs, rfl⟩ | hi
  · exact live s hs
  · rw [h.eq_nil hi, h'.eq_nil hi]

/-- An order is recursive if it is nothing for what is not live, and at every place what a fold of
the branch there comes to. -/
theorem Sound.recursive_of_fold (ht : t.Sound next) {f : Branch → List NodeId}
    (hf : ∀ v bs, f (grow v bs) = visit v.id (bs.flatMap f))
    (horder : ∀ {c : Place} {s : Branch}, t.Spells (c.plug [s]) → order s.id = f s)
    (hdead : ∀ i, t.contains i = false → order i = []) : t.Recursive visit order := by
  intro i
  rcases ht.place_or_dead i with ⟨c, s, hs, rfl⟩ | hi
  · have hbelow : (s.limbs.map Branch.id).flatMap order = s.limbs.flatMap f := by
      rw [List.flatMap_map]
      refine List.flatMap_congr fun d hd => ?_
      obtain ⟨c', -, hlimb⟩ := hs.exists_limb hd
      exact horder hlimb
    rw [hs.node?_id, horder hs, ← grow_bud_limbs s, hf, ← hbelow]
    rfl
  · rw [hdead i hi, node?_eq_none hi]

/-! ### The walks end -/

theorem preWalk_dead (hi : t.contains i = false) (hk : 0 < k) : t.preWalk k [i] = some [] := by
  obtain ⟨k, rfl⟩ := Nat.exists_eq_succ_of_ne_zero (Nat.ne_of_gt hk)
  rw [preWalk, node?_eq_none hi]
  exact preWalk.eq_1 t k

theorem postWalk_dead (hi : t.contains i = false) (hk : 0 < k) :
    t.postWalk k [.expand i] = some [] := by
  obtain ⟨k, rfl⟩ := Nat.exists_eq_succ_of_ne_zero (Nat.ne_of_gt hk)
  rw [postWalk, node?_eq_none hi]
  exact postWalk.eq_1 t k

theorem preOrderFrom_dead (hi : t.contains i = false) : t.preOrderFrom i = [] := by
  rw [preOrderFrom, preWalk_dead hi (Nat.succ_pos _)]
  rfl

theorem postOrderFrom_dead (hi : t.contains i = false) : t.postOrderFrom i = [] := by
  rw [postOrderFrom, postWalk_dead hi (Nat.succ_pos _)]
  rfl

/-- A pre-order walk is done when it has taken a step for every node, and goes nowhere else. -/
theorem Sound.preWalk_eq (ht : t.Sound next) (hk : t.size < k) :
    t.preWalk k [i] = some (t.preOrderFrom i) := by
  rcases ht.place_or_dead i with ⟨c, s, hs, rfl⟩ | hi
  · have hsize := hs.bears.size_le hs.nodup_ids_branch
    obtain ⟨m, rfl⟩ := Nat.le.dest (show s.size ≤ k by omega)
    rw [preWalk_branch hs.bears, hs.preOrderFrom_id]
    simp [preWalk]
  · rw [preOrderFrom_dead hi, preWalk_dead hi (Nat.zero_lt_of_lt hk)]

/-- A post-order walk takes two steps for every node. -/
theorem Sound.postWalk_eq (ht : t.Sound next) (hk : 2 * t.size < k) :
    t.postWalk k [.expand i] = some (t.postOrderFrom i) := by
  rcases ht.place_or_dead i with ⟨c, s, hs, rfl⟩ | hi
  · have hsize := hs.bears.size_le hs.nodup_ids_branch
    obtain ⟨m, rfl⟩ := Nat.le.dest (show 2 * s.size ≤ k by omega)
    rw [postWalk_branch hs.bears, hs.postOrderFrom_id]
    simp [postWalk]
  · rw [postOrderFrom_dead hi, postWalk_dead hi (Nat.zero_lt_of_lt hk)]

/-! ### The two orders -/

theorem Sound.recursive_preOrderFrom (ht : t.Sound next) :
    t.Recursive (fun i below => i :: below) t.preOrderFrom :=
  ht.recursive_of_fold ids_grow Spells.preOrderFrom_id fun _ => preOrderFrom_dead

theorem Sound.recursive_postOrderFrom (ht : t.Sound next) :
    t.Recursive (fun i below => below ++ [i]) t.postOrderFrom :=
  ht.recursive_of_fold postIds_grow Spells.postOrderFrom_id fun _ => postOrderFrom_dead

/-- The pre-order around the branch at a place. -/
theorem Spells.preOrder_eq_append (h : t.Spells (c.plug [s])) :
    t.preOrder = (c.before [s.id]).map Node.id ++ s.ids ++ c.after.map Node.id := by
  rw [h.preOrder_eq, ← map_id_grove none, c.grove_plug, grove_singleton, List.map_append,
    List.map_append, map_id_nodes]
  rfl

theorem Spells.preOrder_perm (h : t.Spells bs) : t.preOrder.Perm t.nodeIds := by
  rw [h.preOrder_eq, h.nodeIds_eq, ← map_id_grove none]
  exact (h.perm.map Node.id).symm

/-- An order that has at every place the nodes of the branch there, as a block of the whole,
enumerates the tree. -/
theorem Sound.enumerates (ht : t.Sound next) {whole : List NodeId} {f : Branch → List NodeId}
    (hf : ∀ s, (f s).Perm s.ids)
    (horder : ∀ {c : Place} {s : Branch}, t.Spells (c.plug [s]) → order s.id = f s)
    (hdead : ∀ i, t.contains i = false → order i = []) (hperm : whole.Perm t.nodeIds)
    (hblock : ∀ {c : Place} {s : Branch}, t.Spells (c.plug [s]) → f s <:+: whole) :
    t.Enumerates order whole := by
  obtain ⟨bs, hbs⟩ := ht.spells
  constructor
  case nodup =>
    intro i
    rcases ht.place_or_dead i with ⟨c, s, hs, rfl⟩ | hi
    · rw [horder hs]
      exact (hf s).nodup_iff.mpr hs.nodup_ids_branch
    · rw [hdead i hi]
      exact .nil
  case mem_iff =>
    intro i j
    rcases ht.place_or_dead i with ⟨c, s, hs, rfl⟩ | hi
    · rw [horder hs, (hf s).mem_iff, hs.reflTransGen_child_iff]
      exact (and_iff_right hs.contains_id).symm
    · rw [hdead i hi]
      exact iff_of_false List.not_mem_nil fun h => Bool.eq_false_iff.mp hi h.1
  case nodup_whole => exact hperm.nodup_iff.mpr hbs.wellFormed.nodup_keys
  case perm => exact hperm
  case block =>
    intro i hi
    obtain ⟨c, s, hs, rfl⟩ := ht.exists_place hi
    rw [horder hs]
    exact hblock hs

theorem Sound.enumerates_preOrder (ht : t.Sound next) : t.Enumerates t.preOrderFrom t.preOrder := by
  obtain ⟨bs, hbs⟩ := ht.spells
  refine ht.enumerates (fun s => .refl s.ids) Spells.preOrderFrom_id (fun _ => preOrderFrom_dead)
    hbs.preOrder_perm fun {c s} hs => ?_
  exact ⟨(c.before [s.id]).map Node.id, c.after.map Node.id, hs.preOrder_eq_append.symm⟩

theorem Sound.enumerates_postOrder (ht : t.Sound next) :
    t.Enumerates t.postOrderFrom t.postOrder := by
  obtain ⟨bs, hbs⟩ := ht.spells
  refine ht.enumerates postIds_perm Spells.postOrderFrom_id (fun _ => postOrderFrom_dead)
    hbs.postOrder_perm fun {c s} hs => ?_
  refine ⟨c.closedBefore, c.closedAfter, ?_⟩
  rw [hs.postOrder_eq, c.flatMap_postIds_plug, List.flatMap_singleton]

end Tree

namespace Workshop

open SyntaxTree.Tree

/-- **The walks are the recursive orders**, of every tree of every run. A walk ends, after a step
for each node or two; it comes to the list that recursion along the children defines, and to
nothing where there is no live node. Either order has the nodes of every subtree once, as a block
that starts with the node or ends with it. -/
theorem run_walks (jobs : List Job) {t : Tree} (ht : t ∈ (run jobs).trees) :
    (∀ order, t.Recursive (fun i below => i :: below) order ↔ order = t.preOrderFrom) ∧
    (∀ order, t.Recursive (fun i below => below ++ [i]) order ↔ order = t.postOrderFrom) ∧
    (∀ i k, t.size < k → t.preWalk k [i] = some (t.preOrderFrom i)) ∧
    (∀ i k, 2 * t.size < k → t.postWalk k [.expand i] = some (t.postOrderFrom i)) ∧
    t.Enumerates t.preOrderFrom t.preOrder ∧ t.Enumerates t.postOrderFrom t.postOrder ∧
    (∀ i, t.contains i = true → t.preOrderFrom i = i :: t.descendants i ∧
      ∃ below, t.postOrderFrom i = below ++ [i]) ∧
    ∀ i, t.contains i = false →
      t.preOrderFrom i = [] ∧ t.postOrderFrom i = [] ∧ t.descendants i = [] := by
  have h := (sound_run jobs).tree ht
  have hpre := h.recursive_preOrderFrom
  have hpost := h.recursive_postOrderFrom
  refine ⟨fun order => ⟨fun ho => h.recursive_unique ho hpre, fun ho => ho ▸ hpre⟩,
    fun order => ⟨fun ho => h.recursive_unique ho hpost, fun ho => ho ▸ hpost⟩,
    fun i k => h.preWalk_eq, fun i k => h.postWalk_eq, h.enumerates_preOrder,
    h.enumerates_postOrder, ?_, ?_⟩
  · intro i hi
    obtain ⟨c, s, hs, rfl⟩ := h.exists_place hi
    refine ⟨?_, _, hpost.eq_visit hs⟩
    rw [descendants, hpre.eq_visit hs]
    rfl
  · intro i hi
    have hnil := preOrderFrom_dead hi
    exact ⟨hnil, postOrderFrom_dead hi, congrArg List.tail hnil⟩

/-- After fifteen of the errands neither order of the sum is the order of arrival. The copy that
stands within the sum has three nodes of the five, and they are a block of either order. -/
theorem walks_errands : ∃ t i, (run (errands.take 15)).forest.tree? "sum" = some t ∧
    t.preOrder ≠ t.nodeIds ∧ t.postOrder ≠ t.nodeIds ∧ t.preOrder.Perm t.nodeIds ∧
    t.postOrder.Perm t.nodeIds ∧ t.size = 5 ∧ (t.preOrderFrom i).length = 3 ∧
    t.preOrderFrom i = i :: t.descendants i ∧ t.preOrderFrom i <:+: t.preOrder ∧
    t.postOrderFrom i <:+: t.postOrder := by
  have hfull : ((run (errands.take 15)).forest.tree? "sum").bind (fun t =>
      (t.atPath? [0]).map fun i => decide (t.preOrder ≠ t.nodeIds ∧ t.postOrder ≠ t.nodeIds ∧
        t.size = 5 ∧ (t.preOrderFrom i).length = 3 ∧ t.contains i = true)) = some true := by decide
  obtain ⟨t, ht, hfull⟩ := Option.bind_eq_some_iff.mp hfull
  obtain ⟨i, -, hfull⟩ := Option.map_eq_some_iff.mp hfull
  obtain ⟨hpre, hpost, hsize, hthree, hi⟩ := of_decide_eq_true hfull
  obtain ⟨-, -, -, -, hopen, hclose, hlive, -⟩ := run_walks _ (mem_trees_of_tree? ht)
  exact ⟨t, i, ht, hpre, hpost, hopen.perm, hclose.perm, hsize, hthree, (hlive i hi).1,
    hopen.block i hi, hclose.block i hi⟩

end Workshop

end SyntaxTree
