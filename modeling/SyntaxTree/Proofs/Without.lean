/-
SyntaxTree/Proofs/Without.lean

Trees of which some nodes are gone.  `t.without gone` is what is left of a tree when these nodes are
taken out of the registry, the index and the lists of children.

A removal takes out the nodes of one branch, whatever is gone already (`Spells.rest_without`), and
hands them out as they were (`Spells.removed_without`).  So the tree that is left by removals one
after another tells which nodes have been taken out, but not in which order.
-/
import SyntaxTree.Proofs.Ancestry
import SyntaxTree.Proofs.Graft

namespace SyntaxTree

open Branch Relation

/-- A node without those of its children that are gone. -/
def Node.prune (gone : NodeId → Bool) (n : Node) : Node :=
  { n with children := n.children.filter fun i => !gone i }

namespace Tree

/-- A tree without the nodes that are gone, and without the links to them. -/
def without (t : Tree) (gone : NodeId → Bool) : Tree :=
  ({ t with root := t.root.filter fun i => !gone i } : Tree).withNodes
    ((t.nodeList.filter fun n => !gone n.id).map (Node.prune gone))

variable {t : Tree} {c c' : Place} {s : Branch} {i j : NodeId} {gone gone' : NodeId → Bool}

/-! ### Nodes that are gone -/

theorem nodeList_without : (t.without gone).nodeList
    = (t.nodeList.filter fun n => !gone n.id).map (Node.prune gone) := nodeList_eq_of_nodes_eq rfl

theorem map_id_nodeList_without : (t.without gone).nodeList.map Node.id
    = (t.nodeList.map Node.id).filter fun i => !gone i := by
  rw [nodeList_without, List.map_map, List.filter_map]
  rfl

theorem contains_without (ht : t.Coherent) :
    (t.without gone).contains i = true ↔ t.contains i = true ∧ gone i = false := by
  have hids : (t.without gone).nodeIds = (t.without gone).nodeList.map Node.id := by
    rw [nodeList_without]
    exact keys_registry _
  rw [contains_iff_mem_nodeIds, hids, map_id_nodeList_without, List.mem_filter, ht.contains_iff,
    Bool.not_eq_true']

/-- Only what is gone of the live nodes matters. -/
theorem Spells.without_congr {bs : List Branch} (h : t.Spells bs)
    (hgone : ∀ i, t.contains i = true → gone i = gone' i) : t.without gone = t.without gone' := by
  have live : ∀ {i n}, t.node? i = some n → gone i = gone' i := fun hn =>
    hgone _ (Option.isSome_iff_exists.mpr ⟨_, hn⟩)
  have hroot : (t.root.filter fun i => !gone i) = t.root.filter fun i => !gone' i := by
    cases hr : t.root with
    | none => rfl
    | some r =>
      obtain ⟨n, hn, -⟩ := h.wellFormed.root_live r hr
      rw [Option.filter_some, Option.filter_some, live hn]
  have hprune : ∀ n ∈ t.nodeList, n.prune gone = n.prune gone' := by
    intro n hn
    refine congrArg (fun is => { n with children := is }) (List.filter_congr fun i hi => ?_)
    obtain ⟨m, hm, -⟩ := h.wellFormed.child_live n.id n i (h.toCoherent.node?_id hn) hi
    rw [live hm]
  have hnodes : (t.nodeList.filter fun n => !gone n.id).map (Node.prune gone)
      = (t.nodeList.filter fun n => !gone' n.id).map (Node.prune gone') := by
    have hfilter : (t.nodeList.filter fun n => !gone n.id) = t.nodeList.filter fun n => !gone' n.id :=
      List.filter_congr fun n hn => by rw [live (h.toCoherent.node?_id hn)]
    rw [hfilter]
    exact List.map_congr_left fun n hn => hprune n (List.mem_filter.mp hn).1
  rw [without, without, hroot, hnodes]

theorem Coherent.without_eq_self (h : t.Coherent) : t.without (fun _ => false) = t := by
  have hnodes : (t.nodeList.filter fun _ => !false).map (Node.prune fun _ => false) = t.nodeList := by
    rw [Bool.not_false, List.filter_true]
    refine map_eq_self fun n _ => ?_
    rw [Node.prune, Bool.not_false, List.filter_true]
  have hroot : (t.root.filter fun _ => !false) = t.root := by cases t.root <;> rfl
  rw [without, hnodes, hroot, withNodes, ← h.nodes_eq, ← h.origins_eq]

/-! ### What is left by a removal -/

/-- A node outside a branch has no child in it but the bottom, and that only if it stands above. -/
theorem Spells.mem_ids_of_child (h : t.Spells (c.plug [s])) (hi : t.Child j i) (hj : j ∉ s.ids) :
    i ∈ s.ids ↔ i = s.id ∧ c.parent = some j := by
  constructor
  · intro hmem
    rcases reflTransGen_iff_eq_or_transGen.mp (h.reflTransGen_child hmem) with rfl | hsi
    · exact ⟨rfl, h.parent_eq_of_child hi⟩
    · -- the parent would be in the branch as well
      obtain ⟨k, hsk, hk⟩ := TransGen.tail'_iff.mp hsi
      obtain rfl := h.child_unique hi hk
      exact absurd (h.reflTransGen_child_iff.mp hsk) hj
  · rintro ⟨rfl, -⟩
    exact s.id_mem_ids

/-- The root is in a branch only if the branch is the whole tree. -/
theorem Spells.root_mem_ids_iff (h : t.Spells (c.plug [s])) (hi : t.root = some i) :
    i ∈ s.ids ↔ c.parent = none := by
  cases c with
  | top =>
    obtain rfl : i = s.id := Option.some.inj (hi.symm.trans h.root_eq)
    exact iff_of_true s.id_mem_ids rfl
  | on v l r up =>
    refine iff_of_false (fun hmem => ?_) nofun
    have hbelow := TransGen.head' h.child_of_up (h.reflTransGen_child hmem)
    obtain ⟨k, -, hk⟩ := TransGen.tail'_iff.mp hbelow
    exact h.not_child_root hi hk

/-- What is cut off a node outside the branch are its children in the branch. -/
theorem Spells.relink_prune (h : t.Spells (c.plug [s])) {n : Node} (hn : n ∈ t.nodeList)
    (hout : n.id ∉ s.ids) :
    (n.prune gone).relink c.parent (fun is => is.filter (· ≠ s.id))
      = n.prune fun i => gone i || s.ids.contains i := by
  have hchild : ∀ i ∈ n.children, i ∈ s.ids ↔ i = s.id ∧ c.parent = some n.id := fun i hi =>
    h.mem_ids_of_child ⟨n, h.toCoherent.node?_id hn, hi⟩ hout
  have hchildren : (if some n.id = c.parent then (n.children.filter fun i => !gone i).filter (· ≠ s.id)
      else n.children.filter fun i => !gone i)
      = n.children.filter fun i => !(gone i || s.ids.contains i) := by
    split
    case isTrue hparent =>
      rw [List.filter_filter]
      refine List.filter_congr fun i hi => ?_
      have hmem : i ∈ s.ids ↔ i = s.id := (hchild i hi).trans (and_iff_left hparent.symm)
      simp [hmem, Bool.and_comm]
    case isFalse hparent =>
      refine List.filter_congr fun i hi => ?_
      have hmem : i ∉ s.ids := fun hmem => hparent ((hchild i hi).mp hmem).2.symm
      simp [hmem]
  rw [Node.relink]
  show (if some n.id = c.parent then _ else _) = _
  rw [Node.prune, Node.prune, ← hchildren]
  split <;> rfl

/-- The nodes that are left, -/
theorem Spells.keptNodes_without (h : t.Spells (c.plug [s])) (hparent : c'.parent = c.parent) :
    (t.without gone).keptNodes c' s
      = (t.nodeList.filter fun n => !(gone n.id || s.ids.contains n.id)).map
          (Node.prune fun i => gone i || s.ids.contains i) := by
  have hfilter : (t.nodeList.filter fun n => !gone n.id).filter (fun n => !s.ids.contains n.id)
      = t.nodeList.filter fun n => !(gone n.id || s.ids.contains n.id) := by
    rw [List.filter_filter]
    exact List.filter_congr fun n _ => by rw [Bool.not_or, Bool.and_comm]
  rw [Tree.keptNodes_eq, survivors, nodeList_without, List.filter_map, List.map_map, hparent]
  show (List.filter (fun n : Node => !s.ids.contains n.id) _).map _ = _
  rw [hfilter]
  refine List.map_congr_left fun n hn => h.relink_prune (List.mem_filter.mp hn).1 ?_
  have hleft := (List.mem_filter.mp hn).2
  rw [Bool.not_or, Bool.and_eq_true, Bool.not_eq_true', Bool.not_eq_true'] at hleft
  exact fun hmem => by simp [hmem] at hleft

/-- and the root, if it is left. -/
theorem Spells.root_without (h : t.Spells (c.plug [s])) (hu : (t.without gone).Spells (c'.plug [s]))
    (hparent : c'.parent = c.parent) :
    (c'.plug []).head?.map Branch.id = t.root.filter fun i => !(gone i || s.ids.contains i) := by
  have hmem : ∀ {r}, t.root = some r → (r ∈ s.ids ↔ c'.parent = none) := fun hr =>
    hparent ▸ h.root_mem_ids_iff hr
  have hroot : (t.root.filter fun i => !gone i) = (c'.plug [s]).head?.map Branch.id := hu.root_eq
  cases hr : t.root with
  | none =>
    rw [hr] at hroot
    cases c' with
    | top => rfl
    | on v l r up => rw [Place.head?_plug_on v l r up [] [s], ← hroot]; rfl
  | some r =>
    have hr' := hmem hr
    rw [hr] at hroot
    cases c' with
    | top =>
      have hin : r ∈ s.ids := hr'.mpr rfl
      simp [Place.plug, Option.filter_some, hin]
    | on v l r' up =>
      have hout : r ∉ s.ids := fun h => Option.some_ne_none _ (hr'.mp h)
      rw [Place.head?_plug_on v l r' up [] [s], ← hroot]
      simp [Option.filter_some, hout]

/-- **A removal** takes out the nodes of the branch. -/
theorem Spells.rest_without (h : t.Spells (c.plug [s])) (hu : (t.without gone).Spells (c'.plug [s]))
    (hparent : c'.parent = c.parent) :
    ((t.without gone).detach s.id).rest = t.without fun i => gone i || s.ids.contains i := by
  rw [hu.detach_rest_eq, h.keptNodes_without hparent, h.root_without hu hparent]
  rfl

/-- A removal from a tree of which nothing is gone. -/
theorem Spells.rest_eq (h : t.Spells (c.plug [s])) :
    (t.detach s.id).rest = t.without s.ids.contains := by
  have hself := h.toCoherent.without_eq_self
  have hrest := h.rest_without (hself.symm ▸ h) rfl
  rwa [hself] at hrest

/-! ### What is handed out by a removal -/

/-- The parent of a branch is not in it. -/
theorem Spells.parent_notMem_ids (h : t.Spells (c.plug [s])) (hp : c.parent = some i) : i ∉ s.ids := by
  cases c with
  | top => cases hp
  | on v l r up =>
    obtain rfl : v.id = i := Option.some.inj hp
    intro hmem
    exact h.not_transGen_child (TransGen.tail' (h.reflTransGen_child hmem) h.child_of_up)

/-- The children of a node in a branch are in it. -/
theorem Spells.children_subset_ids (h : t.Spells (c.plug [s])) {n : Node} (hn : n ∈ t.nodeList)
    (hin : n.id ∈ s.ids) : n.children ⊆ s.ids := by
  intro i hi
  have hchild : t.Child n.id i := ⟨n, h.toCoherent.node?_id hn, hi⟩
  exact h.reflTransGen_child_iff.mp ((h.reflTransGen_child hin).tail hchild)

/-- What is cut out are the nodes of the branch, of which the bottom forgets its parent. -/
theorem Spells.excisedNodes_eq (h : t.Spells (c.plug [s])) :
    t.excisedNodes c s
      = (t.nodeList.filter fun n => s.ids.contains n.id).map (Node.reparent s.id none) := by
  have hfilter : (t.unlinkedNodes c s).filter (fun n => s.ids.contains n.id)
      = (t.nodeList.filter fun n => s.ids.contains n.id).map
          (Node.relink c.parent fun is => is.filter (· ≠ s.id)) := by
    rw [unlinkedNodes, List.filter_map]
    refine congrArg _ (List.filter_congr fun n _ => ?_)
    rw [Function.comp_apply, Node.id_relink]
  rw [excisedNodes, hfilter, List.map_map]
  refine List.map_congr_left fun n hn => congrArg (Node.reparent s.id none) (if_neg fun hid => ?_)
  exact h.parent_notMem_ids hid.symm (List.contains_iff_mem.mp (List.mem_filter.mp hn).2)

/-- A branch is cut out alike when others are gone. -/
theorem Spells.removed_without (h : t.Spells (c.plug [s])) (hu : (t.without gone).Spells (c'.plug [s]))
    (hstay : ∀ i ∈ s.ids, gone i = false) :
    ((t.without gone).detach s.id).removed = (t.detach s.id).removed := by
  have hnodes : ((t.nodeList.filter fun n => !gone n.id).map (Node.prune gone)).filter
      (fun n => s.ids.contains n.id) = t.nodeList.filter fun n => s.ids.contains n.id := by
    have hfilter : (t.nodeList.filter fun n => !gone n.id).filter (fun n => s.ids.contains n.id)
        = t.nodeList.filter fun n => s.ids.contains n.id := by
      rw [List.filter_filter]
      refine List.filter_congr fun n _ => ?_
      by_cases hin : n.id ∈ s.ids
      · simp [hin, hstay n.id hin]
      · simp [hin]
    rw [List.filter_map]
    show ((t.nodeList.filter _).filter fun n : Node => s.ids.contains n.id).map _ = _
    rw [hfilter]
    refine map_eq_self fun n hn => ?_
    obtain ⟨hn, hin⟩ := List.mem_filter.mp hn
    have hchildren := h.children_subset_ids hn (List.contains_iff_mem.mp hin)
    have hprune : (n.children.filter fun i => !gone i) = n.children :=
      List.filter_eq_self.mpr fun i hi => by simp [hstay i (hchildren hi)]
    rw [Node.prune, hprune]
  rw [hu.detach_removed_eq, h.detach_removed_eq, hu.excisedNodes_eq, h.excisedNodes_eq,
    nodeList_without, hnodes]

end Tree

end SyntaxTree
