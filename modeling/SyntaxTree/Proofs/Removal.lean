/-
SyntaxTree/Proofs/Removal.lean

A removal divides a tree.  What stands at a node and below it goes to a tree of its own,
everything else stays, and both keep the order of arrival; the only links that are cut are
the one from the node to its parent and the one back (`Divided`).  A tree that was copied
out at the node before, directly or by way of other copies, is a copy of what is handed out.

No more than this happens: every node of the tree is in one of the two parts as it was, and
no identity is used up.
-/
import SyntaxTree.Proofs.Replica
import SyntaxTree.Proofs.Substitution
import SyntaxTree.Proofs.Without

namespace SyntaxTree

open Branch Relation

namespace Tree

/-- The subtree at `x` has been cut out of `t`. -/
structure Divided (t : Tree) (x : Node) (r : Removal) : Prop where
  target_eq : r.target = x.id
  /-- What is handed out are the nodes at `x` and below it. -/
  removed_contains : ∀ i, r.removed.contains i = true ↔ ReflTransGen t.Child x.id i
  removed_top : r.removed.node? x.id = some { x with parent := none }
  removed_below : ∀ i n, TransGen t.Child x.id i → t.node? i = some n → r.removed.node? i = some n
  removed_root : r.removed.root = some x.id
  removed_reaches : ∀ i, r.removed.contains i = true ↔ ReflTransGen r.removed.Child x.id i
  removed_name : r.removed.name = none
  removed_order : r.removed.nodeIds.Sublist t.nodeIds
  /-- What is left are the others. -/
  rest_contains : ∀ i, r.rest.contains i = true ↔
    t.contains i = true ∧ ¬ ReflTransGen t.Child x.id i
  rest_parent : ∀ p n, x.parent = some p → t.node? p = some n → ∃ before after,
    n.children = before ++ x.id :: after ∧ x.id ∉ before ++ after ∧
      r.rest.node? p = some { n with children := before ++ after }
  rest_others : ∀ i n, x.parent ≠ some i → ¬ ReflTransGen t.Child x.id i → t.node? i = some n →
    r.rest.node? i = some n
  rest_root : r.rest.root = if x.parent = none then none else t.root
  rest_name : r.rest.name = t.name
  rest_order : r.rest.nodeIds.Sublist t.nodeIds
  rest_isEmpty_iff : r.rest.isEmpty = true ↔ t.root = some x.id
  size_add : r.removed.size + r.rest.size = t.size

variable {t candidate : Tree} {c : Place} {s : Branch} {n x : Node} {i p : NodeId}

namespace Spells

variable (h : t.Spells (c.plug [s]))

include h

/-! ### What is handed out -/

theorem mem_removed_iff : n ∈ (t.detach s.id).removed.nodeList ↔
    ∃ m ∈ t.nodeList, m.id ∈ s.ids ∧ m.reparent s.id none = n := by
  rw [h.nodeList_removed, h.excisedNodes_eq, List.mem_map]
  simp only [List.mem_filter, List.contains_iff_mem, and_assoc]

theorem nodeIds_removed : (t.detach s.id).removed.nodeIds = t.nodeIds.filter s.ids.contains := by
  rw [h.spells_removed.nodeIds_eq, h.nodeList_removed, h.excisedNodes_eq, List.map_map,
    h.nodeIds_eq, List.filter_map]
  exact List.map_congr_left fun n _ => n.id_reparent s.id none

theorem node?_removed (hi : i ∈ s.ids) (hn : t.node? i = some n) :
    (t.detach s.id).removed.node? i = some (n.reparent s.id none) := by
  obtain ⟨hmem, rfl⟩ := h.node?_eq_some_iff.mp hn
  refine h.spells_removed.node?_eq_some_iff.mpr ⟨?_, n.id_reparent s.id none⟩
  exact h.mem_removed_iff.mpr ⟨n, hmem, hi, rfl⟩

/-! ### What is left -/

theorem nodeIds_rest :
    (t.detach s.id).rest.nodeIds = t.nodeIds.filter fun i => !s.ids.contains i := by
  rw [h.spells_rest.nodeIds_eq, h.nodeList_rest, keptNodes_eq, Node.map_id_relink, h.nodeIds_eq,
    List.filter_map]
  rfl

theorem node?_rest (hi : i ∉ s.ids) (hn : t.node? i = some n) : (t.detach s.id).rest.node? i
    = some (n.relink c.parent fun is => is.filter (· ≠ s.id)) := by
  obtain ⟨hmem, rfl⟩ := h.node?_eq_some_iff.mp hn
  refine h.spells_rest.node?_eq_some_iff.mpr ⟨?_, n.id_relink _ _⟩
  rw [h.nodeList_rest, keptNodes_eq]
  exact List.mem_map_of_mem (List.mem_filter.mpr ⟨hmem, by simpa using hi⟩)

/-- The children of the node above the place. -/
theorem children_above (hp : c.parent = some p) (hn : t.node? p = some n) :
    n.children = c.leftIds ++ [s.id] ++ c.rightIds := by
  cases c with
  | top => cases hp
  | on v l r up =>
    obtain rfl : v.id = p := Option.some.inj hp
    obtain rfl := Option.some.inj (hn.symm.trans h.up.node?_id)
    show (l ++ [s] ++ r).map Branch.id = l.map Branch.id ++ [s.id] ++ r.map Branch.id
    simp

/-- The node above the place has the bottom among its children once, and forgets it. -/
theorem exists_row (hp : c.parent = some p) (hn : t.node? p = some n) : ∃ before after,
    n.children = before ++ s.id :: after ∧ s.id ∉ before ++ after ∧
      (t.detach s.id).rest.node? p = some { n with children := before ++ after } := by
  have hrow := h.children_above hp hn
  have hnd := h.nodup_row
  -- the identities in the row are distinct, so that forgetting one leaves its two sides
  have hforgot := filter_ne_middle hnd
  rw [List.append_assoc, List.map_singleton, List.singleton_append, List.nodup_middle,
    List.nodup_cons] at hnd
  rw [← hrow, List.append_nil] at hforgot
  refine ⟨c.leftIds, c.rightIds, hrow.trans (by simp), hnd.1, ?_⟩
  rw [h.node?_rest (h.parent_notMem_ids hp) hn, Node.relink,
    if_pos ((congrArg some (h.node?_eq_some_iff.mp hn).2).trans hp.symm), hforgot]

/-! ### Both -/

theorem root_eq_id_iff : t.root = some s.id ↔ c.plug [] = [] := by
  cases c with
  | top => exact iff_of_true h.root_eq rfl
  | on v l r up =>
    -- a node with one above it is not the root, and the branch without it is not empty
    refine iff_of_false (fun hroot => h.not_child_root hroot h.child_of_up) fun hnil => ?_
    have hsome := Place.isSome_head?_plug_on v l r up []
    rw [hnil] at hsome
    cases hsome

theorem root_rest : (t.detach s.id).rest.root = if c.parent = none then none else t.root := by
  rw [h.detach_rest_eq]
  cases c with
  | top => rfl
  | on v l r up => exact (Place.head?_plug_on v l r up [] [s]).trans h.root_eq.symm

theorem size_removed_add :
    (t.detach s.id).removed.size + (t.detach s.id).rest.size = t.size := by
  rw [h.spells_removed.size_eq, size_eq_length (t.detach s.id).rest, h.nodeList_rest, keptNodes_eq,
    List.length_map, Nat.add_comm, h.length_survivors]

/-- **A cut divides the tree.** -/
theorem divided : t.Divided (s.bottom c.parent)
    ⟨s.id, (t.detach s.id).removed, (t.detach s.id).rest⟩ := by
  have hbelow : ∀ {i}, ReflTransGen t.Child (s.bottom c.parent).id i ↔ i ∈ s.ids :=
    h.reflTransGen_child_iff
  constructor
  case target_eq => rfl
  case removed_contains => exact fun i => h.contains_removed_iff.trans hbelow.symm
  case removed_top =>
    exact (h.node?_removed s.id_mem_ids h.node?_id).trans (congrArg some (if_pos rfl))
  case removed_below =>
    intro i n hi hn
    have hne : n.id ≠ s.id := by
      rw [(h.node?_eq_some_iff.mp hn).2]
      rintro rfl
      exact h.not_transGen_child hi
    exact (h.node?_removed (hbelow.mp hi.to_reflTransGen) hn).trans (congrArg some (if_neg hne))
  case removed_root => exact h.spells_removed.root_eq
  case removed_reaches =>
    exact fun i => h.contains_removed_iff.trans h.spells_removed.atTop.reflTransGen_child_iff.symm
  case removed_name => rw [h.detach_removed_eq]; rfl
  case removed_order => exact h.nodeIds_removed ▸ List.filter_sublist
  case rest_contains =>
    intro i
    rw [contains_iff_mem_nodeIds, h.nodeIds_rest, List.mem_filter, contains_iff_mem_nodeIds, hbelow]
    simp
  case rest_parent => exact fun p n hp hn => h.exists_row hp hn
  case rest_others =>
    intro i n hi hout hn
    have hne : some n.id ≠ c.parent := by
      rw [(h.node?_eq_some_iff.mp hn).2]
      exact Ne.symm hi
    exact (h.node?_rest (fun hmem => hout (hbelow.mpr hmem)) hn).trans (congrArg some (if_neg hne))
  case rest_root => exact h.root_rest
  case rest_name => rw [h.detach_rest_eq]; rfl
  case rest_order => exact h.nodeIds_rest ▸ List.filter_sublist
  case rest_isEmpty_iff => exact h.spells_rest.isEmpty_iff.trans h.root_eq_id_iff.symm
  case size_add => exact h.size_removed_add

end Spells

/-- A removal divides the tree at the counterpart of the candidate, and hands out what is the same
as any copy taken there before. -/
theorem Sound.exists_divided {next : NodeId} (ht : t.Sound next)
    (hx : t.counterpart? candidate = some x) :
    ∃ r, t.remove candidate = .ok r ∧ t.Divided x r ∧
      ∀ d, t.Sample x d → ∃ f, r.removed.Replica x.id f d := by
  obtain ⟨bs, hs⟩ := ht.spells
  obtain ⟨hmem, horigin⟩ := hs.counterpart?_eq_some_iff.mp hx
  obtain ⟨c, s, rfl, rfl⟩ := hs.exists_plug_eq hmem
  refine ⟨_, remove_eq_ok_iff.mpr ⟨s.id, hs.locate_id horigin, rfl⟩, hs.divided, fun d hd => ?_⟩
  obtain ⟨f, hf⟩ := hd.exists_spells_renumber hs
  exact ⟨f, hs.spells_removed.atTop.replica hf⟩

end Tree

namespace Workshop

open SyntaxTree.Tree

/-- **Removal cuts exactly one subtree**, in every run: a candidate that has a counterpart can be
removed, the tree is divided at the counterpart, and no identity is used up. What is handed out is
the same, under other identities, as any copy that has been taken there. -/
theorem run_removes (jobs : List Job) {t candidate : Tree} (ht : t ∈ (run jobs).trees) {x : Node}
    (hx : t.counterpart? candidate = some x) :
    ∃ r, t.remove candidate = .ok r ∧ t.Divided x r ∧
      (∀ d, t.Sample x d → ∃ f, r.removed.Replica x.id f d) ∧
      ∀ y z dest, (run jobs).forest.tree? y = some t → (run jobs).forest.tree? z = some candidate →
        let w := (run jobs).step (.command (.remove y z dest))
        w.forest = ((run jobs).forest.store y r.rest).storeAs dest r.removed ∧
          w.forest.next = (run jobs).forest.next := by
  obtain ⟨r, hr, hdivided, hsamples⟩ := ((sound_run jobs).tree ht).exists_divided hx
  refine ⟨r, hr, hdivided, hsamples, fun y z dest hy hz => ?_⟩
  have hforest : ((run jobs).step (.command (.remove y z dest))).forest
      = ((run jobs).forest.store y r.rest).storeAs dest r.removed := by
    show ((run jobs).forest.step (.remove y z dest)).forest = _
    simp only [Forest.step, hy, hz, Forest.remove, hr]
  exact ⟨hforest, hforest ▸ Forest.next_storeAs _ dest r.removed⟩

/-- After fifteen of the errands the sum has five nodes, three of them in the copy that was put
under it, and the part that was found second can be removed. -/
theorem removes_errands : ∃ t part x r, (run (errands.take 15)).forest.tree? "sum" = some t ∧
    t.size = 5 ∧ t.counterpart? part = some x ∧ t.remove part = .ok r ∧ t.Divided x r ∧
    ((run (errands.take 15)).step (.command (.remove "sum" "part1" none))).forest.next
      = (run (errands.take 15)).forest.next := by
  have hfull : ((run (errands.take 15)).forest.tree? "sum").bind (fun t =>
      ((run (errands.take 15)).forest.tree? "part1").bind fun part => (t.counterpart? part).map
        fun _ => t.size) = some 5 := by decide
  obtain ⟨t, ht, hfull⟩ := Option.bind_eq_some_iff.mp hfull
  obtain ⟨part, hpart, hfull⟩ := Option.bind_eq_some_iff.mp hfull
  obtain ⟨x, hx, hsize⟩ := Option.map_eq_some_iff.mp hfull
  obtain ⟨r, hr, hdivided, -, hforest⟩ := run_removes (errands.take 15) (mem_trees_of_tree? ht) hx
  exact ⟨t, part, x, r, ht, hsize, hx, hr, hdivided, (hforest "sum" "part1" none ht hpart).2⟩

end Workshop

end SyntaxTree
