/-
SyntaxTree/Proofs/WellFormed.lean

Well-formed trees: what the links between the nodes of a registry have to satisfy for the
registry to be a rooted ordered tree, said of the registry alone.  `WellFormed` speaks of
identities, parents and children only; that a tree which spells a branch is well-formed
(`Spells.wellFormed`) is what makes branches a faithful reading of trees.

The descent `Child` is the relation between a node and its children.  In a tree that
spells a branch, the nodes reached from `s.id` are exactly the identities of `s`
(`reflTransGen_child_iff`).
-/
import Mathlib.Logic.Relation
import SyntaxTree.Proofs.Spelling

namespace SyntaxTree

open Branch Relation

namespace Tree

/-- `t.Child p c`: the live node `p` lists `c` among its children. -/
def Child (t : Tree) (p c : NodeId) : Prop := ∃ n, t.node? p = some n ∧ c ∈ n.children

/-- The registry is a rooted ordered tree: all links lead to live nodes and back again, one
node is the root, and every node lies below it. -/
structure WellFormed (t : Tree) : Prop where
  nodup_keys : t.nodeIds.Nodup
  key_eq_id : ∀ e ∈ t.nodes.entries, e.1 = e.2.id
  root_eq_none_iff : t.root = none ↔ t.isEmpty = true
  root_live : ∀ r, t.root = some r → ∃ n, t.node? r = some n ∧ n.parent = none
  root_unique : ∀ i n, t.node? i = some n → n.parent = none → t.root = some i
  child_live : ∀ i n c, t.node? i = some n → c ∈ n.children →
    ∃ m, t.node? c = some m ∧ m.parent = some i
  parent_live : ∀ i n p, t.node? i = some n → n.parent = some p →
    ∃ m, t.node? p = some m ∧ m.children.count i = 1
  reachable : ∀ r i, t.root = some r → t.contains i = true → ReflTransGen t.Child r i
  acyclic : ∀ i, ¬ TransGen t.Child i i

/-- A child is listed once by its parent. -/
theorem WellFormed.count_eq_one {t : Tree} (h : t.WellFormed) {p c : NodeId} {n : Node}
    (hn : t.node? p = some n) (hc : c ∈ n.children) : n.children.count c = 1 := by
  obtain ⟨m, hm, hparent⟩ := h.child_live p n c hn hc
  obtain ⟨n', hn', hcount⟩ := h.parent_live c m p hm hparent
  obtain rfl := Option.some.inj (hn.symm.trans hn')
  exact hcount

namespace Spells

variable {t : Tree} {bs : List Branch} {c : Place} {s : Branch}

/-! ### Links at a place -/

/-- The children of a node are the bottoms of the branches on it. -/
theorem child_iff (h : t.Spells (c.plug [s])) {i : NodeId} :
    t.Child s.id i ↔ ∃ d ∈ s.limbs, d.id = i := by
  constructor
  · rintro ⟨n, hn, hi⟩
    rw [h.node?_id] at hn
    obtain rfl := Option.some.inj hn
    exact List.mem_map.mp hi
  · rintro ⟨d, hd, rfl⟩
    exact ⟨_, h.node?_id, List.mem_map.mpr ⟨d, hd, rfl⟩⟩

/-- A live node is listed once by the node right above its place. -/
theorem count_children (h : t.Spells (c.plug [s])) {p : NodeId} (hp : c.parent = some p) :
    ∃ m, t.node? p = some m ∧ m.children.count s.id = 1 := by
  cases c with
  | top => cases hp
  | on v l r up =>
    obtain rfl : v.id = p := Option.some.inj hp
    refine ⟨_, h.up.node?_id, ?_⟩
    have hnd := h.up.nodup_ids_branch
    rw [ids_grow] at hnd
    have hnd := hnd.of_cons.sublist (map_id_sublist _)
    exact List.count_eq_one_of_mem hnd (List.mem_map_of_mem (by simp [limbs]))

/-! ### Descent -/

theorem reflTransGen_child (h : t.Spells (c.plug [s])) {i : NodeId} (hi : i ∈ s.ids) :
    ReflTransGen t.Child s.id i := by
  induction s generalizing c with
  | grow v bs ih =>
    rw [ids_grow, List.mem_cons, List.mem_flatMap] at hi
    rcases hi with rfl | ⟨d, hd, hi⟩
    · exact .refl
    · obtain ⟨c', -, hlimb⟩ := h.exists_limb hd
      exact .head (h.child_iff.mpr ⟨d, hd, rfl⟩) (ih d hd hlimb hi)

/-- A path from parents to children does not leave the branch it starts from. -/
theorem mem_ids_of_reflTransGen {i j : NodeId} (hij : ReflTransGen t.Child i j) :
    ∀ {c : Place} {s : Branch}, t.Spells (c.plug [s]) → s.id = i → j ∈ s.ids := by
  induction hij using ReflTransGen.head_induction_on with
  | refl => rintro c s - rfl; exact id_mem_ids s
  | head hik _ ih =>
    rintro c s h rfl
    obtain ⟨d, hd, rfl⟩ := h.child_iff.mp hik
    obtain ⟨c', -, hlimb⟩ := h.exists_limb hd
    have hid := ih hlimb rfl
    rw [← grow_bud_limbs s, ids_grow]
    exact List.mem_cons_of_mem _ (List.mem_flatMap.mpr ⟨d, hd, hid⟩)

/-- The identities of the branch at a place are those reached from its bottom. -/
theorem reflTransGen_child_iff (h : t.Spells (c.plug [s])) {i : NodeId} :
    ReflTransGen t.Child s.id i ↔ i ∈ s.ids :=
  ⟨fun hi => mem_ids_of_reflTransGen hi h rfl, h.reflTransGen_child⟩

/-- Going down never leads back: below a node there are only the branches on it. -/
theorem not_transGen_child (h : t.Spells (c.plug [s])) : ¬ TransGen t.Child s.id s.id := by
  intro hs
  obtain ⟨i, hsi, his⟩ := TransGen.head'_iff.mp hs
  obtain ⟨d, hd, rfl⟩ := h.child_iff.mp hsi
  obtain ⟨c', -, hlimb⟩ := h.exists_limb hd
  have hmem := mem_ids_of_reflTransGen his hlimb rfl
  have hnd := h.nodup_ids_branch
  rw [← grow_bud_limbs s, ids_grow, List.nodup_cons] at hnd
  exact hnd.1 (List.mem_flatMap.mpr ⟨d, hd, hmem⟩)

/-! ### Well-formedness -/

/-- **A tree that spells branches is well-formed.** Every clause is read off the place of the
node it is about. -/
theorem wellFormed (h : t.Spells bs) : t.WellFormed := by
  have place : ∀ {i n}, t.node? i = some n →
      ∃ c s, Place.plug c [s] = bs ∧ s.id = i ∧ n = s.bottom c.parent := by
    intro i n hn
    obtain ⟨hmem, rfl⟩ := h.node?_eq_some_iff.mp hn
    obtain ⟨c, s, hcs, rfl⟩ := h.exists_plug_eq hmem
    exact ⟨c, s, hcs, rfl, rfl⟩
  refine ⟨h.nodeIds_eq ▸ h.nodup_ids, ?_, ?_, ?_, ?_, ?_, ?_, ?_, ?_⟩
  · -- key_eq_id
    intro e he
    rw [h.nodes_eq] at he
    obtain ⟨n, -, rfl⟩ := List.mem_map.mp he
    rfl
  · -- root_eq_none_iff
    rw [h.root_eq_none_iff, h.isEmpty_iff]
  · -- root_live
    intro r hr
    obtain ⟨b, rfl, rfl⟩ := h.eq_singleton hr
    exact ⟨b.bottom none, h.atTop.node?_id, rfl⟩
  · -- root_unique
    intro i n hn hp
    obtain ⟨c, s, rfl, rfl, rfl⟩ := place hn
    cases c with
    | top => exact h.root_eq
    | on v l r up => cases hp
  · -- child_live
    intro i n c' hn hc'
    obtain ⟨c, s, rfl, rfl, rfl⟩ := place hn
    obtain ⟨d, hd, rfl⟩ := List.mem_map.mp hc'
    obtain ⟨c', hparent, hlimb⟩ := h.exists_limb hd
    exact ⟨d.bottom c'.parent, hlimb.node?_id, hparent⟩
  · -- parent_live
    intro i n p hn hp
    obtain ⟨c, s, rfl, rfl, rfl⟩ := place hn
    exact h.count_children hp
  · -- reachable
    intro r i hr hi
    obtain ⟨b, rfl, rfl⟩ := h.eq_singleton hr
    refine h.atTop.reflTransGen_child ?_
    rw [h.contains_iff_mem_ids] at hi
    simpa using hi
  · -- acyclic
    intro i hi
    obtain ⟨j, ⟨n, hn, -⟩, -⟩ := TransGen.head'_iff.mp hi
    obtain ⟨c, s, rfl, rfl, rfl⟩ := place hn
    exact h.not_transGen_child hi

end Spells

end Tree

end SyntaxTree
