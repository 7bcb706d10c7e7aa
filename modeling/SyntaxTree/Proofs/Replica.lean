/-
SyntaxTree/Proofs/Replica.lean

Replicas of subtrees.  A tree is a replica of what stands at a node of another if the nodes
of the one stand for those of the other, one for one, with the same origins, rules and
labels and with relatives that stand for each other, and the node itself has become the
root (`Replica`).  This is said of the two registries alone.

Under the branches it is a renumbering: a tree that spells `s.renumber f` is a replica of
`s` wherever `s` stands (`Spells.replica`).  A copy is renumbered once, a copy of a copy
twice, and what is cut out keeps its identities.
-/
import Mathlib.Data.Set.Function
import SyntaxTree.Proofs.Recall

namespace SyntaxTree

open Branch Relation

/-- A node under another identity, with relatives under others. The node `i` loses its parent. -/
def Node.transfer (f : NodeId → NodeId) (i : NodeId) (n : Node) : Node :=
  { n with
    id := f n.id
    parent := if n.id = i then none else n.parent.map f
    children := n.children.map f }

/-- A bud under another identity. -/
def Bud.renumber (f : NodeId → NodeId) (v : Bud) : Bud := { v with id := f v.id }

namespace Branch

/-- A branch under other identities. -/
def renumber (f : NodeId → NodeId) (b : Branch) : Branch := b.map (Bud.renumber f)

theorem renumber_renumber (f g : NodeId → NodeId) (b : Branch) :
    (b.renumber f).renumber g = b.renumber fun i => g (f i) :=
  map_map _ _ b

theorem ids_renumber (f : NodeId → NodeId) (b : Branch) : (b.renumber f).ids = b.ids.map f := by
  rw [ids, renumber, buds_map, List.map_map, ids, List.map_map]
  rfl

theorem id_renumber (f : NodeId → NodeId) (b : Branch) : (b.renumber f).id = f b.id :=
  id_map (fun _ => rfl) b

/-- The nodes of a renumbered branch are those of the branch, transferred. -/
theorem nodes_renumber (f : NodeId → NodeId) {b : Branch} (hnd : b.ids.Nodup) (p : Option NodeId) :
    (b.renumber f).nodes none = (b.nodes p).map (Node.transfer f b.id) := by
  have hlimbs : (b.renumber f).limbs = b.limbs.map (Branch.map (Bud.renumber f)) :=
    limbs_map _ b
  rw [nodes_eq p b, nodes_eq none (b.renumber f), List.map_cons]
  congr 1
  · -- the bottom
    rw [bottom, hlimbs, map_id_map (f := f) fun _ => rfl, renumber, bud_map, Node.transfer,
      if_pos (show (b.bottom p).id = b.id from rfl)]
    rfl
  · -- the rest, whose parents are in the branch
    rw [hlimbs, id_renumber, show some (f b.id) = (some b.id).map f from rfl,
      grove_map fun _ => rfl]
    refine List.map_congr_left fun n hn => ?_
    rw [Node.transfer, if_neg (id_ne_of_mem_grove hnd hn)]
    rfl

end Branch

namespace Tree

/-- What stands at `i` in `t` is what `u` consists of, under the identities that `f` gives. -/
structure Replica (t : Tree) (i : NodeId) (f : NodeId → NodeId) (u : Tree) : Prop where
  bijOn : Set.BijOn f {j | ReflTransGen t.Child i j} {j | u.contains j = true}
  root_eq : u.root = some (f i)
  node_eq : ∀ j n, ReflTransGen t.Child i j → t.node? j = some n →
    u.node? (f j) = some (n.transfer f i)

variable {t u : Tree} {c : Place} {s : Branch} {n : Node} {f : NodeId → NodeId} {i : NodeId}

namespace Spells

/-- A node of the branch at a place is one of the nodes that the branch has there. -/
theorem mem_nodes_of_mem_ids (h : t.Spells (c.plug [s])) (hi : i ∈ s.ids)
    (hn : t.node? i = some n) : n ∈ s.nodes c.parent := by
  rw [← map_id_nodes c.parent] at hi
  obtain ⟨m, hm, rfl⟩ := List.mem_map.mp hi
  obtain rfl := Option.some.inj (hn.symm.trans (h.toCoherent.node?_id (h.mem_nodeList hm)))
  exact hm

/-- **A renumbered branch is a replica** of the branch, wherever that stands. -/
theorem replica (h : t.Spells (c.plug [s])) (hu : u.Spells [s.renumber f]) :
    t.Replica s.id f u := by
  have hids : (s.renumber f).ids = s.ids.map f := ids_renumber f s
  have hlive : ∀ {k}, u.contains k = true ↔ ∃ j ∈ s.ids, f j = k := by
    intro k
    rw [hu.contains_iff_mem_ids, List.flatMap_singleton, hids, List.mem_map]
  have hnd : (s.ids.map f).Nodup := hids ▸ hu.atTop.nodup_ids_branch
  refine ⟨⟨?_, ?_, ?_⟩, ?_, ?_⟩
  · -- into
    intro j hj
    exact hlive.mpr ⟨j, h.reflTransGen_child_iff.mp hj, rfl⟩
  · -- one to one
    intro j hj k hk hjk
    exact List.inj_on_of_nodup_map hnd (h.reflTransGen_child_iff.mp hj)
      (h.reflTransGen_child_iff.mp hk) hjk
  · -- and onto
    intro k hk
    obtain ⟨j, hj, rfl⟩ := hlive.mp hk
    exact ⟨j, h.reflTransGen_child_iff.mpr hj, rfl⟩
  · exact hu.root_eq.trans (congrArg some (id_renumber f s))
  · intro j n hj hn
    have hmem := h.mem_nodes_of_mem_ids (h.reflTransGen_child_iff.mp hj) hn
    obtain rfl := (h.node?_eq_some_iff.mp hn).2
    refine hu.node?_eq_some_iff.mpr ⟨?_, rfl⟩
    rw [hu.perm.mem_iff, grove_singleton, nodes_renumber f h.nodup_ids_branch c.parent]
    exact List.mem_map_of_mem hmem

/-- A copy of a subtree is a replica of it. -/
theorem replica_copySubtree (h : t.Spells (c.plug [s])) (next : NodeId) :
    t.Replica s.id (s.copiedId next) (t.copySubtree s.id next) :=
  h.replica (h.copySubtree next)

end Spells

/-! ### Samples -/

/-- Copies of copies are renumbered branches. -/
theorem Sample.exists_spells_renumber (h : t.Spells (c.plug [s])) {d : Tree}
    (hd : t.Sample (s.bottom c.parent) d) : ∃ f, d.Spells [s.renumber f] := by
  have hcopy : ∀ next, (t.copySubtree s.id next).Spells [s.renumber (s.copiedId next)] :=
    h.copySubtree
  induction hd with
  | @extract next d he =>
    rw [Tree.extract] at he
    split at he
    case isTrue => exact ⟨_, Option.some.inj he ▸ hcopy next⟩
    case isFalse => cases he
  | findAll hk hd =>
    obtain ⟨next, rfl⟩ := eq_copySubtree_of_getElem? hk hd
    exact ⟨_, hcopy next⟩
  | findOutermost hk hd =>
    obtain ⟨next, rfl⟩ := eq_copySubtree_of_getElem? hk hd
    exact ⟨_, hcopy next⟩
  | @copyOf d next _ ih =>
    obtain ⟨f, hf⟩ := ih
    refine ⟨fun i => (s.renumber f).copiedId next (f i), ?_⟩
    rw [← renumber_renumber f ((s.renumber f).copiedId next) s, Tree.copyOf,
      show d.root = some (s.renumber f).id from hf.root_eq]
    exact (hf.atTop.copySubtree next).rename d.name

end Tree

end SyntaxTree
