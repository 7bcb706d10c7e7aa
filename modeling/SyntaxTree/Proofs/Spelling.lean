/-
SyntaxTree/Proofs/Spelling.lean

What it means for a tree, which is a registry, an index and the identity of a root, to be
the written form of a branch.

  * `Coherent t`: the two maps of `t` are tabulated from one list of nodes, in which no
    identity and no origin repeats.  This is all that looking up needs.
  * `Spells t bs`: in addition, that list has exactly the nodes of the branches `bs`, of
    which there is at most one.  Only the order of arrival is left open.

A tree that spells `plug c [s]` has the bottom of `s` as its node `s.id` (`node?_id`), and
every live node is the bottom of a branch at some place (`exists_plug_eq`).  Whatever is
claimed of the links of a tree is read off a place.
-/
import SyntaxTree.Proofs.OrderedMap
import SyntaxTree.Proofs.Place
import SyntaxTree.Tree

namespace SyntaxTree

open Branch

/-! ### The maps of a list of nodes -/

/-- The registry that lists some nodes under their identities. -/
def registry (ns : List Node) : OrderedMap NodeId Node := .tabulate Node.id (fun n => n) ns

/-- The index that leads from the origins of some nodes to their identities. -/
def provenance (ns : List Node) : OrderedMap NodeId NodeId := .tabulate Node.origin Node.id ns

@[simp] theorem values_registry (ns : List Node) : (registry ns).values = ns := by
  simp [registry]

@[simp] theorem keys_registry (ns : List Node) : (registry ns).keys = ns.map Node.id := by
  simp [registry]

theorem contains_provenance {ns : List Node} {o : NodeId} :
    (provenance ns).contains o = true ↔ o ∈ ns.map Node.origin :=
  OrderedMap.contains_tabulate

theorem registry_insert {ns : List Node} {n : Node} (hn : n.id ∉ ns.map Node.id) :
    (registry ns).insert n.id n = registry (ns ++ [n]) :=
  OrderedMap.insert_tabulate hn

theorem provenance_insert {ns : List Node} {n : Node} (hn : n.origin ∉ ns.map Node.origin) :
    (provenance ns).insert n.origin n.id = provenance (ns ++ [n]) :=
  OrderedMap.insert_tabulate hn

namespace Tree

/-- The tree with other nodes, listed and indexed. -/
def withNodes (t : Tree) (ns : List Node) : Tree :=
  { t with nodes := registry ns, origins := provenance ns }

theorem size_eq_length (t : Tree) : t.size = t.nodeList.length := by
  simp [size, nodeList, OrderedMap.size, OrderedMap.values]

theorem isEmpty_iff {t : Tree} : t.isEmpty = true ↔ t.nodeList = [] := by
  simp [isEmpty, nodeList, OrderedMap.isEmpty, OrderedMap.values]

theorem contains_iff_mem_nodeIds {t : Tree} {i : NodeId} : t.contains i = true ↔ i ∈ t.nodeIds :=
  OrderedMap.contains_iff_mem_keys

/-! ### Coherent trees -/

/-- Registry and provenance index are those of one list of nodes, none of which shares its
identity or its origin with another. -/
structure Coherent (t : Tree) : Prop where
  nodes_eq : t.nodes = registry t.nodeList
  origins_eq : t.origins = provenance t.nodeList
  nodup_ids : (t.nodeList.map Node.id).Nodup
  nodup_origins : (t.nodeList.map Node.origin).Nodup

theorem nodeList_eq_of_nodes_eq {t : Tree} {ns : List Node} (h : t.nodes = registry ns) :
    t.nodeList = ns := by
  rw [nodeList, h, values_registry]

theorem Coherent.of_eq {t : Tree} (ns : List Node) (hnodes : t.nodes = registry ns)
    (horigins : t.origins = provenance ns) (hids : (ns.map Node.id).Nodup)
    (hnd : (ns.map Node.origin).Nodup) : t.Coherent := by
  have h := nodeList_eq_of_nodes_eq hnodes
  exact ⟨h ▸ hnodes, h ▸ horigins, h ▸ hids, h ▸ hnd⟩

/-- The index computed for a registry makes a coherent tree. -/
theorem coherent_ofRegistry {ns : List Node} {root : Option NodeId}
    (hids : (ns.map Node.id).Nodup) (hnd : (ns.map Node.origin).Nodup) :
    (ofRegistry (registry ns) root).Coherent := by
  refine .of_eq ns rfl ?_ hids hnd
  rw [ofRegistry, indexOf, values_registry]
  exact OrderedMap.ofList_map hnd

namespace Coherent

variable {t : Tree} (h : t.Coherent)

include h

theorem nodeIds_eq : t.nodeIds = t.nodeList.map Node.id := by
  rw [nodeIds, h.nodes_eq, keys_registry]

theorem contains_iff {i : NodeId} : t.contains i = true ↔ i ∈ t.nodeList.map Node.id := by
  rw [contains_iff_mem_nodeIds, h.nodeIds_eq]

/-- The live node of an identity is the listed node of that identity. -/
theorem node?_eq_some_iff {i : NodeId} {n : Node} :
    t.node? i = some n ↔ n ∈ t.nodeList ∧ n.id = i := by
  rw [node?, h.nodes_eq, registry, OrderedMap.get?_tabulate_eq_some_iff h.nodup_ids]
  simp only [exists_eq_right_right]

theorem node?_id {n : Node} (hn : n ∈ t.nodeList) : t.node? n.id = some n :=
  h.node?_eq_some_iff.mpr ⟨hn, rfl⟩

/-- The index leads from an origin to the node that carries it, and from no other origin
anywhere. -/
theorem origins_get?_eq_some_iff {o i : NodeId} :
    t.origins.get? o = some i ↔ ∃ n ∈ t.nodeList, n.origin = o ∧ n.id = i := by
  rw [h.origins_eq, provenance, OrderedMap.get?_tabulate_eq_some_iff h.nodup_origins]

theorem eq_of_origin_eq {n m : Node} (hn : n ∈ t.nodeList) (hm : m ∈ t.nodeList)
    (e : n.origin = m.origin) : n = m :=
  List.inj_on_of_nodup_map h.nodup_origins hn hm e

end Coherent

/-! ### Trees as branches -/

/-- The tree is a written form of at most one branch: its registry lists the nodes of the
branch and nothing else, and its root is the bottom. -/
structure Spells (t : Tree) (bs : List Branch) : Prop extends Coherent t where
  perm : t.nodeList.Perm (grove none bs)
  root_eq : t.root = bs.head?.map Branch.id
  length_le_one : bs.length ≤ 1

namespace Spells

variable {t : Tree} {bs : List Branch} {c : Place} {s : Branch}

theorem nodup_ids_grove (h : t.Spells bs) : ((grove none bs).map Node.id).Nodup :=
  (h.perm.map Node.id).nodup_iff.mp h.nodup_ids

theorem perm_buds (h : t.Spells bs) : (t.nodeList.map Node.bud).Perm (bs.flatMap buds) := by
  rw [← map_bud_grove none]
  exact h.perm.map Node.bud

theorem mem_buds_iff (h : t.Spells bs) {v : Bud} :
    v ∈ bs.flatMap buds ↔ ∃ n ∈ t.nodeList, n.bud = v := by
  rw [← h.perm_buds.mem_iff, List.mem_map]

theorem contains_iff_mem_ids (h : t.Spells bs) {i : NodeId} :
    t.contains i = true ↔ i ∈ bs.flatMap ids := by
  rw [h.toCoherent.contains_iff, (h.perm.map Node.id).mem_iff, map_id_grove]

theorem eq_nil_or_singleton (h : t.Spells bs) : bs = [] ∨ ∃ b, bs = [b] := by
  have hle := h.length_le_one
  cases bs with
  | nil => exact .inl rfl
  | cons b bs => exact .inr ⟨b, congrArg _ (List.length_eq_zero_iff.mp (by simpa using hle))⟩

/-- Every live node is the bottom of a branch at some place. -/
theorem exists_plug_eq (h : t.Spells bs) {n : Node} (hn : n ∈ t.nodeList) :
    ∃ c s, Place.plug c [s] = bs ∧ n = s.bottom c.parent := by
  obtain ⟨b, hb, hnb⟩ := mem_grove.mp (h.perm.mem_iff.mp hn)
  obtain rfl | ⟨b', rfl⟩ := h.eq_nil_or_singleton
  · cases hb
  · obtain rfl := List.mem_singleton.mp hb
    exact Place.exists_plug_eq hnb .top rfl

theorem mem_nodeList (h : t.Spells (c.plug [s])) {n : Node} (hn : n ∈ s.nodes c.parent) :
    n ∈ t.nodeList := by
  rw [h.perm.mem_iff, Place.grove_plug, grove_singleton]
  simp [hn]

/-- The live node at a place is the bottom of the branch there. -/
theorem node?_id (h : t.Spells (c.plug [s])) : t.node? s.id = some (s.bottom c.parent) :=
  h.toCoherent.node?_id (h.mem_nodeList (bottom_mem_nodes _ _))

theorem contains_id (h : t.Spells (c.plug [s])) : t.contains s.id = true :=
  Option.isSome_iff_exists.mpr ⟨_, h.node?_id⟩

theorem contains_of_mem_ids (h : t.Spells (c.plug [s])) {i : NodeId} (hi : i ∈ s.ids) :
    t.contains i = true := by
  rw [← map_id_nodes c.parent] at hi
  obtain ⟨n, hn, rfl⟩ := List.mem_map.mp hi
  exact h.contains_iff.mpr (List.mem_map_of_mem (h.mem_nodeList hn))

/-- A single branch stands at the top of the tree. -/
theorem atTop {b : Branch} (h : t.Spells [b]) : t.Spells (Place.top.plug [b]) := h

/-- The root of a tree is the bottom of its branch. -/
theorem rootNode?_eq {b : Branch} (h : t.Spells [b]) : t.rootNode? = some (b.bottom none) := by
  rw [rootNode?, h.root_eq]
  exact h.atTop.node?_id

/-- Above a hole stands the branch that is passed on the way up. -/
theorem up {v : Bud} {l r : List Branch} {up : Place} (h : t.Spells ((Place.on v l r up).plug bs)) :
    t.Spells (up.plug [grow v (l ++ bs ++ r)]) := h

/-- A branch on the branch at a place stands at a place of its own. -/
theorem exists_limb (h : t.Spells (c.plug [s])) {d : Branch} (hd : d ∈ s.limbs) :
    ∃ c' : Place, c'.parent = some s.id ∧ t.Spells (c'.plug [d]) := by
  obtain ⟨v, ls⟩ := s
  obtain ⟨l, r, rfl⟩ : ∃ l r, ls = l ++ d :: r := List.append_of_mem hd
  refine ⟨.on v l r c, rfl, ?_⟩
  rw [Place.plug, List.append_assoc, List.singleton_append]
  exact h

theorem size_eq {b : Branch} (h : t.Spells [b]) : t.size = b.size := by
  rw [size_eq_length, h.perm.length_eq, grove_singleton, length_nodes]

theorem root_eq_none_iff (h : t.Spells bs) : t.root = none ↔ bs = [] := by
  rw [h.root_eq]
  cases bs <;> simp

theorem isEmpty_iff (h : t.Spells bs) : t.isEmpty = true ↔ bs = [] := by
  rw [Tree.isEmpty_iff]
  constructor
  · intro he
    cases bs with
    | nil => rfl
    | cons b bs =>
      have hmem := h.perm.mem_iff.mpr (mem_grove.mpr ⟨b, List.mem_cons_self, bottom_mem_nodes none b⟩)
      exact absurd hmem (by simp [he])
  · rintro rfl
    exact h.perm.eq_nil

/-- A tree with a root spells a single branch. -/
theorem eq_singleton (h : t.Spells bs) {r : NodeId} (hr : t.root = some r) :
    ∃ b, bs = [b] ∧ b.id = r := by
  rw [h.root_eq] at hr
  obtain rfl | ⟨b, rfl⟩ := h.eq_nil_or_singleton
  · cases hr
  · exact ⟨b, rfl, Option.some.inj hr⟩

theorem nodup_plug (h : t.Spells (c.plug bs)) :
    ((c.before (bs.map Branch.id) ++ grove c.parent bs ++ c.after).map Node.id).Nodup := by
  rw [← Place.grove_plug]; exact h.nodup_ids_grove

theorem nodup_filling (h : t.Spells (c.plug bs)) : (bs.flatMap ids).Nodup := by
  rw [← map_id_grove c.parent]
  have hnd := h.nodup_plug
  rw [List.map_append, List.map_append] at hnd
  exact hnd.of_append_left.of_append_right

theorem nodup_ids_branch (h : t.Spells (c.plug [s])) : s.ids.Nodup := by
  simpa using h.nodup_filling

theorem nodup_origins_branch (h : t.Spells (c.plug [s])) : (s.buds.map Bud.origin).Nodup := by
  -- origins are a matter of the buds, and those do not depend on the parents
  have horigins : ∀ ns : List Node, ns.map Node.origin = (ns.map Node.bud).map Bud.origin := by
    intro ns; rw [List.map_map]; rfl
  have hnd := (h.perm.map Node.origin).nodup_iff.mp h.nodup_origins
  rw [horigins, map_bud_grove, ← map_bud_grove none, Place.grove_plug, List.map_append,
    List.map_append, List.map_append, List.map_append] at hnd
  have hnd := hnd.of_append_left.of_append_right
  rwa [map_bud_grove, List.flatMap_singleton] at hnd

theorem nodup_row (h : t.Spells (c.plug bs)) :
    (c.leftIds ++ bs.map Branch.id ++ c.rightIds).Nodup := by
  cases c with
  | top => simpa [Place.leftIds, Place.rightIds] using h.nodup_filling.sublist (map_id_sublist bs)
  | on v l r up =>
    have hnd := h.up.nodup_ids_branch
    rw [ids_grow] at hnd
    simpa [Place.leftIds, Place.rightIds] using hnd.of_cons.sublist (map_id_sublist _)

end Spells

end Tree

end SyntaxTree
