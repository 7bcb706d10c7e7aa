/-
SyntaxTree/Proofs/Cut.lean

Cutting a subtree out, as a statement about a place.  From a tree that spells
`plug c [s]`, `detach` at `s.id` makes two: what is cut out spells `s` by itself, and what
is left spells `plug c []`.  Both keep the order of arrival; the node right above the cut
has lost one child, and `s.id` its parent.

The proof follows the operation.  After `unlink` the registry still lists everything, with
`s` hanging in the air; the walk from `s.id` then finds exactly the identities of `s`, and
the registry and the index are divided along them.
-/
import SyntaxTree.Proofs.Counterpart
import SyntaxTree.Proofs.Sound
import SyntaxTree.Tree.Surgery

namespace SyntaxTree

open Branch

/-! ### Dividing a list of nodes -/

theorem notMem_middle {ls ms rs : List Node} (hnd : ((ls ++ ms ++ rs).map Node.id).Nodup)
    {n : Node} (hn : n ∈ ls ∨ n ∈ rs) : n.id ∉ ms.map Node.id := by
  intro hm
  rw [List.map_append, List.map_append, List.nodup_append] at hnd
  rcases hn with hn | hn
  · exact (List.nodup_append.mp hnd.1).2.2 _ (List.mem_map_of_mem hn) _ hm rfl
  · exact hnd.2.2 _ (List.mem_append_right _ hm) _ (List.mem_map_of_mem hn) rfl

theorem filter_middle {ls ms rs : List Node} (hnd : ((ls ++ ms ++ rs).map Node.id).Nodup) :
    (ls ++ ms ++ rs).filter (fun n => (ms.map Node.id).contains n.id) = ms := by
  have side : ∀ ns : List Node, (∀ n ∈ ns, n ∈ ls ∨ n ∈ rs) →
      ns.filter (fun n => (ms.map Node.id).contains n.id) = [] := fun ns h =>
    List.filter_eq_nil_iff.mpr fun n hn => by simpa using notMem_middle hnd (h n hn)
  rw [List.filter_append, List.filter_append, side ls fun _ => Or.inl, side rs fun _ => Or.inr,
    List.nil_append, List.append_nil, List.filter_eq_self]
  exact fun n hn => List.contains_iff_mem.mpr (List.mem_map_of_mem hn)

/-- The nodes around the middle of a list are those without. -/
theorem filter_sides {ls ms rs : List Node} (hnd : ((ls ++ ms ++ rs).map Node.id).Nodup) :
    (ls ++ ms ++ rs).filter (fun n => !(ms.map Node.id).contains n.id) = ls ++ rs := by
  have side : ∀ ns : List Node, (∀ n ∈ ns, n ∈ ls ∨ n ∈ rs) →
      ns.filter (fun n => !(ms.map Node.id).contains n.id) = ns := fun ns h =>
    List.filter_eq_self.mpr fun n hn => by simpa using notMem_middle hnd (h n hn)
  have middle : ms.filter (fun n => !(ms.map Node.id).contains n.id) = [] :=
    List.filter_eq_nil_iff.mpr fun n hn => by simpa using ⟨n, hn, rfl⟩
  rw [List.filter_append, List.filter_append, side ls fun _ => Or.inl, side rs fun _ => Or.inr,
    middle, List.append_nil]

/-- Puts the node `i` under another parent, or under none. -/
def Node.reparent (i : NodeId) (p : Option NodeId) (n : Node) : Node :=
  if n.id = i then { n with parent := p } else n

@[simp] theorem Node.id_reparent (i : NodeId) (p : Option NodeId) (n : Node) :
    (n.reparent i p).id = n.id := by
  unfold reparent; split <;> rfl

@[simp] theorem Node.origin_reparent (i : NodeId) (p : Option NodeId) (n : Node) :
    (n.reparent i p).origin = n.origin := by
  unfold reparent; split <;> rfl

/-- A branch whose bottom is put under another parent stands under that parent. -/
theorem Branch.map_reparent_nodes {s : Branch} (hnd : s.ids.Nodup) (p p' : Option NodeId) :
    (s.nodes p).map (Node.reparent s.id p') = s.nodes p' := by
  rw [nodes_eq p, nodes_eq p', List.map_cons]
  congr 1
  · exact if_pos rfl
  · apply map_eq_self
    intro n hn
    exact if_neg (id_ne_of_mem_grove hnd hn)

theorem modify_registry (ns : List Node) (k : NodeId) (g : List NodeId → List NodeId) :
    (registry ns).modify k (fun n => { n with children := g n.children })
      = registry (ns.map (Node.relink (some k) g)) := by
  refine OrderedMap.modify_tabulate (fun n => n.id_relink _ g) fun n => ?_
  by_cases h : n.id = k
  · simp [Node.relink, h]
  · simp [Node.relink, h]

theorem modify_registry_parent (ns : List Node) (i : NodeId) :
    (registry ns).modify i (fun n => { n with parent := none })
      = registry (ns.map (Node.reparent i none)) :=
  OrderedMap.modify_tabulate (fun n => n.id_reparent i none) fun _ => rfl

theorem provenance_map_relink (ns : List Node) (k : Option NodeId)
    (g : List NodeId → List NodeId) : provenance (ns.map (Node.relink k g)) = provenance ns := by
  simp [provenance, OrderedMap.tabulate]

theorem filter_registry (ns : List Node) (keep : NodeId → Bool) :
    (registry ns).filter (fun i _ => keep i) = registry (ns.filter fun n => keep n.id) :=
  OrderedMap.filter_tabulate _

/-- Dropping the origins of some of the nodes leaves the index of the others. -/
theorem foldl_erase_provenance {ns : List Node} (hnd : (ns.map Node.origin).Nodup)
    (p : Node → Bool) : (ns.filter p).foldl (fun o n => o.erase n.origin) (provenance ns)
      = provenance (ns.filter fun n => !p n) := by
  rw [← List.foldl_map (f := Node.origin) (g := OrderedMap.erase), OrderedMap.foldl_erase,
    provenance, OrderedMap.filter_tabulate]
  refine congrArg _ (List.filter_congr fun n hn => ?_)
  -- the origin of a node is dropped with that node only
  have hp : n.origin ∈ (ns.filter p).map Node.origin ↔ p n = true := by
    constructor
    · intro h
      obtain ⟨m, hm, e⟩ := List.mem_map.mp h
      obtain ⟨hm, hpm⟩ := List.mem_filter.mp hm
      exact List.inj_on_of_nodup_map hnd hm hn e ▸ hpm
    · exact fun h => List.mem_map_of_mem (List.mem_filter.mpr ⟨hn, h⟩)
  by_cases h : p n = true <;> simp [hp, h]

/-- A name that occurs once in a row is the only one dropped. -/
theorem filter_ne_middle {l r : List NodeId} {i : NodeId} (hnd : (l ++ [i] ++ r).Nodup) :
    (l ++ [i] ++ r).filter (· ≠ i) = l ++ [] ++ r := by
  rw [List.append_assoc, List.singleton_append, List.nodup_middle, List.nodup_cons,
    List.mem_append, not_or] at hnd
  have keep : ∀ is : List NodeId, i ∉ is → is.filter (· ≠ i) = is := fun is h =>
    List.filter_eq_self.mpr fun j hj => by simpa using fun e : j = i => h (e ▸ hj)
  rw [List.filter_append, List.filter_append, keep l hnd.1.1, keep r hnd.1.2]
  simp

namespace Tree

variable {t : Tree} {c : Place} {s : Branch} {bs : List Branch}

/-! ### Unlinking -/

/-- The nodes of a tree when `s` at the place `c` is no longer a child of its parent. -/
def unlinkedNodes (t : Tree) (c : Place) (s : Branch) : List Node :=
  t.nodeList.map (Node.relink c.parent fun is => is.filter (· ≠ s.id))

namespace Spells

theorem unlink_eq (h : t.Spells (c.plug [s])) :
    t.unlink s.id = { t with
      nodes := registry (t.unlinkedNodes c s), root := (c.plug []).head?.map Branch.id } := by
  have hnode : (t.node? s.id).bind (·.parent) = c.parent := by rw [h.node?_id]; rfl
  rw [unlink, hnode]
  cases c with
  | top =>
    -- a root has no parent to forget it
    show { t with root := none } = _
    have hnodes : t.unlinkedNodes .top s = t.nodeList := Node.map_relink_none _ _
    rw [hnodes, ← h.nodes_eq]
    rfl
  | on v l r up =>
    have hroot : t.root = ((Place.on v l r up).plug []).head?.map Branch.id :=
      h.root_eq.trans (Place.head?_plug_on v l r up _ _)
    show { t with nodes := t.nodes.modify v.id _ } = _
    rw [← hroot, h.nodes_eq, modify_registry]
    rfl

theorem nodeList_unlink (h : t.Spells (c.plug [s])) :
    (t.unlink s.id).nodeList = t.unlinkedNodes c s :=
  nodeList_eq_of_nodes_eq (by rw [h.unlink_eq])

theorem nodup_ids_unlinkedNodes (h : t.Spells bs) :
    ((t.unlinkedNodes c s).map Node.id).Nodup := by
  rw [unlinkedNodes, Node.map_id_relink]; exact h.nodup_ids

theorem nodup_origins_unlinkedNodes (h : t.Spells bs) :
    ((t.unlinkedNodes c s).map Node.origin).Nodup := by
  rw [unlinkedNodes, Node.map_origin_relink]; exact h.nodup_origins

theorem coherent_unlink (h : t.Spells (c.plug [s])) : (t.unlink s.id).Coherent := by
  refine .of_eq (t.unlinkedNodes c s) (by rw [h.unlink_eq]) ?_ h.nodup_ids_unlinkedNodes
    h.nodup_origins_unlinkedNodes
  rw [h.unlink_eq, unlinkedNodes, provenance_map_relink]
  exact h.origins_eq

/-- The registry of the unlinked tree lists the rest of the tree and the subtree side by side. -/
theorem perm_unlinkedNodes (h : t.Spells (c.plug [s])) :
    (t.unlinkedNodes c s).Perm (c.before [] ++ s.nodes c.parent ++ c.after) := by
  -- the entry of `s` is the only one of the row that goes
  have hdrop := filter_ne_middle h.nodup_row
  have hnodes : c.before [s.id] ++ s.nodes c.parent ++ c.after = grove none (c.plug [s]) := by
    rw [Place.grove_plug, grove_singleton]; rfl
  have hmap := Place.map_relink_parent (hnodes ▸ h.nodup_ids_grove) hdrop
  rw [← hmap, hnodes]
  exact h.perm.map _

theorem bears_unlink (h : t.Spells (c.plug [s])) : (t.unlink s.id).Bears s := by
  refine ⟨c.parent, fun n hn => h.coherent_unlink.node?_id ?_⟩
  rw [h.nodeList_unlink, h.perm_unlinkedNodes.mem_iff]
  simp [hn]

end Spells

/-! ### Cutting -/

/-- The nodes left in the registry when `s` is cut out at the place `c`. -/
def keptNodes (t : Tree) (c : Place) (s : Branch) : List Node :=
  (t.unlinkedNodes c s).filter fun n => !s.ids.contains n.id

/-- The nodes cut out of the registry with `s`. -/
def excisedNodes (t : Tree) (c : Place) (s : Branch) : List Node :=
  ((t.unlinkedNodes c s).filter fun n => s.ids.contains n.id).map (Node.reparent s.id none)

namespace Spells

theorem detach_removed_eq (h : t.Spells (c.plug [s])) :
    (t.detach s.id).removed = ofRegistry (registry (t.excisedNodes c s)) (some s.id) := by
  have hwalk := h.bears_unlink.preOrderFrom_eq h.nodup_ids_branch
  have hnodes : (t.unlink s.id).nodes = registry (t.unlinkedNodes c s) := by rw [h.unlink_eq]
  rw [detach, hwalk, hnodes]
  show ofRegistry (((registry _).filter fun i _ => s.ids.contains i).modify _ _) _ = _
  rw [filter_registry, modify_registry_parent]
  rfl

theorem detach_rest_eq (h : t.Spells (c.plug [s])) :
    (t.detach s.id).rest
      = ({ t with root := (c.plug []).head?.map Branch.id } : Tree).withNodes (t.keptNodes c s) := by
  have hwalk := h.bears_unlink.preOrderFrom_eq h.nodup_ids_branch
  have hnd := h.nodup_origins_unlinkedNodes (c := c) (s := s)
  have horigins := h.nodeList_unlink ▸ h.coherent_unlink.origins_eq
  have hnodes : (t.unlink s.id).nodes = registry (t.unlinkedNodes c s) := by rw [h.unlink_eq]
  rw [detach, hwalk, hnodes, horigins, filter_registry, filter_registry, values_registry,
    foldl_erase_provenance hnd, h.unlink_eq]
  rfl

theorem nodeList_removed (h : t.Spells (c.plug [s])) :
    (t.detach s.id).removed.nodeList = t.excisedNodes c s :=
  nodeList_eq_of_nodes_eq (by rw [h.detach_removed_eq]; rfl)

theorem nodeList_rest (h : t.Spells (c.plug [s])) :
    (t.detach s.id).rest.nodeList = t.keptNodes c s :=
  nodeList_eq_of_nodes_eq (by rw [h.detach_rest_eq]; rfl)

theorem nodup_unlinked (h : t.Spells (c.plug [s])) :
    ((c.before [] ++ s.nodes c.parent ++ c.after).map Node.id).Nodup :=
  (h.perm_unlinkedNodes.map Node.id).nodup_iff.mp h.nodup_ids_unlinkedNodes

theorem perm_keptNodes (h : t.Spells (c.plug [s])) :
    (t.keptNodes c s).Perm (c.before [] ++ c.after) := by
  -- the doomed identities are those of the nodes in the middle
  have hperm := h.perm_unlinkedNodes.filter fun n => !s.ids.contains n.id
  rwa [← map_id_nodes c.parent s, filter_sides h.nodup_unlinked, map_id_nodes] at hperm

theorem perm_excisedNodes (h : t.Spells (c.plug [s])) :
    (t.excisedNodes c s).Perm (s.nodes none) := by
  have hperm := h.perm_unlinkedNodes.filter fun n => s.ids.contains n.id
  rw [← map_id_nodes c.parent s, filter_middle h.nodup_unlinked, map_id_nodes] at hperm
  rw [← map_reparent_nodes h.nodup_ids_branch c.parent]
  exact hperm.map _

/-- What is cut out spells the branch at the place of the cut. -/
theorem spells_removed (h : t.Spells (c.plug [s])) : (t.detach s.id).removed.Spells [s] := by
  have hcoherent : (t.detach s.id).removed.Coherent := by
    rw [h.detach_removed_eq]
    refine coherent_ofRegistry ?_ ?_
    · rw [(h.perm_excisedNodes.map Node.id).nodup_iff, map_id_nodes]
      exact h.nodup_ids_branch
    · rw [(h.perm_excisedNodes.map Node.origin).nodup_iff, map_origin_nodes]
      exact h.nodup_origins_branch
  refine ⟨hcoherent, ?_, ?_, Nat.le_refl 1⟩
  · rw [h.nodeList_removed, grove_singleton]
    exact h.perm_excisedNodes
  · rw [h.detach_removed_eq]; rfl

/-- What a cut takes are the identities of the branch at its place. -/
theorem contains_removed_iff (h : t.Spells (c.plug [s])) {i : NodeId} :
    (t.detach s.id).removed.contains i = true ↔ i ∈ s.ids := by
  rw [h.spells_removed.contains_iff_mem_ids, List.flatMap_singleton]

/-- What is left spells the tree with nothing at the place of the cut. -/
theorem spells_rest (h : t.Spells (c.plug [s])) : (t.detach s.id).rest.Spells (c.plug []) := by
  have hcoherent : (t.detach s.id).rest.Coherent :=
    .of_eq (t.keptNodes c s) (by rw [h.detach_rest_eq]; rfl) (by rw [h.detach_rest_eq]; rfl)
      (h.nodup_ids_unlinkedNodes.sublist (List.filter_sublist.map _))
      (h.nodup_origins_unlinkedNodes.sublist (List.filter_sublist.map _))
  refine ⟨hcoherent, ?_, by rw [h.detach_rest_eq]; rfl, c.length_plug_le_one (Nat.zero_le 1)⟩
  rw [h.nodeList_rest, Place.grove_plug, grove_nil, List.append_nil]
  exact h.perm_keptNodes

end Spells

/-! ### Removing -/

/-- What a removal does: it cuts at the node it has located. -/
theorem remove_eq_ok_iff {candidate : Tree} {r : Removal} :
    t.remove candidate = .ok r ↔ ∃ i, t.locate candidate = .ok i ∧
      r = ⟨i, (t.detach i).removed, (t.detach i).rest⟩ := by
  rw [remove]
  cases t.locate candidate with
  | error e =>
    constructor
    · intro h; cases h
    · rintro ⟨i, h, -⟩; cases h
  | ok i =>
    constructor
    · intro h
      exact ⟨i, rfl, (Except.ok.inj h).symm⟩
    · rintro ⟨j, hj, rfl⟩
      obtain rfl := Except.ok.inj hj
      rfl

namespace Sound

variable {u candidate : Tree} {next : NodeId}

/-- A tree whose nodes come from a sound tree holds no other identities. -/
theorem inherit (h : t.Sound next) (hu : u.Spells bs)
    (hold : ∀ n ∈ u.nodeList, ∃ m ∈ t.nodeList, n.id = m.id ∧ n.origin = m.origin) :
    u.Sound next := by
  refine ⟨⟨bs, hu⟩, ?_⟩
  intro n hn
  obtain ⟨m, hm, hid, horigin⟩ := hold n hn
  exact hid ▸ horigin ▸ h.used m hm

theorem locate (h : t.Sound next) {i : NodeId} (hi : t.locate candidate = .ok i) :
    t.contains i = true := by
  obtain ⟨bs, hs⟩ := h.spells
  obtain ⟨n, hn, rfl⟩ := hs.locate_eq_ok_iff.mp hi
  exact hs.contains_iff.mpr (List.mem_map_of_mem (hs.counterpart?_eq_some_iff.mp hn).1)

/-- **Cutting a sound tree** makes two sound trees. -/
theorem detach (h : t.Sound next) {i : NodeId} (hi : t.contains i = true) :
    (t.detach i).removed.Sound next ∧ (t.detach i).rest.Sound next := by
  obtain ⟨c, s, hs, rfl⟩ := h.exists_place hi
  have old : ∀ n ∈ t.unlinkedNodes c s, ∃ m ∈ t.nodeList, n.id = m.id ∧ n.origin = m.origin := by
    intro n hn
    obtain ⟨m, hm, rfl⟩ := List.mem_map.mp hn
    exact ⟨m, hm, m.id_relink _ _, m.origin_relink _ _⟩
  constructor
  · apply h.inherit hs.spells_removed
    intro n hn
    rw [hs.nodeList_removed] at hn
    obtain ⟨m, hm, rfl⟩ := List.mem_map.mp hn
    rw [Node.id_reparent, Node.origin_reparent]
    exact old m (List.mem_filter.mp hm).1
  · apply h.inherit hs.spells_rest
    intro n hn
    rw [hs.nodeList_rest] at hn
    exact old n (List.mem_filter.mp hn).1

/-- What a successful removal has done, told by the place of the node it has located. -/
theorem exists_of_remove (h : t.Sound next) {r : Removal} (hr : t.remove candidate = .ok r) :
    ∃ (c : Place) (s : Branch), t.Spells (c.plug [s]) ∧
      r = ⟨s.id, (t.detach s.id).removed, (t.detach s.id).rest⟩ := by
  obtain ⟨i, hi, rfl⟩ := remove_eq_ok_iff.mp hr
  obtain ⟨c, s, hs, rfl⟩ := h.exists_place (h.locate hi)
  exact ⟨c, s, hs, rfl⟩

theorem remove (h : t.Sound next) {r : Removal} (hr : t.remove candidate = .ok r) :
    r.removed.Sound next ∧ r.rest.Sound next := by
  obtain ⟨c, s, hs, rfl⟩ := h.exists_of_remove hr
  exact h.detach hs.contains_id

end Sound

end Tree

end SyntaxTree
