/-
SyntaxTree/Proofs/Replace.lean

Replacing a subtree, as a statement about a place.  If `t` spells `plug c [s]` and the
copy to be grafted spells `q` under fresh identities (`Scion`), then the tree after the
replacement spells `plug c [g]`, where `g = t.graft s q` is `q` with its origins settled
against those of the survivors (`Scion.spells_planted`).  Its registry is known entry by
entry and in order (`Scion.nodeList_planted`).

The two ways in which `replace` ends, one for a root and one for all other nodes, are the
two kinds of places, and nothing but `planted_eq` distinguishes them.
-/
import SyntaxTree.Proofs.Graft

namespace SyntaxTree

open Branch

namespace Tree

/-! ### What a replacement does -/

/-- The tree with a copy in the place of the subtree at `i`. -/
def planted (t : Tree) (i : NodeId) (copy : Tree) : Tree :=
  let grown := (t.detach i).rest.adoptAll copy ((t.node? i).bind (·.parent))
  match t.placeOf i, copy.root with
  | some (parent, position), some child => grown.insertChild parent position child
  | _, root => { grown with root }

theorem replace_eq_ok_iff {t candidate graft : Tree} {next : NodeId} {r : Replacement} :
    t.replace candidate graft next = .ok r ↔
      ∃ i n, t.locate candidate = .ok i ∧ graft.rootNode? = some n ∧
        r = ⟨i, (t.detach i).removed, (graft.copySubtree n.id next).size,
          t.planted i (graft.copySubtree n.id next)⟩ := by
  rw [replace, rootNode]
  cases t.locate candidate with
  | error e =>
    constructor
    · intro h; cases h
    · rintro ⟨i, n, h, -⟩; cases h
  | ok i =>
    cases graft.rootNode? with
    | none =>
      constructor
      · intro h; cases h
      · rintro ⟨i, n, -, h, -⟩; cases h
    | some n =>
      constructor
      · intro h
        exact ⟨i, n, rfl, rfl, (Except.ok.inj h).symm⟩
      · rintro ⟨j, m, hj, hm, rfl⟩
        obtain rfl := Except.ok.inj hj
        obtain rfl := Option.some.inj hm
        rfl

/-! ### The grafted branch -/

/-- A copy that is ready to be grafted: its nodes are listed in pre-order, and its identities are
in use neither in the tree nor as origins in the copy itself. -/
structure Scion (t copy : Tree) (q : Branch) : Prop where
  spells : copy.Spells [q]
  nodeList_eq : copy.nodeList = q.nodes none
  fresh : ∀ i ∈ q.ids, i ∉ t.nodeList.map Node.id ∧ i ∉ t.nodeList.map Node.origin ∧
    i ∉ q.buds.map Bud.origin

/-- A branch as it is grafted in the place of `s`: with its origins settled. -/
def graft (t : Tree) (s q : Branch) : Branch :=
  q.map (Bud.settle ((t.survivors s).map Node.origin))

theorem ids_graft (t : Tree) (s q : Branch) : (t.graft s q).ids = q.ids := ids_settle _ q

theorem id_graft (t : Tree) (s q : Branch) : (t.graft s q).id = q.id :=
  id_map (f := fun i => i) (Bud.id_settle _) q

theorem shape_graft (t : Tree) (s q : Branch) : (t.graft s q).shape = q.shape :=
  shape_map (Bud.rule_settle _) (Bud.label_settle _) q

/-- The nodes of a tree with `g` in the place `c` of `s`: the survivors in their old order, of
which the one above the place has its entry for `s` overwritten, and those of `g` in pre-order. -/
def plantedNodes (t : Tree) (c : Place) (s g : Branch) : List Node :=
  (t.survivors s).map (Node.relink c.parent (NodeId.overwrite s.id g.id)) ++ g.nodes c.parent

variable {t copy : Tree} {c : Place} {s q : Branch}

theorem mem_nodeList_of_mem_survivors {n : Node} (hn : n ∈ t.survivors s) : n ∈ t.nodeList :=
  (List.mem_filter.mp hn).1

/-- The nodes around a place are those that survive. -/
theorem Spells.perm_survivors (h : t.Spells (c.plug [s])) :
    (t.survivors s).Perm (c.before [s.id] ++ c.after) := by
  have hsides : (c.before [s.id] ++ s.nodes c.parent ++ c.after).filter
      (fun n => !((s.nodes c.parent).map Node.id).contains n.id) = c.before [s.id] ++ c.after := by
    refine filter_sides ?_
    simpa using h.nodup_plug
  have hperm := h.perm.filter fun n => !s.ids.contains n.id
  rw [Place.grove_plug, grove_singleton] at hperm
  rw [← hsides, map_id_nodes]
  exact hperm

/-- The planted nodes are those of the place with `g` in it. -/
theorem Spells.perm_plantedNodes (h : t.Spells (c.plug [s])) (g : Branch) :
    (t.plantedNodes c s g).Perm (grove none (c.plug [g])) := by
  have hnd : ((c.before [s.id] ++ [] ++ c.after).map Node.id).Nodup := by
    rw [List.append_nil, ← (h.perm_survivors.map Node.id).nodup_iff]
    exact h.nodup_ids.sublist (List.filter_sublist.map _)
  have hmap := Place.map_relink_parent hnd (overwrite_middle h.nodup_row g.id)
  rw [List.append_nil, List.append_nil] at hmap
  have hperm : ((t.survivors s).map (Node.relink c.parent (NodeId.overwrite s.id g.id))).Perm
      (c.before [g.id] ++ c.after) := hmap ▸ h.perm_survivors.map _
  rw [Place.grove_plug, grove_singleton, plantedNodes]
  refine (hperm.append_right _).trans ?_
  rw [List.append_assoc, List.append_assoc]
  exact .append_left _ List.perm_append_comm

namespace Scion

theorem nodup_ids_nodes (hq : t.Scion copy q) (p : Option NodeId) :
    ((q.nodes p).map Node.id).Nodup := by
  rw [map_id_nodes]
  exact hq.spells.atTop.nodup_ids_branch

theorem nodup_origins_nodes (hq : t.Scion copy q) (p : Option NodeId) :
    ((q.nodes p).map Node.origin).Nodup := by
  rw [map_origin_nodes]
  exact hq.spells.atTop.nodup_origins_branch

/-- The identities of a scion are nobody's origin. -/
theorem fresh_survivors (hq : t.Scion copy q) (s : Branch) (p : Option NodeId) :
    ∀ n ∈ q.nodes p,
      n.id ∉ (t.survivors s).map Node.origin ∧ n.id ∉ (q.nodes p).map Node.origin := by
  intro n hn
  have hid := List.mem_map_of_mem (f := Node.id) hn
  rw [map_id_nodes] at hid
  obtain ⟨-, horigin, hself⟩ := hq.fresh n.id hid
  rw [map_origin_nodes]
  refine ⟨fun h => horigin ?_, hself⟩
  exact (List.filter_sublist.map Node.origin).subset h

end Scion

/-- A scion is taken in as it would be grafted. -/
theorem Scion.adoptAll_rest (h : t.Spells (c.plug [s])) (hq : t.Scion copy q) :
    (t.detach s.id).rest.adoptAll copy c.parent
      = ({ t with root := (c.plug []).head?.map Branch.id } : Tree).withNodes
          (t.keptNodes c s ++ (t.graft s q).nodes c.parent) := by
  -- the root of the copy is the node that is put under the parent
  have hroot : copy.root = some q.id := hq.spells.root_eq
  have hadopt : (fun (u : Tree) (n : Node) =>
        u.adopt (if some n.id = copy.root then { n with parent := c.parent } else n))
      = fun u n => u.adopt (n.reparent q.id c.parent) := by
    funext u n
    simp only [hroot, Option.some.injEq, Node.reparent]
  have hold : (t.keptNodes c s).map Node.id ⊆ t.nodeList.map Node.id := by
    rw [keptNodes_eq, Node.map_id_relink]
    exact (List.filter_sublist.map Node.id).subset
  have hnd := hq.spells.atTop.nodup_ids_branch
  rw [adoptAll, hadopt, ← List.foldl_map (f := Node.reparent q.id c.parent), hq.nodeList_eq,
    map_reparent_nodes hnd, h.detach_rest_eq]
  refine (foldl_adopt _ ?_ (hq.nodup_origins_nodes c.parent) ?_).trans ?_
  · rw [List.map_append, List.nodup_append, map_id_nodes]
    refine ⟨h.nodup_ids_unlinkedNodes.sublist (List.filter_sublist.map _), hnd, ?_⟩
    rintro i hi j hj rfl
    exact (hq.fresh i hj).1 (hold hi)
  · rw [map_origin_keptNodes]
    exact hq.fresh_survivors s c.parent
  · rw [map_origin_keptNodes, graft, nodes_settle]

/-- The node above a place is not in a branch under fresh identities. -/
theorem Scion.map_relink_graft (h : t.Spells (c.plug [s])) (hq : t.Scion copy q)
    (f : List NodeId → List NodeId) :
    ((t.graft s q).nodes c.parent).map (Node.relink c.parent f) = (t.graft s q).nodes c.parent := by
  cases c with
  | top => exact Node.map_relink_none f _
  | on v l r up =>
    apply Node.map_relink_eq_self
    intro hv
    rw [map_id_nodes, ids_graft] at hv
    exact (hq.fresh v.id hv).1 (h.contains_iff.mp h.up.contains_id)

theorem insertChild_withNodes (u : Tree) (ns : List Node) (p : NodeId) (k : Nat) (j : NodeId) :
    (u.withNodes ns).insertChild p k j
      = u.withNodes (ns.map (Node.relink (some p) fun is => is.insertIdx k j)) := by
  have hnodes := modify_registry ns p fun is => is.insertIdx k j
  have horigins := provenance_map_relink ns (some p) fun is => is.insertIdx k j
  show _ = ({ u with nodes := registry _, origins := provenance _ } : Tree)
  rw [horigins, ← hnodes]
  rfl

/-- **The tree after a replacement**, as data. -/
theorem Scion.planted_eq (h : t.Spells (c.plug [s])) (hq : t.Scion copy q) :
    t.planted s.id copy
      = ({ t with root := (c.plug [t.graft s q]).head?.map Branch.id } : Tree).withNodes
          (t.plantedNodes c s (t.graft s q)) := by
  have hparent : (t.node? s.id).bind (·.parent) = c.parent := by rw [h.node?_id]; rfl
  have hroot : copy.root = some (t.graft s q).id := by rw [id_graft]; exact hq.spells.root_eq
  have hnodes : (t.keptNodes c s ++ (t.graft s q).nodes c.parent).map
        (Node.relink c.parent fun is => is.insertIdx c.leftIds.length (t.graft s q).id)
      = t.plantedNodes c s (t.graft s q) := by
    rw [List.map_append, h.map_insertIdx_keptNodes, hq.map_relink_graft h, plantedNodes]
  rw [planted, hparent, hq.adoptAll_rest h, h.placeOf_id, hroot]
  cases c with
  | top =>
    -- there is no node above, so the survivors are not changed
    have hnodes : t.keptNodes .top s ++ (t.graft s q).nodes none
        = t.plantedNodes .top s (t.graft s q) := by
      rw [← hnodes]; exact (Node.map_relink_none _ _).symm
    show ({ t with root := some _ } : Tree).withNodes (_ ++ (t.graft s q).nodes none) = _
    rw [hnodes]
    rfl
  | on v l r up =>
    show insertChild _ v.id (l.map Branch.id).length _ = _
    rw [insertChild_withNodes, ← Place.head?_plug_on v l r up [] [t.graft s q]]
    exact congrArg _ hnodes

/-- The registry after a replacement. -/
theorem Scion.nodeList_planted (h : t.Spells (c.plug [s])) (hq : t.Scion copy q) :
    (t.planted s.id copy).nodeList = t.plantedNodes c s (t.graft s q) :=
  nodeList_eq_of_nodes_eq (by rw [hq.planted_eq h]; rfl)

/-- **A replacement spells the old place with the grafted branch in it.** -/
theorem Scion.spells_planted (h : t.Spells (c.plug [s])) (hq : t.Scion copy q) :
    (t.planted s.id copy).Spells (c.plug [t.graft s q]) := by
  have hcoherent : (t.planted s.id copy).Coherent := by
    refine .of_eq (t.plantedNodes c s (t.graft s q)) (by rw [hq.planted_eq h]; rfl)
      (by rw [hq.planted_eq h]; rfl) ?_ ?_
    · rw [plantedNodes, List.map_append, Node.map_id_relink, map_id_nodes, ids_graft,
        List.nodup_append]
      refine ⟨h.nodup_ids.sublist (List.filter_sublist.map _),
        hq.spells.atTop.nodup_ids_branch, ?_⟩
      rintro i hi j hj rfl
      exact (hq.fresh i hj).1 ((List.filter_sublist.map Node.id).subset hi)
    · rw [plantedNodes, graft, nodes_settle, List.map_append, Node.map_origin_relink,
        ← List.map_append]
      exact Node.nodup_origins_settle (h.nodup_origins.sublist (List.filter_sublist.map _))
        (hq.nodup_ids_nodes c.parent) (hq.nodup_origins_nodes c.parent) (hq.fresh_survivors s _)
  refine ⟨hcoherent, ?_, by rw [hq.planted_eq h]; rfl, c.length_plug_le_one (Nat.le_refl 1)⟩
  rw [hq.nodeList_planted h]
  exact h.perm_plantedNodes _

/-! ### Sound trees -/

variable {r candidate : Tree} {b : Branch} {next : NodeId}

/-- Replacing by a tree that spells a branch succeeds wherever the candidate is located. -/
theorem Spells.replace_eq (hb : r.Spells [b]) {i : NodeId} (hi : t.locate candidate = .ok i) :
    t.replace candidate r next = .ok ⟨i, (t.detach i).removed, b.size,
      t.planted i (r.copySubtree b.id next)⟩ := by
  rw [← hb.atTop.size_copySubtree next]
  exact replace_eq_ok_iff.mpr ⟨i, b.bottom none, hi, hb.rootNode?_eq, rfl⟩

/-- What is grafted has the identities that the copy has used up. -/
theorem Spells.ids_graft_copied (hb : r.Spells [b]) (t : Tree) (s : Branch) (next : NodeId) :
    (t.graft s (b.copied next)).ids = next.block b.size := by
  rw [ids_graft, ids_copied next hb.atTop.nodup_ids_branch]

namespace Sound

/-- A copy taken under the next free identities is ready to be grafted. -/
theorem scion (ht : t.Sound next) (hr : r.Sound next) (hb : r.Spells [b]) :
    t.Scion (r.copySubtree b.id next) (b.copied next) := by
  refine ⟨hb.atTop.copySubtree next, hb.atTop.nodeList_copySubtree next, ?_⟩
  intro i hi
  rw [ids_copied next hb.atTop.nodup_ids_branch] at hi
  have unused : ∀ {is : List NodeId}, (∀ j ∈ is, j < next) → i ∉ is := fun h hmem =>
    NodeId.notMem_block (h i hmem) _ hi
  refine ⟨?_, ?_, ?_⟩
  · apply unused
    intro j hj
    obtain ⟨n, hn, rfl⟩ := List.mem_map.mp hj
    exact (ht.used n hn).1
  · apply unused
    intro j hj
    obtain ⟨n, hn, rfl⟩ := List.mem_map.mp hj
    exact (ht.used n hn).2
  · apply unused
    intro j hj
    rw [map_origin_copied] at hj
    exact hr.lt_of_mem_origins hb.atTop hj

/-- **Replacing in a sound tree** makes a sound tree, once the identities of the graft are used
up. -/
theorem planted (ht : t.Sound next) (hr : r.Sound next) (h : t.Spells (c.plug [s]))
    (hb : r.Spells [b]) :
    (t.planted s.id (r.copySubtree b.id next)).Sound (next.shift b.size) := by
  have hq := ht.scion hr hb
  refine ⟨⟨_, hq.spells_planted h⟩, ?_⟩
  intro n hn
  rw [hq.nodeList_planted h, plantedNodes, List.mem_append] at hn
  rcases hn with hn | hn
  · obtain ⟨m, hm, rfl⟩ := List.mem_map.mp hn
    rw [Node.id_relink, Node.origin_relink]
    exact (ht.mono (next.le_shift b.size)).used m (mem_nodeList_of_mem_survivors hm)
  · rw [Tree.graft, nodes_settle] at hn
    obtain ⟨m, hm, rfl⟩ := List.mem_map.mp hn
    have hid := List.mem_map_of_mem (f := Node.id) hm
    rw [map_id_nodes, ids_copied next hb.atTop.nodup_ids_branch] at hid
    have horigin := List.mem_map_of_mem (f := Node.origin) hm
    rw [map_origin_nodes, map_origin_copied] at horigin
    have hlt := (NodeId.mem_block.mp hid).2
    rw [Node.id_settle, Node.origin_settle]
    refine ⟨hlt, ?_⟩
    split
    · exact hlt
    · exact NodeId.lt_of_lt_of_le (hr.lt_of_mem_origins hb.atTop horigin) (next.le_shift _)

/-- What a successful replacement has done, told by the place of the node it has located. -/
theorem exists_of_replace (ht : t.Sound next) (hr : r.Sound next) {outcome : Replacement}
    (ho : t.replace candidate r next = .ok outcome) :
    ∃ (c : Place) (s b : Branch), t.Spells (c.plug [s]) ∧ r.Spells [b] ∧
      outcome = ⟨s.id, (t.detach s.id).removed, b.size,
        t.planted s.id (r.copySubtree b.id next)⟩ := by
  obtain ⟨i, n, hi, hn, -⟩ := replace_eq_ok_iff.mp ho
  obtain ⟨c, s, hs, rfl⟩ := ht.exists_place (ht.locate hi)
  obtain ⟨root, hroot, -⟩ := Option.bind_eq_some_iff.mp hn
  obtain ⟨b, hb, -⟩ := hr.exists_branch hroot
  exact ⟨c, s, b, hs, hb, Except.ok.inj (ho.symm.trans (hb.replace_eq hi))⟩

theorem replace (ht : t.Sound next) (hr : r.Sound next) {outcome : Replacement}
    (ho : t.replace candidate r next = .ok outcome) :
    outcome.removed.Sound next ∧ outcome.result.Sound (next.shift outcome.added) := by
  obtain ⟨c, s, b, hs, hb, rfl⟩ := ht.exists_of_replace hr ho
  exact ⟨(ht.detach hs.contains_id).1, ht.planted hr hs hb⟩

/-- A tree that is not empty spells a branch. -/
theorem exists_branch_of_not_isEmpty (h : t.Sound next) (hne : t.isEmpty = false) :
    ∃ b : Branch, t.Spells [b] := by
  obtain ⟨bs, hs⟩ := h.spells
  cases hr : t.root with
  | some r =>
    obtain ⟨b, rfl, -⟩ := hs.eq_singleton hr
    exact ⟨b, hs⟩
  | none =>
    have hempty := hs.isEmpty_iff.mpr (hs.root_eq_none_iff.mp hr)
    rw [hne] at hempty
    cases hempty

/-- **Replacing the counterpart of a candidate** by a tree that is not empty succeeds, and what it
leaves behind is told by the place of the counterpart. -/
theorem exists_replace (ht : t.Sound next) (hr : r.Sound next) {n : Node}
    (hn : t.counterpart? candidate = some n) (hne : r.isEmpty = false) :
    ∃ (c : Place) (s b : Branch), t.Spells (c.plug [s]) ∧ n = s.bottom c.parent ∧ r.Spells [b] ∧
      t.replace candidate r next = .ok ⟨s.id, (t.detach s.id).removed, b.size,
        t.planted s.id (r.copySubtree b.id next)⟩ := by
  obtain ⟨bs, hs⟩ := ht.spells
  obtain ⟨b, hb⟩ := hr.exists_branch_of_not_isEmpty hne
  obtain ⟨c, s, rfl, rfl⟩ := hs.exists_plug_eq (hs.counterpart?_eq_some_iff.mp hn).1
  exact ⟨c, s, b, hs, rfl, hb, hb.replace_eq (hs.locate_eq_ok_iff.mpr ⟨_, hn, rfl⟩)⟩

end Sound

end Tree

end SyntaxTree
