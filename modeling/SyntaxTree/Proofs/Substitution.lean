/-
SyntaxTree/Proofs/Substitution.lean

Replacement is substitution.  Read as branches, the tree after `replace` is the tree before
with one branch substituted for another, and `Substituted` says all that is to be said
about it: which branch is put in (`shape_eq`, `ids_eq`, `origins_eq`), where it stands
(`branch_eq`, `place_eq`, `root_eq`), and what the registry lists, node by node and in
order (`nodeList_eq`).

Nothing is supposed of how the tree, the candidate and the replacement are related: the
replacement may have been copied out of the tree, from within the subtree that is replaced
or from around it.
-/
import SyntaxTree.Proofs.Provenance

namespace SyntaxTree

open Branch

namespace Tree

/-- The nodes of a tree that are not in the subtree at `i`, in order of arrival. -/
def outside (t : Tree) (i : NodeId) : List Node :=
  t.nodeList.filter fun n => !(t.preOrderFrom i).contains n.id

/-- The nodes of a tree in pre-order. -/
def preOrderNodes (t : Tree) : List Node := t.preOrder.filterMap t.node?

/-- The branch `g`, a copy of `r` numbered from `next` on, has been put into `t` in the place of the
subtree at `x`. -/
structure Substituted (t : Tree) (x : Node) (r : Tree) (next : NodeId) (g : Branch)
    (out : Replacement) : Prop where
  target_eq : out.target = x.id
  added_eq : out.added = r.size
  /-- What is put in has the rules and labels of the replacement, -/
  shape_eq : r.branch?.map Branch.shape = some g.shape
  /-- the next free identities, in pre-order, -/
  ids_eq : g.ids = next.block r.size
  /-- and origins that are kept unless a survivor carries them. -/
  origins_eq : g.buds.map Bud.origin =
    List.zipWith (fun o i => if o ∈ (t.outside x.id).map Node.origin then i else o)
      (r.preOrderNodes.map Node.origin) (next.block r.size)
  /-- As a branch, the tree is the old one with `g` substituted for the branch at `x`. -/
  branch_eq : out.result.branch? =
    t.branch?.map (Branch.substitute fun i => if i = x.id then some g else none)
  /-- The new branch stands where the old one stood. -/
  place_eq : out.result.placeOf next = t.placeOf x.id
  root_eq : out.result.root = if x.parent = none then some next else t.root
  /-- The survivors come first, as they were but for one entry; then comes the new branch. -/
  nodeList_eq : out.result.nodeList =
    (t.outside x.id).map (Node.relink x.parent (NodeId.overwrite x.id next)) ++ g.nodes x.parent
  name_eq : out.result.name = t.name
  size_eq : out.result.size + (t.preOrderFrom x.id).length = t.size + r.size

variable {t r : Tree} {c : Place} {s b : Branch} {next : NodeId}

theorem Spells.outside_id (h : t.Spells (c.plug [s])) : t.outside s.id = t.survivors s := by
  rw [outside, h.preOrderFrom_id, survivors]

theorem Spells.preOrderNodes_eq (h : t.Spells [b]) : t.preOrderNodes = b.nodes none := by
  rw [preOrderNodes, h.preOrder_eq, List.flatMap_singleton, ← map_id_nodes none,
    List.filterMap_map]
  apply filterMap_eq_self
  intro n hn
  exact h.toCoherent.node?_id (h.atTop.mem_nodeList hn)

theorem Spells.length_survivors (h : t.Spells (c.plug [s])) :
    (t.survivors s).length + s.size = t.size := by
  rw [size_eq_length, h.perm.length_eq, h.perm_survivors.length_eq, Place.grove_plug,
    grove_singleton, List.length_append, List.length_append, List.length_append, length_nodes,
    List.map_singleton]
  omega

/-- The origins of a grafted copy, by those of the branch that was copied. -/
theorem map_origin_graft (hnd : b.ids.Nodup) :
    (t.graft s (b.copied next)).buds.map Bud.origin =
      List.zipWith (fun o i => if o ∈ (t.survivors s).map Node.origin then i else o)
        (b.buds.map Bud.origin) (next.block b.size) := by
  rw [← map_origin_copied next b, ← ids_copied next hnd, ids, List.zipWith_map, List.zipWith_self,
    graft, buds_map, List.map_map]
  exact List.map_congr_left fun v _ => v.origin_settle _

/-- Substituting for the branch at a place is filling the place anew. -/
theorem Spells.map_substitute (h : t.Spells (c.plug [s])) (g : Branch) :
    (c.plug [s]).map (substitute fun i => if i = s.id then some g else none) = c.plug [g] := by
  -- around the place there is no node with the identity of `s`
  have hout : ∀ n ∈ c.before [s.id] ++ c.after,
      (if n.id = s.id then some g else none) = none := by
    intro n hn
    apply if_neg
    intro e
    have hmem := h.perm_survivors.mem_iff.mpr hn
    have hnot := (List.mem_filter.mp hmem).2
    rw [e] at hnot
    simp [s.id_mem_ids] at hnot
  have hin : s.substitute (fun i => if i = s.id then some g else none) = g := by
    obtain ⟨v, bs⟩ := s
    rw [substitute_grow, show (grow v bs).id = v.id from rfl, if_pos rfl, Option.getD_some]
  rw [Place.map_substitute_plug hout, List.map_singleton, hin]

/-- The root moves only if it is replaced itself. -/
theorem root_plug (h : t.Spells (c.plug [s])) (g : Branch) :
    (c.plug [g]).head?.map Branch.id = if c.parent = none then some g.id else t.root := by
  cases c with
  | top => rfl
  | on v l r up =>
    rw [Place.head?_plug_on v l r up [g] [s], h.root_eq]
    rfl

/-- **Replacing is substituting**, at the place of the counterpart. -/
theorem Sound.substituted (ht : t.Sound next) (hr : r.Sound next) {candidate : Tree} {x : Node}
    (hx : t.counterpart? candidate = some x) (hne : r.isEmpty = false) :
    ∃ out g, t.replace candidate r next = .ok out ∧ t.Substituted x r next g out := by
  obtain ⟨c, s, b, hs, rfl, hb, hreplace⟩ := ht.exists_replace hr hx hne
  have hq := ht.scion hr hb
  have hplanted := hq.spells_planted hs
  have hid : (t.graft s (b.copied next)).id = next := by rw [id_graft, id_copied]
  refine ⟨_, t.graft s (b.copied next), hreplace, rfl, hb.size_eq.symm, ?_, ?_, ?_, ?_, ?_, ?_, ?_,
    ?_, ?_⟩
  · rw [hb.branch?_eq, shape_graft, shape_copied]; rfl
  · rw [hb.ids_graft_copied, hb.size_eq]
  · show _ = List.zipWith (fun o i => if o ∈ (t.outside s.id).map Node.origin then i else o) _ _
    rw [hs.outside_id, hb.preOrderNodes_eq, map_origin_nodes, hb.size_eq]
    exact map_origin_graft hb.atTop.nodup_ids_branch
  · show (t.planted s.id _).branch? =
      t.branch?.map (substitute fun i => if i = s.id then some _ else none)
    rw [hplanted.branch?_eq, hs.branch?_eq, ← List.head?_map, hs.map_substitute]
  · show (t.planted s.id _).placeOf next = t.placeOf s.id
    rw [hs.placeOf_id, ← hplanted.placeOf_id, hid]
  · show (t.planted s.id _).root = if c.parent = none then some next else t.root
    rw [hplanted.root_eq, root_plug hs, hid]
  · show (t.planted s.id _).nodeList = (t.outside s.id).map
      (Node.relink c.parent (NodeId.overwrite s.id next)) ++ _
    rw [hq.nodeList_planted hs, plantedNodes, hs.outside_id, hid]
    rfl
  · show (t.planted s.id _).name = t.name
    rw [hq.planted_eq hs]; rfl
  · show (t.planted s.id _).size + (t.preOrderFrom s.id).length = t.size + r.size
    have hg : (t.graft s (b.copied next)).size = b.size := by
      rw [Branch.size, ids_graft]
      exact size_copied next b
    have hs' : s.ids.length = s.size := rfl
    rw [size_eq_length, hq.nodeList_planted hs, plantedNodes, List.length_append, List.length_map,
      length_nodes, hg, hs.preOrderFrom_id, hb.size_eq, ← hs.length_survivors, hs']
    omega

end Tree

namespace Workshop

open SyntaxTree.Tree

/-- **Replacement is substitution**, in every run: wherever a candidate has a counterpart in a tree,
any tree of the run that is not empty can be put in its place, and it is put there as a branch
is substituted. -/
theorem run_replace (jobs : List Job) {t r : Tree} (ht : t ∈ (run jobs).trees)
    (hr : r ∈ (run jobs).trees) (hne : r.isEmpty = false) {candidate : Tree} {x : Node}
    (hx : t.counterpart? candidate = some x) :
    ∃ out g, t.replace candidate r (run jobs).forest.next = .ok out ∧
      t.Substituted x r (run jobs).forest.next g out :=
  ((sound_run jobs).tree ht).substituted ((sound_run jobs).tree hr) hx hne

/-- After the errands, a copy of the sum as it was first can be put in the place of the part that
was found first, which by then is itself a node of a copy. -/
theorem replace_errands : ∃ t r part x, (run errands).forest.tree? "sum" = some t ∧
    (run errands).forest.tree? "copy" = some r ∧ t.counterpart? part = some x ∧
    r.isEmpty = false ∧
    ∃ out g, t.replace part r (run errands).forest.next = .ok out ∧
      t.Substituted x r (run errands).forest.next g out := by
  have hfull : ((run errands).forest.tree? "sum").bind (fun t =>
      ((run errands).forest.tree? "part0").bind fun part => (t.counterpart? part).bind fun _ =>
        ((run errands).forest.tree? "copy").map isEmpty) = some false := by decide
  obtain ⟨t, ht, hfull⟩ := Option.bind_eq_some_iff.mp hfull
  obtain ⟨part, -, hfull⟩ := Option.bind_eq_some_iff.mp hfull
  obtain ⟨x, hx, hfull⟩ := Option.bind_eq_some_iff.mp hfull
  obtain ⟨r, hr, hne⟩ := Option.map_eq_some_iff.mp hfull
  exact ⟨t, r, part, x, ht, hr, hx, hne,
    run_replace errands (mem_trees_of_tree? ht) (mem_trees_of_tree? hr) hne hx⟩

end Workshop

end SyntaxTree
