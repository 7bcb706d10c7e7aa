/-
SyntaxTree/Proofs/Pruning.lean

Removing all outermost matches.  Every removal takes out the nodes of one branch, so removals one after
another take out the nodes of all these branches, and in whatever order they are made, the same
tree is left: the tree without the nodes that are covered (`Tree.pruned`).
-/
import Mathlib.Algebra.GroupWithZero.Nat
import SyntaxTree.Proofs.Outermost
import SyntaxTree.Proofs.Script
import SyntaxTree.Proofs.Without

namespace SyntaxTree

open Branch Relation

namespace Tree

/-- A tree without the nodes that pass the test and all below them. -/
def pruned (t : Tree) (test : Node → Bool) : Tree := t.without (t.covers test)

variable {t u d : Tree} {test : Node → Bool} {c c' : Place} {s : Branch} {next first i j : NodeId}
  {ds : List Tree}

/-! ### Isomorphic trees -/

/-- The trees have the same nodes with the same relatives, under identities that correspond by
`f`. -/
structure IsomorphicBy (f : NodeId → NodeId) (t u : Tree) : Prop where
  bijOn : Set.BijOn f {i | t.contains i = true} {i | u.contains i = true}
  root_eq : u.root = t.root.map f
  node : ∀ n ∈ t.nodeList, ∃ m, u.node? (f n.id) = some m ∧ m.rule = n.rule ∧ m.label = n.label ∧
    m.origin = n.origin ∧ m.parent = n.parent.map f ∧ m.children = n.children.map f

/-- The trees are the same but for the identities of their nodes. -/
def Isomorphic (t u : Tree) : Prop := ∃ f, t.IsomorphicBy f u

/-- Twins without new nodes are isomorphic. -/
theorem TwinsBy.isomorphicBy {f : NodeId → NodeId} (h : t.TwinsBy next f u) (ht : t.Sound next) :
    t.IsomorphicBy f u := by
  refine ⟨h.bijOn, h.root_eq, fun n hn => ?_⟩
  obtain ⟨m, hm, hrule, hlabel, hparent, hchildren, horigin⟩ := h.node n hn
  refine ⟨m, hm, hrule, hlabel, ?_, hparent, hchildren⟩
  exact horigin.resolve_right fun hnew => NodeId.not_lt_of_le hnew.2.2.1 (ht.used n hn).1

/-- What is cut out of a tree is isomorphic to a copy of it. -/
theorem Upcoming.isomorphic_removed (h : t.Upcoming u c c' s d) (hu : u.Sound next) :
    (u.detach s.id).removed.Isomorphic d := by
  obtain ⟨k, rfl⟩ := h.copy
  have hremoved := (hu.detach h.now.contains_id).1
  have hold : ∀ v ∈ s.buds, v.id < next := fun v hv =>
    hremoved.lt_of_mem_buds h.now.spells_removed (by rwa [List.flatMap_singleton])
  have htwin : s.map (Bud.twin next (s.copiedId k)) = s.copied k :=
    map_congr fun v hv => Bud.twin_of_lt (hold v hv)
  have hpaired : Paired next (s.copiedId k) [s] (u.detach s.id).removed (t.copySubtree s.id k) := by
    refine ⟨h.now.spells_removed, ?_, fun v hv hle => ?_⟩
    · rw [List.map_singleton, htwin]
      exact h.before.copySubtree k
    · rw [List.flatMap_singleton] at hv
      exact absurd (hold v hv) (NodeId.not_lt_of_le hle)
  exact ⟨_, hpaired.twinsBy.isomorphicBy hremoved⟩

/-! ### All removals -/

/-- Part of the way. The matches of which `left` are copies are still to be removed, and the others
are gone with all below them. -/
structure Thinned (t : Tree) (test : Node → Bool) (ds left : List Tree) (next : NodeId) (u : Tree) :
    Prop where
  pending : ∃ js, t.Pending test (· = []) js left u ∧ u = t.without fun i =>
    (t.outermost test).any fun j => !js.contains j && (t.preOrderFrom j).contains i
  sound : u.Sound next
  size_eq : u.size + (ds.map size).sum = t.size + (left.map size).sum

theorem any_cons_done {l js : List NodeId} {j : NodeId} (hj : j ∈ l) (hjs : j ∉ js)
    (f : NodeId → Bool) : (l.any fun k => !js.contains k && f k)
      = ((l.any fun k => !(j :: js).contains k && f k) || f j) := by
  rw [Bool.eq_iff_iff]
  simp only [List.any_eq_true, Bool.or_eq_true, Bool.and_eq_true, Bool.not_eq_true',
    List.contains_eq_mem, decide_eq_false_iff_not, List.mem_cons, not_or]
  constructor
  · rintro ⟨k, hk, hdone, hf⟩
    rcases eq_or_ne k j with rfl | hne
    · exact Or.inr hf
    · exact Or.inl ⟨k, hk, ⟨hne, hdone⟩, hf⟩
  · rintro (⟨k, hk, ⟨-, hdone⟩, hf⟩ | hf)
    · exact ⟨k, hk, hdone, hf⟩
    · exact ⟨j, hj, hjs, hf⟩

/-- **One removal** goes one match further. -/
theorem Thinned.edit {left : List Tree} (ht : t.Sound first)
    (h : t.Thinned test ds (d :: left) next u) :
    (∃ piece : Tree, (u.edit next (.remove d)).answer = .ok (some piece) ∧ piece.Isomorphic d ∧
        piece.size = d.size) ∧
      t.Thinned test ds left (u.edit next (.remove d)).next (u.edit next (.remove d)).tree := by
  obtain ⟨js, hpending, hgone⟩ := h.pending
  obtain ⟨c, c', s, js, rfl, hup, hnext⟩ := hpending.upcoming ht
  have hfound := hpending.subset List.mem_cons_self
  have hdone := (List.nodup_cons.mp hpending.nodup).1
  have hrest := hup.now.spells_rest
  have hsize := h.size_eq
  have hbefore := hup.now.size_plug
  have hafter := hrest.size_plug
  have hd := hup.copy.size_eq hup.before
  have hpiece : (u.detach s.id).removed.size = s.size := hup.now.spells_removed.size_eq
  rw [List.flatMap_singleton] at hbefore
  rw [List.map_cons, List.sum_cons] at hsize
  rw [List.flatMap_nil, List.length_nil] at hafter
  change u.size = c'.buds.length + s.size at hbefore
  rw [edit_remove hup.locate_eq]
  refine ⟨⟨_, rfl, hup.isomorphic_removed h.sound, hpiece.trans hd.symm⟩,
    ⟨js, ?_⟩, (h.sound.detach hup.now.contains_id).2, ?_⟩
  · refine ⟨hnext rfl hrest, ?_⟩
    subst hgone
    refine (hup.before.rest_without hup.now hup.parent_eq).trans (congrArg t.without (funext fun i => ?_))
    rw [any_cons_done hfound hdone, hup.before.preOrderFrom_id]
  · show (u.detach s.id).rest.size + _ = _
    omega

/-- When nothing is left to be removed, the covered nodes are gone. -/
theorem Sound.pruned_eq (ht : t.Sound next) :
    t.pruned test
      = t.without fun i => (t.outermost test).any fun j => (t.preOrderFrom j).contains i := by
  obtain ⟨bs, hs⟩ := ht.spells
  refine hs.without_congr fun i hi => ?_
  rw [Bool.eq_iff_iff, ht.covers_iff hi, ht.covered_iff hi, List.any_eq_true]
  refine exists_congr fun j => and_congr_right fun hj => ?_
  obtain ⟨c, s, hs, rfl⟩ := ht.exists_place (ht.contains_of_mem_outermost hj)
  rw [hs.reflTransGen_child_iff, hs.preOrderFrom_id, List.contains_iff_mem]

/-- The pieces that removals one after another have cut out. -/
theorem exists_pieces {es : List Edited} (h : List.Forall₂ (fun d e => ∃ piece : Tree,
      e.answer = .ok (some piece) ∧ piece.Isomorphic d ∧ piece.size = d.size) ds es) :
    ∃ pieces : List Tree, es.map Edited.answer = pieces.map (fun piece => .ok (some piece)) ∧
      List.Forall₂ Isomorphic pieces ds ∧ (pieces.map size).sum = (ds.map size).sum := by
  induction h with
  | nil => exact ⟨[], rfl, .nil, rfl⟩
  | cons hd _ ih =>
    obtain ⟨piece, hanswer, hiso, hsize⟩ := hd
    obtain ⟨pieces, hanswers, hisos, hsizes⟩ := ih
    refine ⟨piece :: pieces, ?_, .cons hiso hisos, ?_⟩
    · rw [List.map_cons, List.map_cons, hanswer, hanswers]
    · rw [List.map_cons, List.map_cons, List.sum_cons, List.sum_cons, hsize, hsizes]

/-- **Removing all outermost matches** leaves the tree without the covered nodes, whatever the
order. -/
theorem Sound.pruned (ht : t.Sound next) (hds : ds.Perm (t.findOutermost test first).1)
    {script : List (Nat × Edit)} (hscript : script.map Prod.snd = ds.map Edit.remove) :
    t.edited next script = t.pruned test ∧ ∃ pieces : List Tree,
      (t.edits next script).map Edited.answer = pieces.map (fun piece => .ok (some piece)) ∧
      List.Forall₂ Isomorphic pieces ds ∧
      (t.pruned test).size + (pieces.map size).sum = t.size := by
  have hidle : ∀ {left next u} (k : Nat), t.Thinned test ds left next u →
      t.Thinned test ds left (next.shift k) u := fun k h =>
    ⟨h.pending, h.sound.mono (NodeId.le_shift _ k), h.size_eq⟩
  obtain ⟨js, hjs, hstart⟩ := Pending.start ht hds
  obtain ⟨bs, hs, -⟩ := hstart.exchanged
  have hself : t = t.without fun i =>
      (t.outermost test).any fun j => !js.contains j && (t.preOrderFrom j).contains i := by
    refine hs.toCoherent.without_eq_self.symm.trans (congrArg t.without (funext fun i => ?_))
    rw [eq_comm, List.any_eq_false]
    intro j hj
    simp [hjs.mem_iff.mpr hj]
  obtain ⟨hanswers, next', hlast⟩ := edits_workOff (I := t.Thinned test ds)
    (A := fun d e => ∃ piece : Tree, e.answer = .ok (some piece) ∧ piece.Isomorphic d ∧
      piece.size = d.size) hidle (·.edit ht) ⟨⟨js, hstart, hself⟩, ht, rfl⟩ hscript
  obtain ⟨js, hpending, hpruned⟩ := hlast.pending
  obtain rfl := List.forall₂_nil_right_iff.mp hpending.copies
  have hlast' : t.edited next script = t.pruned test := hpruned.trans (by simp [ht.pruned_eq])
  obtain ⟨pieces, hpieces, hisos, hsizes⟩ := exists_pieces hanswers
  refine ⟨hlast', pieces, hpieces, hisos, ?_⟩
  rw [hsizes, ← hlast']
  exact hlast.size_eq

end Tree

namespace Workshop

open SyntaxTree.Tree

variable {t : Tree}

/-- **Removing all outermost matches prunes the tree**, in every run. -/
theorem run_prunes (jobs : List Job) (ht : t ∈ (run jobs).trees) (p : Bud → Bool) (first : NodeId) :
    let test : Node → Bool := fun n => p n.bud
    (∀ i, (t.pruned test).contains i = true ↔ t.contains i = true ∧ ¬ t.Covered test i) ∧
      (∀ n ∈ (t.pruned test).nodeList, p n.bud = false) ∧
      ∀ ds script, ds.Perm (t.findOutermost test first).1 →
        script.map Prod.snd = ds.map Edit.remove →
        t.edited (run jobs).forest.next script = t.pruned test ∧ ∃ pieces : List Tree,
          (t.edits (run jobs).forest.next script).map Edited.answer
            = pieces.map (fun piece => .ok (some piece)) ∧
          List.Forall₂ Isomorphic pieces ds ∧
          (t.pruned test).size + (pieces.map Tree.size).sum = t.size := by
  intro test
  have hsound := (sound_run jobs).tree ht
  obtain ⟨bs, hs⟩ := hsound.spells
  refine ⟨fun i => ?_, ?_, fun ds script hds hscript => hsound.pruned hds hscript⟩
  · rw [Tree.pruned, contains_without hs.toCoherent]
    exact and_congr_right fun hi => by rw [← hsound.covers_iff hi, Bool.not_eq_true]
  · intro n hn
    rw [Tree.pruned, nodeList_without] at hn
    obtain ⟨m, hm, rfl⟩ := List.mem_map.mp hn
    obtain ⟨hm, hleft⟩ := List.mem_filter.mp hm
    rw [Bool.not_eq_true', covers, List.any_cons, Bool.or_eq_false_iff, passes,
      hs.toCoherent.node?_id hm] at hleft
    exact hleft.1

/-- Both numbers can be removed from the sum of the errands, the second one first, and its root is
left. -/
theorem prunes_errands : ∃ t ds script, (run (errands.take 14)).forest.tree? "sum" = some t ∧
    ds = (t.findOutermost (fun n => n.bud.rule = "number")
      (run (errands.take 14)).forest.next).1.reverse ∧
    script = ds.map (fun d => (0, Edit.remove d)) ∧
    (ds.length, (t.pruned fun n => n.bud.rule = "number").size) = (2, 1) ∧
    t.edited (run (errands.take 14)).forest.next script = t.pruned (fun n => n.bud.rule = "number") ∧
    ∃ pieces : List Tree,
      (t.edits (run (errands.take 14)).forest.next script).map Edited.answer
        = pieces.map (fun piece => .ok (some piece)) ∧
      List.Forall₂ Isomorphic pieces ds ∧
      (t.pruned fun n => n.bud.rule = "number").size + (pieces.map Tree.size).sum = t.size := by
  let next := (run (errands.take 14)).forest.next
  let found := fun t : Tree => (t.findOutermost (fun n => n.bud.rule = "number") next).1.reverse
  have hsizes : ((run (errands.take 14)).forest.tree? "sum").map (fun t =>
      ((found t).length, (t.pruned fun n => n.bud.rule = "number").size)) = some (2, 1) := by decide
  obtain ⟨t, ht, hsizes⟩ := Option.map_eq_some_iff.mp hsizes
  refine ⟨t, found t, _, ht, rfl, rfl, hsizes, ?_⟩
  exact (run_prunes (errands.take 14) (mem_trees_of_tree? ht) (fun v => v.rule = "number") next).2.2
    (found t) _ (List.reverse_perm _) (by rw [List.map_map]; rfl)

end Workshop

end SyntaxTree
