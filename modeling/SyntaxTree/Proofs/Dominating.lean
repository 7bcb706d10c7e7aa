/-
SyntaxTree/Proofs/Dominating.lean

What the outermost search finds, told from its results.  Every tree that is found has a
source, the live node it is recognised for.  The sources of the outermost search are the
topmost nodes that pass the test, in order of arrival (`Topmost`): however deep the nodes
that pass are nested, and whatever stands between them, each of them stands at exactly one
of the sources or below it.

That there is a topmost one is shown by climbing (`exists_mem_outermost`).  That there is only
one follows from the way up being the only one: of two nodes above a third, one is above
the other.
-/
import SyntaxTree.Proofs.Outermost
import SyntaxTree.Proofs.Replica

namespace SyntaxTree

open Branch Relation

namespace Tree

/-- The live nodes that some trees are recognised for, in the order of the trees. -/
def sources (t : Tree) (us : List Tree) : List NodeId :=
  us.filterMap fun u => (t.counterpart? u).map Node.id

/-- The nodes are the topmost ones that pass the test, in order of arrival. -/
structure Topmost (t : Tree) (test : Node → Bool) (is : List NodeId) : Prop where
  arrival : is.Sublist t.nodeIds
  mem_iff : ∀ i, i ∈ is ↔
    t.passes test i = true ∧ ∀ j, TransGen t.Child j i → t.passes test j = false
  antichain : ∀ i ∈ is, ∀ j ∈ is, ¬ TransGen t.Child i j
  covering : ∀ i, t.passes test i = true → ∃! j, j ∈ is ∧ ReflTransGen t.Child j i

variable {t u : Tree} {test : Node → Bool} {next i j k : NodeId} {starts : List NodeId}

/-! ### Sources -/

namespace Sound

/-- A copy is a replica of the subtree it was taken from, and is recognised for its node. -/
theorem replica_of_isCopyAt (h : t.Sound next) (hi : t.contains i = true) (hu : t.IsCopyAt i u) :
    (t.counterpart? u).map Node.id = some i ∧ ∃ f, t.Replica i f u := by
  obtain ⟨c, s, hs, rfl⟩ := h.exists_place hi
  have horigin := hu.candidateOrigin_eq hs
  obtain ⟨free, rfl⟩ := hu
  rw [hs.counterpart?_bottom horigin]
  exact ⟨rfl, _, hs.replica_copySubtree free⟩

theorem forall₂_replica (h : t.Sound next) (hstarts : ∀ i ∈ starts, t.contains i = true)
    (free : NodeId) : List.Forall₂ (fun i u => (t.counterpart? u).map Node.id = some i ∧
      ∃ f, t.Replica i f u) starts (t.copyEach starts free).1 := by
  have hcopies := (List.forall₂_and_left _ _).mpr ⟨hstarts, forall₂_copyEach (t := t) starts free⟩
  exact hcopies.imp fun i u hcopy => h.replica_of_isCopyAt hcopy.1 hcopy.2

end Sound

theorem sources_eq {us : List Tree} {P : NodeId → Tree → Prop}
    (h : List.Forall₂ (fun i u => (t.counterpart? u).map Node.id = some i ∧ P i u) starts us) :
    t.sources us = starts := by
  induction h with
  | nil => rfl
  | cons hu _ ih =>
    rw [sources, List.filterMap_cons, hu.1]
    exact congrArg _ ih

/-! ### Topmost nodes -/

/-- Of two nodes above a third, or at it, one is above the other. -/
theorem Spells.comparable {bs : List Branch} (h : t.Spells bs) (hi : ReflTransGen t.Child i k)
    (hj : ReflTransGen t.Child j k) : ReflTransGen t.Child i j ∨ ReflTransGen t.Child j i := by
  have hparent : Relator.RightUnique (Function.swap t.Child) := fun _ _ _ hp hq =>
    h.child_unique hp hq
  have hup := ReflTransGen.total_of_right_unique hparent (reflTransGen_swap.mpr hi)
    (reflTransGen_swap.mpr hj)
  exact hup.symm.imp reflTransGen_swap.mp reflTransGen_swap.mp

/-- **The outermost matches are topmost.** -/
theorem Sound.topmost_outermost (h : t.Sound next) (test : Node → Bool) :
    t.Topmost test (t.outermost test) := by
  obtain ⟨bs, hs⟩ := h.spells
  constructor
  case arrival =>
    rw [hs.nodeIds_eq]
    exact List.filter_sublist.trans (List.filter_sublist.map Node.id)
  case mem_iff =>
    intro i
    rw [h.mem_outermost_iff]
    refine and_congr_right fun _ => forall_congr' fun j => ?_
    rw [← Bool.not_eq_true, imp_not_comm]
  case antichain =>
    intro i hi j hj hij
    exact (h.mem_outermost_iff.mp hj).2 i (h.mem_outermost_iff.mp hi).1 hij
  case covering =>
    intro i hi
    obtain ⟨j, hj, hji⟩ := (h.covered_iff (contains_of_passes hi)).mp ⟨i, hi, .refl⟩
    refine ⟨j, ⟨hj, hji⟩, fun k ⟨hk, hki⟩ => ?_⟩
    -- of two that are above `i` one would be above the other
    rcases hs.comparable hki hji with hkj | hjk
    · exact h.eq_of_mem_outermost hk hj hkj
    · exact (h.eq_of_mem_outermost hj hk hjk).symm

theorem Sound.outermost_eq_nil_iff (h : t.Sound next) :
    t.outermost test = [] ↔ t.matching test = [] := by
  obtain ⟨bs, hs⟩ := h.spells
  constructor
  · intro hnone
    rw [List.eq_nil_iff_forall_not_mem]
    intro i hi
    -- a match would stand below a topmost one
    obtain ⟨j, ⟨hj, -⟩, -⟩ := (h.topmost_outermost test).covering i (hs.mem_matching_iff.mp hi)
    rw [hnone] at hj
    cases hj
  · intro hnone
    rw [outermost, hnone]
    rfl

end Tree

namespace Workshop

open SyntaxTree.Tree

/-- **The outermost search finds the topmost matches**, in every run: its results are copies of the
subtrees at the topmost nodes that pass the test, in order of arrival, each recognised for its
node. They are among the matches, and there are none only if nothing passes. -/
theorem run_dominates (jobs : List Job) {t : Tree} (ht : t ∈ (run jobs).trees) (test : Node → Bool)
    (next free : NodeId) :
    let found := (t.findOutermost test next).1
    t.Topmost test (t.sources found) ∧
      (t.sources found).Sublist (t.sources (t.findAll test free).1) ∧
      (t.sources found = [] ↔ t.sources (t.findAll test free).1 = []) ∧
      List.Forall₂ (fun i u => (t.counterpart? u).map Node.id = some i ∧ ∃ f, t.Replica i f u)
        (t.sources found) found := by
  have h := (sound_run jobs).tree ht
  obtain ⟨bs, hs⟩ := h.spells
  have hlive : ∀ i ∈ t.outermost test, t.contains i = true := fun i => h.contains_of_mem_outermost
  have hfound := h.forall₂_replica hlive next
  have hall := h.forall₂_replica (fun i => hs.contains_of_mem_matching (p := test)) free
  intro found
  rw [show t.sources found = _ from sources_eq hfound,
    show t.sources (t.findAll test free).1 = _ from sources_eq hall]
  exact ⟨h.topmost_outermost test, List.filter_sublist, h.outermost_eq_nil_iff, hfound⟩

/-- After fifteen of the errands a copy of the sum stands within the sum. The search for sums finds
both, the outermost search only the one above. -/
theorem dominates_errands :
    let test : Node → Bool := fun n => n.rule = "sum"
    ∃ t, (run (errands.take 15)).forest.tree? "sum" = some t ∧
      (t.findAll test (run (errands.take 15)).forest.next).1.length = 2 ∧
      (t.findOutermost test (run (errands.take 15)).forest.next).1.length = 1 ∧
      t.Topmost test
        (t.sources (t.findOutermost test (run (errands.take 15)).forest.next).1) := by
  intro test
  have hfound : ((run (errands.take 15)).forest.tree? "sum").map (fun t => decide (
      (t.findAll test (run (errands.take 15)).forest.next).1.length = 2 ∧
      (t.findOutermost test (run (errands.take 15)).forest.next).1.length = 1)) = some true := by
    decide
  obtain ⟨t, ht, hfound⟩ := Option.map_eq_some_iff.mp hfound
  obtain ⟨hall, houtermost⟩ := of_decide_eq_true hfound
  have htrees : t ∈ (run (errands.take 15)).trees := mem_trees_of_tree? ht
  exact ⟨t, ht, hall, houtermost, (run_dominates (errands.take 15) htrees test _ ⟨1⟩).1⟩

end Workshop

end SyntaxTree
