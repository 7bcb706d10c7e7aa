/-
SyntaxTree/Proofs/Copying.lean

What a copy is, and what it costs.  A copy of the subtree at a node is a replica of it whose
registry is the pre-order of the subtree, carried over to the identities that are next
(`CopiedFrom`).  It uses up one identity for each of its nodes and no other.

A search copies the subtrees it has found in turn, each from where the one before has left
off (`InTurn`).  Subtrees that lie within each other are copied once for each, and no two
copies have a node in common.
-/
import Mathlib.Algebra.GroupWithZero.Nat
import SyntaxTree.Proofs.Dominating
import SyntaxTree.Proofs.Transcript

namespace SyntaxTree

open Branch Relation

namespace Tree

/-- The number of nodes of the subtree at a node. -/
def extent (t : Tree) (i : NodeId) : Nat := (t.preOrderFrom i).length

/-- The tree `u` is a copy of the subtree of `t` at `i`, numbered from `next` on. -/
structure CopiedFrom (t : Tree) (i next : NodeId) (u : Tree) : Prop where
  /-- The order of the walk is the pre-order of the subtree, -/
  preOrder_eq : (t.branchAt? i).map Branch.ids = some (t.preOrderFrom i)
  mem_preOrder : ∀ j, j ∈ t.preOrderFrom i ↔ ReflTransGen t.Child i j
  /-- and in this order its nodes get the identities that are next. -/
  nodeIds_eq : u.nodeIds = next.block (t.extent i)
  exists_replica : ∃ f, (t.preOrderFrom i).map f = u.nodeIds ∧ t.Replica i f u
  root_eq : u.root = some next
  size_eq : u.size = t.extent i
  name_eq : u.name = none

/-- The trees are copies of the subtrees at some nodes, each numbered from the identity on that the
one before has left unused; the last leaves `free` unused. -/
inductive InTurn (t : Tree) : List NodeId → NodeId → List Tree → NodeId → Prop
  | nil {next : NodeId} : InTurn t [] next [] next
  | cons {i next free : NodeId} {is : List NodeId} {u : Tree} {us : List Tree}
      (copy : t.CopiedFrom i next u) (rest : InTurn t is (next.shift (t.extent i)) us free) :
      InTurn t (i :: is) next (u :: us) free

variable {t u : Tree} {c : Place} {s : Branch} {next free i : NodeId} {is : List NodeId}
  {us : List Tree}

/-! ### One copy -/

/-- **A copy of a subtree** is numbered along the pre-order. -/
theorem Spells.copiedFrom (h : t.Spells (c.plug [s])) (next : NodeId) :
    t.CopiedFrom s.id next (t.copySubtree s.id next) := by
  have hextent : t.extent s.id = s.size := by
    rw [extent, h.preOrderFrom_id]
    rfl
  have hnumbered : s.ids.map (s.copiedId next) = next.block s.size :=
    NodeId.map_shift_idxOf h.nodup_ids_branch next
  constructor
  case preOrder_eq =>
    rw [h.branchAt?_id, h.preOrderFrom_id]
    rfl
  case mem_preOrder =>
    intro j
    rw [h.preOrderFrom_id, h.reflTransGen_child_iff]
  case nodeIds_eq => rw [h.nodeIds_copySubtree, hextent]
  case exists_replica =>
    refine ⟨s.copiedId next, ?_, h.replica_copySubtree next⟩
    rw [h.preOrderFrom_id, hnumbered, h.nodeIds_copySubtree]
  case root_eq => rw [(h.copySubtree next).root_eq, List.head?_cons, Option.map_some, id_copied]
  case size_eq => rw [h.size_copySubtree, hextent]
  case name_eq =>
    rw [h.bears.copySubtree_eq h.nodup_ids_branch]
    rfl

theorem Sound.copiedFrom {old : NodeId} (h : t.Sound old) (hi : t.contains i = true)
    (next : NodeId) : t.CopiedFrom i next (t.copySubtree i next) := by
  obtain ⟨c, s, hs, rfl⟩ := h.exists_place hi
  exact hs.copiedFrom next

/-- A copy of the whole tree has as many nodes as the tree. -/
theorem Sound.size_copyOf {old : NodeId} (h : t.Sound old) (next : NodeId) :
    (t.copyOf next).size = t.size := by
  rw [Tree.copyOf]
  cases hr : t.root with
  | none =>
    obtain ⟨bs, hs⟩ := h.spells
    obtain rfl := hs.root_eq_none_iff.mp hr
    rw [size_eq_length t, hs.perm.length_eq]
    rfl
  | some r =>
    obtain ⟨b, hb, rfl⟩ := h.exists_branch hr
    exact (hb.atTop.size_copySubtree next).trans hb.size_eq.symm

/-! ### Copies in turn -/

theorem Sound.inTurn_copyEach {old : NodeId} (h : t.Sound old)
    (his : ∀ i ∈ is, t.contains i = true) (next : NodeId) :
    t.InTurn is next (t.copyEach is next).1 (t.copyEach is next).2 := by
  induction is generalizing next with
  | nil => exact .nil
  | cons i is ih =>
    have hcopy := h.copiedFrom (his i List.mem_cons_self) next
    have hrest := ih (fun j hj => his j (List.mem_cons_of_mem _ hj)) (next.shift (t.extent i))
    -- the next copy begins where the size of this one says
    rw [← hcopy.size_eq] at hrest
    exact .cons hcopy (hcopy.size_eq ▸ hrest)

/-- All identities that are used up are those of the copies. -/
theorem InTurn.flatMap_nodeIds (h : t.InTurn is next us free) :
    us.flatMap nodeIds = next.block (is.map t.extent).sum ∧
      free = next.shift (is.map t.extent).sum := by
  induction h with
  | nil => exact ⟨rfl, rfl⟩
  | cons copy _ ih =>
    rw [List.flatMap_cons, List.map_cons, List.sum_cons, NodeId.block_add, copy.nodeIds_eq, ih.1,
      ih.2]
    exact ⟨rfl, (NodeId.shift_add ..).symm⟩

/-- No two of the copies have a node in common. -/
theorem InTurn.pairwise (h : t.InTurn is next us free) :
    us.Pairwise fun u v => ∀ i, u.contains i = true → v.contains i = false := by
  have hnd : (us.flatMap nodeIds).Nodup := h.flatMap_nodeIds.1 ▸ NodeId.nodup_block next _
  refine (List.nodup_flatMap.mp hnd).2.imp fun {u v} hdisjoint i hu => ?_
  rw [Bool.eq_false_iff]
  exact fun hv => hdisjoint (contains_iff_mem_nodeIds.mp hu) (contains_iff_mem_nodeIds.mp hv)

end Tree

namespace Forest

open SyntaxTree.Tree

/-- The command uses up `k` identities, and leaves alone all trees except under the names it stores
its results under. -/
structure Spends (f : Forest) (c : Command) (k : Nat) : Prop where
  next_eq : (f.step c).forest.next = f.next.shift k
  spared : ∀ y, y ∉ f.stored c → (f.step c).forest.tree? y = f.tree? y

variable {f : Forest} {t : Tree} {x : String}

theorem tree?_step_of_alters {c : Command} (hf : f.Sound)
    (halters : ∀ y t u, f.Alters c y t u → u = t) {y : String} (hy : y ∉ f.stored c) :
    (f.step c).forest.tree? y = f.tree? y := by
  have h := outcome_step hf c y
  generalize (f.step c).forest.tree? y = found at h
  cases h with
  | delivered h => exact absurd (List.mem_map_of_mem h) hy
  | absent _ h => exact h.symm
  | altered _ ht h => rw [ht, halters y _ _ h]

theorem spends_extract (hf : f.Sound) (ht : f.tree? x = some t) {i : NodeId}
    (hi : t.contains i = true) (dest : Option String) :
    f.Spends (.extract x i dest) (t.extent i) := by
  refine ⟨?_, fun y => tree?_step_of_alters hf fun y t u h => by cases h; rfl⟩
  have hsize := ((hf.tree ht).copiedFrom hi f.next).size_eq
  have hextract : t.extract i f.next = some (t.copySubtree i f.next) := if_pos hi
  simp only [step, ht, Forest.extract, hextract, next_storeAs, hsize]
  rfl

theorem spends_copy (hf : f.Sound) (ht : f.tree? x = some t) (dest : String)
    (name : Option String) : f.Spends (.copy dest x name) t.size := by
  refine ⟨?_, fun y => tree?_step_of_alters hf fun y t u h => by cases h; rfl⟩
  have hsize := (hf.tree ht).size_copyOf f.next
  simp only [step, ht, Forest.copy, hsize]
  rfl

theorem spends_findAll (hf : f.Sound) (ht : f.tree? x = some t) (test : Node → Bool)
    (dest : Option String) :
    f.Spends (.findAll x test dest) ((t.matching test).map t.extent).sum := by
  refine ⟨?_, fun y => tree?_step_of_alters hf fun y t u h => by cases h; rfl⟩
  -- the identities of all the copies, one copy after another
  obtain ⟨bs, hs⟩ := (hf.tree ht).spells
  have hturn := (hf.tree ht).inTurn_copyEach
    (fun i hi => hs.contains_of_mem_matching (p := test) hi) f.next
  simp only [step, ht, Forest.deliverAll, next_storeAllAs]
  exact hturn.flatMap_nodeIds.2

end Forest

namespace Workshop

open SyntaxTree.Tree

/-- **A copy is numbered along the pre-order**, in every run, and uses up exactly the identities of
its nodes: a copy of a subtree, which can be made in one pass over it, a copy of a whole tree, and
the copies of all subtrees that a search finds. Where there is nothing to copy, nothing is used
up. -/
theorem run_copies (jobs : List Job) {t : Tree} (ht : t ∈ (run jobs).trees) (next : NodeId) :
    (∀ i, t.contains i = true → ∃ u, t.extract i next = some u ∧ t.CopiedFrom i next u ∧
      t.transcribe i next = (u, next.shift (t.extent i))) ∧
    (∀ i, t.contains i = false → t.extract i next = none) ∧
    (∀ r, t.root = some r → ∃ u, t.CopiedFrom r next u ∧ u.size = t.size ∧
      t.copyOf next = { u with name := t.name }) ∧
    (t.root = none → t.size = 0 ∧ t.copyOf next = { empty with name := t.name }) ∧
    (∀ test, (t.matching test).Sublist t.nodeIds ∧
      (∀ i, i ∈ t.matching test ↔ t.passes test i = true) ∧
      t.InTurn (t.matching test) next (t.findAll test next).1 (t.findAll test next).2 ∧
      (t.findAll test next).1.Pairwise fun u v => ∀ i, u.contains i = true → v.contains i = false) ∧
    ∀ x, (run jobs).forest.tree? x = some t →
      (∀ i dest, t.contains i = true →
        (run jobs).forest.Spends (.extract x i dest) (t.extent i)) ∧
      (∀ i dest, t.contains i = false →
        ((run jobs).forest.step (.extract x i dest)).forest = (run jobs).forest) ∧
      (∀ dest name, (run jobs).forest.Spends (.copy dest x name) t.size) ∧
      ∀ test dest,
        (run jobs).forest.Spends (.findAll x test dest) ((t.matching test).map t.extent).sum := by
  have h := (sound_run jobs).tree ht
  have hf := (sound_run jobs).forest
  obtain ⟨bs, hs⟩ := h.spells
  have hdead : ∀ i free, t.contains i = false → t.extract i free = none := fun i free hi =>
    if_neg (Bool.eq_false_iff.mp hi)
  refine ⟨?_, fun i => hdead i next, ?_, ?_, ?_, fun x hx => ⟨?_, ?_, ?_, ?_⟩⟩
  · intro i hi
    exact ⟨_, if_pos hi, h.copiedFrom hi next, h.transcribe_eq hi next⟩
  · intro r hr
    obtain ⟨b, hb, rfl⟩ := h.exists_branch hr
    refine ⟨_, hb.atTop.copiedFrom next, (hb.atTop.size_copySubtree next).trans hb.size_eq.symm, ?_⟩
    rw [copyOf, hr]
  · intro hr
    have hcopy : t.copyOf next = { empty with name := t.name } := by rw [copyOf, hr]
    exact ⟨(h.size_copyOf next).symm.trans (congrArg Tree.size hcopy), hcopy⟩
  · intro test
    have hturn := h.inTurn_copyEach (fun i hi => hs.contains_of_mem_matching (p := test) hi) next
    refine ⟨?_, fun i => hs.mem_matching_iff, hturn, hturn.pairwise⟩
    rw [hs.nodeIds_eq]
    exact List.filter_sublist.map Node.id
  · exact fun i dest hi => Forest.spends_extract hf hx hi dest
  · intro i dest hi
    simp only [Forest.step, hx, Forest.extract, hdead i _ hi]
    rfl
  · exact Forest.spends_copy hf hx
  · exact Forest.spends_findAll hf hx

/-- After fifteen of the errands the sum does not list its nodes in pre-order, and a copy of a sum
stands within it. The copy of the whole does, and a search for sums uses up the identities of five
nodes and of three. -/
theorem copies_errands : ∃ t r u, (run (errands.take 15)).forest.tree? "sum" = some t ∧
    t.preOrder ≠ t.nodeIds ∧ t.root = some r ∧
    t.extract r (run (errands.take 15)).forest.next = some u ∧
    t.CopiedFrom r (run (errands.take 15)).forest.next u ∧
    (run (errands.take 15)).forest.Spends
      (.findAll "sum" (fun n => n.rule = "sum") (some "found")) (5 + 3) := by
  have hfull : ((run (errands.take 15)).forest.tree? "sum").bind (fun t => t.root.map fun r =>
      decide (t.preOrder ≠ t.nodeIds ∧ t.contains r = true ∧
        ((t.matching fun n => n.rule = "sum").map t.extent).sum = 5 + 3)) = some true := by decide
  obtain ⟨t, ht, hfull⟩ := Option.bind_eq_some_iff.mp hfull
  obtain ⟨r, hr, hfull⟩ := Option.map_eq_some_iff.mp hfull
  obtain ⟨horder, hlive, hsum⟩ := of_decide_eq_true hfull
  have htrees : t ∈ (run (errands.take 15)).trees := mem_trees_of_tree? ht
  obtain ⟨hextract, -, -, -, -, hcommands⟩ := run_copies (errands.take 15) htrees
    (run (errands.take 15)).forest.next
  obtain ⟨u, hu, hcopied, -⟩ := hextract r hlive
  have hspends := (hcommands "sum" ht).2.2.2 (fun n => n.rule = "sum") (some "found")
  exact ⟨t, r, u, ht, horder, hr, hu, hcopied, hsum ▸ hspends⟩

end Workshop

end SyntaxTree
