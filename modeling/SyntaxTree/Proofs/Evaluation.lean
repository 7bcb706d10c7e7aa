/-
SyntaxTree/Proofs/Evaluation.lean

Evaluation is recursion.  A scheme works on nodes one at a time and finds the values of the
children in a cache; here it is shown that, for a scheme which stores a function of a node
and of the values of its children, the cache holds in the end what that function comes to
by recursion on the branch at every node.

The invariant is about a run that has come some way (`cache_foldl_visited`): all nodes
visited so far have their final values.  It is carried on by the order of the visits
alone, since a node is visited after its children and never again.  What the scheme has
put into the cache before the first visit is overwritten before it is read.
-/
import SyntaxTree.Evaluation
import SyntaxTree.Proofs.PostOrder
import SyntaxTree.Proofs.Workshop

namespace SyntaxTree

open Branch Relation

namespace Tree

variable {ν : Type} {t : Tree} {bs : List Branch} {c : Place} {s : Branch} {F : Bud → List ν → ν}

/-- What the branch at an identity comes to when every bud is combined with the values of the
branches on it, from left to right. -/
def value? (t : Tree) (F : Bud → List ν → ν) (i : NodeId) : Option ν :=
  (t.branchAt? i).map (Branch.fold F)

theorem Spells.value?_id (h : t.Spells (c.plug [s])) : t.value? F s.id = some (s.fold F) := by
  rw [value?, h.branchAt?_id]; rfl

theorem Spells.value?_limb (h : t.Spells (c.plug [s])) {d : Branch} (hd : d ∈ s.limbs) :
    t.value? F d.id = some (d.fold F) := by
  obtain ⟨c', -, hlimb⟩ := h.exists_limb hd
  exact hlimb.value?_id

/-! ### The agenda -/

theorem Spells.mem_nodeList_of_mem_agenda (h : t.Spells bs) {n : Node}
    (hn : n ∈ Evaluation.agenda t) : n ∈ t.nodeList := by
  obtain ⟨i, -, hi⟩ := List.mem_filterMap.mp hn
  exact (h.node?_eq_some_iff.mp hi).1

/-- The agenda is the post-order, node by node. -/
theorem Spells.map_id_agenda (h : t.Spells bs) :
    (Evaluation.agenda t).map Node.id = t.postOrder := by
  rw [Evaluation.agenda, List.map_filterMap]
  apply filterMap_eq_self
  intro i hi
  have hlive := h.postOrder_perm.mem_iff.mp hi
  rw [h.nodeIds_eq] at hlive
  obtain ⟨n, hn, rfl⟩ := List.mem_map.mp hlive
  rw [h.toCoherent.node?_id hn]
  rfl

end Tree

namespace Evaluation

variable {σ ν ρ : Type} {t : Tree} {bs : List Branch} {e : Evaluation σ ν ρ}
  {F : Bud → List ν → ν}

/-! ### Visits -/

theorem tree_foldl_visited (e : Evaluation σ ν ρ) (ns : List Node) :
    (ns.foldl visited e).tree = e.tree := by
  induction ns generalizing e with
  | nil => rfl
  | cons n ns ih => exact ih (e.visited n)

theorem scheme_foldl_visited (e : Evaluation σ ν ρ) (ns : List Node) :
    (ns.foldl visited e).scheme = e.scheme := by
  induction ns generalizing e with
  | nil => rfl
  | cons n ns ih => exact ih (e.visited n)

theorem visits_foldl_visited (e : Evaluation σ ν ρ) (ns : List Node) :
    (ns.foldl visited e).visits = e.visits ++ ns.map Node.id := by
  induction ns generalizing e with
  | nil => exact (List.append_nil _).symm
  | cons n ns ih =>
    rw [List.foldl_cons, ih, List.map_cons, ← List.singleton_append, ← List.append_assoc]
    rfl

/-- The scheme stores a function of the node and of the values found for its children. -/
def Stores (e : Evaluation σ ν ρ) (F : Bud → List ν → ν) : Prop :=
  ∀ n s c, (e.scheme.visit e.tree n s c).2 = c.insert n.id (F n.bud (c.childValues n))

theorem Stores.foldl (h : e.Stores F) (ns : List Node) : (ns.foldl visited e).Stores F := by
  rw [Stores, scheme_foldl_visited, tree_foldl_visited]
  exact h

theorem Stores.cache_visited (h : e.Stores F) (n : Node) :
    (e.visited n).cache = e.cache.insert n.id (F n.bud (e.cache.childValues n)) :=
  h n e.state e.cache

/-- The values found for the children of a node that comes up are those of the branches on it. -/
theorem childValues_eq {c : Place} {s : Branch} (h : t.Spells (c.plug [s])) {m : Cache ν}
    (hm : ∀ d ∈ s.limbs, m.get? d.id = t.value? F d.id) (p : Option NodeId) :
    m.childValues (s.bottom p) = s.limbs.map (Branch.fold F) := by
  show (s.limbs.map Branch.id).filterMap m.get? = _
  rw [List.filterMap_map]
  refine List.filterMap_eq_map_iff_forall_eq_some.mpr fun d hd => ?_
  rw [Function.comp_apply, hm d hd, h.value?_limb hd]

/-- **The invariant of a run**: the nodes visited so far have their final values. -/
theorem cache_foldl_visited (hs : t.Spells bs) (he : e.Stores F)
    {pre post : List Node} (hsplit : agenda t = pre ++ post) :
    ∀ n ∈ pre, (pre.foldl visited e).cache.get? n.id = t.value? F n.id := by
  induction pre using List.reverseRecOn generalizing post with
  | nil => intro n hn; cases hn
  | append_singleton pre n ih =>
    intro m hm
    rw [List.append_assoc, List.singleton_append] at hsplit
    have ih := ih hsplit
    rw [List.foldl_append, List.foldl_cons, List.foldl_nil, (he.foldl pre).cache_visited,
      OrderedMap.get?_insert]
    split
    case isFalse hne =>
      -- all other values stay as they were
      rcases List.mem_append.mp hm with hm | hm
      · exact ih m hm
      · exact absurd (congrArg Node.id (List.mem_singleton.mp hm)) hne
    case isTrue heq =>
      -- the value just stored: those of the children were final already
      have hn : n ∈ agenda t := by rw [hsplit]; simp
      obtain ⟨c, s, rfl, rfl⟩ := hs.exists_plug_eq (hs.mem_nodeList_of_mem_agenda hn)
      have horder : t.postOrder = pre.map Node.id ++ s.id :: post.map Node.id := by
        rw [← hs.map_id_agenda, hsplit, List.map_append, List.map_cons]; rfl
      have hchildren := childValues_eq hs (m := (pre.foldl visited e).cache) (F := F)
        (fun d hd => by
          obtain ⟨k, hk, hkd⟩ := List.mem_map.mp (hs.mem_of_postOrder_eq horder hd)
          exact hkd ▸ ih k hk) c.parent
      rw [heq, hchildren]
      show some (F s.bud (s.limbs.map (Branch.fold F))) = t.value? F s.id
      rw [hs.value?_id, ← fold_grow F s.bud s.limbs, grow_bud_limbs]

/-! ### Runs -/

/-- What is to be said of an evaluation `after` the run of one that has been started. -/
structure Folds (t : Tree) (F : Bud → List ν → ν) (before after : Evaluation σ ν ρ) : Prop where
  run_eq : before.run = .ok after
  /-- Whenever a node comes up, the final values of its children are in the cache. -/
  ready : ∀ pre n post, agenda t = pre ++ n :: post → ∀ i ∈ n.children, ∃ b,
    t.branchAt? i = some b ∧ (pre.foldl visited before.prepared).cache.get? i = some (b.fold F)
  /-- In the end, the value of every node is in the cache. -/
  cached : ∀ n ∈ t.nodeList, ∃ b,
    t.branchAt? n.id = some b ∧ after.cache.get? n.id = some (b.fold F)
  visits_perm : after.visits.Perm t.nodeIds
  visits_nodup : after.visits.Nodup
  child_before : ∀ n ∈ t.nodeList, ∀ i ∈ n.children,
    after.visits.idxOf i < after.visits.idxOf n.id
  sibling_before : ∀ n ∈ t.nodeList, ∀ l i m j r, n.children = l ++ i :: m ++ j :: r →
    ∀ a b, ReflTransGen t.Child i a → ReflTransGen t.Child j b →
      after.visits.idxOf a < after.visits.idxOf b

/-- A row of children that is divided at two of them comes from branches divided in the same way. -/
theorem exists_map_id_eq {ls : List Branch} {l m r : List NodeId} {i j : NodeId}
    (h : ls.map Branch.id = l ++ i :: m ++ j :: r) : ∃ l' d m' e' r',
      ls = l' ++ d :: m' ++ e' :: r' ∧ Branch.id d = i ∧ Branch.id e' = j := by
  obtain ⟨front, back, rfl, hfront, hback⟩ := List.map_eq_append_iff.mp h
  obtain ⟨l', rest, rfl, -, hrest⟩ := List.map_eq_append_iff.mp hfront
  obtain ⟨d, m', rfl, hd, -⟩ := List.map_eq_cons_iff.mp hrest
  obtain ⟨e', r', rfl, he, -⟩ := List.map_eq_cons_iff.mp hback
  exact ⟨l', d, m', e', r', rfl, hd, he⟩

/-- **A scheme that stores a function of a node and of the values of its children computes the fold
of that function**, on every tree that spells a branch and from any state of the cache. -/
theorem folds_of_spells (hs : t.Spells bs) (scheme : Scheme σ ν ρ) (state : σ) (config : Config)
    (hvisit : ∀ n s c, (scheme.visit t n s c).2 = c.insert n.id (F n.bud (c.childValues n))) :
    Folds t F (start t scheme state config) (start t scheme state config).completed := by
  have he : (start t scheme state config).prepared.Stores F := hvisit
  have hinv := fun {pre post : List Node} (h : agenda t = pre ++ post) =>
    cache_foldl_visited (e := (start t scheme state config).prepared) hs he h
  have hvisits : (start t scheme state config).completed.visits = t.postOrder := by
    show ((agenda t).foldl visited (start t scheme state config).prepared).visits = _
    rw [visits_foldl_visited, hs.map_id_agenda]
    rfl
  refine ⟨rfl, ?_, ?_, ?_, ?_, ?_, ?_⟩
  · -- ready
    intro pre n post hsplit i hi
    have hn : n ∈ agenda t := by rw [hsplit]; simp
    obtain ⟨c, s, rfl, rfl⟩ := hs.exists_plug_eq (hs.mem_nodeList_of_mem_agenda hn)
    obtain ⟨d, hd, rfl⟩ := List.mem_map.mp hi
    have horder : t.postOrder = pre.map Node.id ++ s.id :: post.map Node.id := by
      rw [← hs.map_id_agenda, hsplit, List.map_append, List.map_cons]; rfl
    obtain ⟨c', -, hlimb⟩ := hs.exists_limb hd
    obtain ⟨k, hk, hkd⟩ := List.mem_map.mp (hs.mem_of_postOrder_eq horder hd)
    refine ⟨d, hlimb.branchAt?_id, ?_⟩
    rw [← hkd, hinv hsplit k hk, hkd, hlimb.value?_id]
  · -- cached
    intro n hn
    obtain ⟨c, s, rfl, rfl⟩ := hs.exists_plug_eq hn
    refine ⟨s, hs.branchAt?_id, ?_⟩
    have hmem : s.id ∈ (agenda t).map Node.id := by
      rw [hs.map_id_agenda, hs.postOrder_eq_append]
      simp
    obtain ⟨k, hk, hks⟩ := List.mem_map.mp hmem
    have hcache := hinv (List.append_nil (agenda t)).symm k hk
    rw [hks, hs.value?_id] at hcache
    exact hcache
  · rw [hvisits]; exact hs.postOrder_perm
  · rw [hvisits]; exact hs.nodup_postOrder
  · -- child_before
    intro n hn i hi
    obtain ⟨c, s, rfl, rfl⟩ := hs.exists_plug_eq hn
    obtain ⟨d, hd, rfl⟩ := List.mem_map.mp hi
    rw [hvisits]
    exact hs.idxOf_child_lt hd
  · -- sibling_before
    intro n hn l i m j r hrow a b ha hb
    obtain ⟨c, s, rfl, rfl⟩ := hs.exists_plug_eq hn
    obtain ⟨l', d, m', e', r', hlimbs, rfl, rfl⟩ := exists_map_id_eq hrow
    obtain ⟨_, -, hd⟩ := hs.exists_limb (show d ∈ s.limbs by rw [hlimbs]; simp)
    obtain ⟨_, -, he'⟩ := hs.exists_limb (show e' ∈ s.limbs by rw [hlimbs]; simp)
    rw [hvisits]
    exact hs.idxOf_sibling_lt hlimbs (hd.reflTransGen_child_iff.mp ha)
      (he'.reflTransGen_child_iff.mp hb)

/-- **What an evaluation answers with the value of the root** is the fold over the whole tree. -/
theorem evaluate_eq_of_spells (hs : t.Spells bs) (scheme : Scheme σ ν (Option ν)) (state : σ)
    (hvisit : ∀ n s c, (scheme.visit t n s c).2 = c.insert n.id (F n.bud (c.childValues n)))
    (hresult : ∀ s c, scheme.result t s c = t.root.bind c.get?) :
    t.evaluate scheme state = .ok (t.branch?.map (Branch.fold F)) := by
  have hfolds := folds_of_spells hs scheme state .standard hvisit
  have htree : (start t scheme state .standard).completed.tree = t := tree_foldl_visited _ (agenda t)
  have hscheme : (start t scheme state .standard).completed.scheme = scheme :=
    scheme_foldl_visited _ (agenda t)
  rw [Tree.evaluate, hfolds.run_eq]
  show (start t scheme state .standard).completed.readResult = _
  have hdone : (start t scheme state .standard).completed.phase = .done := rfl
  rw [readResult, whenDone, hdone, htree, hscheme, hresult]
  refine congrArg Except.ok ?_
  cases hr : t.root with
  | none =>
    rw [Tree.branch?, hr]
    rfl
  | some r =>
    obtain ⟨b, rfl, rfl⟩ := hs.eq_singleton hr
    obtain ⟨d, hd, hcache⟩ := hfolds.cached (b.bottom none)
      (hs.atTop.mem_nodeList (bottom_mem_nodes none b))
    obtain rfl := Option.some.inj (hd.symm.trans hs.atTop.branchAt?_id)
    rw [hs.branch?_eq]
    exact hcache

end Evaluation

namespace Workshop

/-- **Evaluation is recursion, on every tree of every run.** If a scheme stores, for the node it
works on, `f` of the node and of the values of its children, then its run succeeds and leaves
the fold of `f` over the subtree of every node, whatever it has prepared; and evaluating with
the value of the root as the result gives the fold over the tree, which is nothing for an
empty tree only. -/
theorem run_folds (jobs : List Job) {t : Tree} (ht : t ∈ (run jobs).trees) {σ ν ρ : Type}
    (scheme : Scheme σ ν ρ) (state : σ) (config : Evaluation.Config)
    (f : NodeId → String → String → List ν → ν) (hvisit : ∀ n s c,
      (scheme.visit t n s c).2 = c.insert n.id (f n.id n.rule n.label (c.childValues n))) :
    (∃ after, Evaluation.Folds t (fun v => f v.id v.rule v.label)
      (Evaluation.start t scheme state config) after) ∧
    t.evaluate ⟨scheme.prepare, scheme.visit, fun t _ c => t.root.bind c.get?⟩ state
      = .ok (t.branch?.map (Branch.fold fun v => f v.id v.rule v.label)) ∧
    (t.branch? = none ↔ t.isEmpty = true) := by
  obtain ⟨bs, hs⟩ := ((sound_run jobs).tree ht).spells
  refine ⟨⟨_, Evaluation.folds_of_spells hs scheme state config hvisit⟩, ?_, ?_⟩
  · exact Evaluation.evaluate_eq_of_spells hs ⟨scheme.prepare, scheme.visit, _⟩ state hvisit
      fun _ _ => rfl
  · rw [hs.branch?_eq, List.head?_eq_none_iff, hs.isEmpty_iff]

/-- Counts the nodes of every subtree. It begins with a value in the cache that is wrong. -/
def counting : Scheme Unit Nat Unit where
  prepare _ s c := (s, c.insert ⟨1⟩ 99)
  visit _ n s c := (s, c.insert n.id ((c.childValues n).foldl Nat.add 1))
  result _ _ _ := ()

/-- The sum that the errands leave is counted correctly. -/
theorem counting_errands : ∃ t, (run errands).forest.tree? "sum" = some t ∧
    (∃ after, Evaluation.Folds t (fun _ vs => vs.foldl Nat.add 1)
      (Evaluation.start t counting () .tracing) after) ∧
    t.evaluate ⟨counting.prepare, counting.visit, fun t _ c => t.root.bind c.get?⟩ ()
      = .ok (some 4) := by
  have hfold : ((run errands).forest.tree? "sum").map (fun t =>
      t.branch?.map (Branch.fold fun _ vs => vs.foldl Nat.add 1)) = some (some 4) := by decide +kernel
  obtain ⟨t, ht, h4⟩ := Option.map_eq_some_iff.mp hfold
  obtain ⟨hfolds, heval, -⟩ := run_folds errands (mem_trees_of_tree? ht) counting () .tracing
    (fun _ _ _ vs => vs.foldl Nat.add 1) fun _ _ _ => rfl
  exact ⟨t, ht, hfolds, h4 ▸ heval⟩

end Workshop

end SyntaxTree
