/-
SyntaxTree/Proofs/Propagation.lean

Values that are handed up from only children.  Every node begins with its own label, and when
a node comes up that has exactly one child, the value of the child replaces it.  In one pass a
value travels up a chain of any length: by the time a node comes up, the value of its child is
already that of the end of the chain (`Resolved.visit`).  The values are replaced where they
stand, so the listing keeps the order in which the nodes were seeded.
-/
import SyntaxTree.Evaluation.Schemes
import SyntaxTree.Proofs.Cache
import SyntaxTree.Proofs.Workflow

namespace SyntaxTree

open Branch

namespace Tree

/-- The node `m` is where the way from `n` ends that goes on to the only child for as long as there
is exactly one child. -/
inductive ChainEnd (t : Tree) : Node → Node → Prop
  | stop {n : Node} (h : n.children.length ≠ 1) : ChainEnd t n n
  | follow {n d m : Node} {i : NodeId} (hn : n.children = [i]) (hd : t.node? i = some d)
      (h : ChainEnd t d m) : ChainEnd t n m

variable {t : Tree} {bs : List Branch} {c : Place} {s : Branch} {n m m' : Node}

theorem ChainEnd.unique (h : t.ChainEnd n m) (h' : t.ChainEnd n m') : m = m' := by
  induction h with
  | stop hn =>
    cases h' with
    | stop => rfl
    | follow hn' => exact absurd (congrArg List.length hn') hn
  | follow hn hd _ ih =>
    cases h' with
    | stop hn' => exact absurd (congrArg List.length hn) hn'
    | follow hn' hd' h' =>
      obtain rfl := List.singleton_inj.mp (hn.symm.trans hn')
      obtain rfl := Option.some.inj (hd.symm.trans hd')
      exact ih h'

/-- Every way along only children comes to an end. -/
theorem Spells.exists_chainEnd (h : t.Spells (c.plug [s])) :
    ∃ m ∈ t.nodeList, t.ChainEnd (s.bottom c.parent) m := by
  induction s generalizing c with
  | grow v ls ih =>
    by_cases hone : ∃ d, ls = [d]
    · obtain ⟨d, rfl⟩ := hone
      obtain ⟨c', -, hd⟩ := h.exists_limb (show d ∈ (grow v [d]).limbs from List.mem_cons_self)
      obtain ⟨m, hm, hend⟩ := ih d List.mem_cons_self hd
      exact ⟨m, hm, .follow rfl hd.node?_id hend⟩
    · refine ⟨_, h.mem_nodeList (bottom_mem_nodes _ _), .stop fun hlength => hone ?_⟩
      exact List.length_eq_one_iff.mp (by simpa [bottom, Bud.node, limbs] using hlength)

/-- When a node comes up, its children have come up before. -/
theorem Spells.exists_of_agenda_eq (h : t.Spells bs) {pre post : List Node}
    (hsplit : Evaluation.agenda t = pre ++ n :: post) {i : NodeId} (hi : i ∈ n.children) :
    ∃ d ∈ pre, d.id = i ∧ t.node? i = some d := by
  have hn : n ∈ Evaluation.agenda t := by rw [hsplit]; simp
  obtain ⟨c, s, rfl, rfl⟩ := h.exists_plug_eq (h.mem_nodeList_of_mem_agenda hn)
  have horder : t.postOrder = pre.map Node.id ++ s.id :: post.map Node.id := by
    rw [← h.map_id_agenda, hsplit, List.map_append, List.map_cons]
    rfl
  obtain ⟨b, hb, rfl⟩ := List.mem_map.mp hi
  obtain ⟨d, hd, hid⟩ := List.mem_map.mp (h.mem_of_postOrder_eq horder hb)
  have hlive : d ∈ t.nodeList := h.mem_nodeList_of_mem_agenda (by rw [hsplit]; simp [hd])
  exact ⟨d, hd, hid, hid ▸ h.toCoherent.node?_id hlive⟩

end Tree

/-- Seeding an empty cache lists the nodes in their order. -/
theorem Schemes.seed_empty {ns : List Node} (hnodup : (ns.map Node.id).Nodup)
    (value : Node → String) : seed ns value .empty = OrderedMap.tabulate Node.id value ns := by
  rw [← OrderedMap.ofList_map hnodup, OrderedMap.ofList, List.foldl_map]
  rfl

namespace Evaluation

variable {σ ρ : Type} {t : Tree} {bs : List Branch} {pre post : List Node} {n : Node}
  {c : Cache String}

/-- The cache of a run in which some nodes have come up: these have the label at the end of their
chain, the others have their own, and the listing is that of the tree. -/
structure Resolved (t : Tree) (pre : List Node) (c : Cache String) : Prop where
  keys_eq : c.keys = t.nodeIds
  resolved : ∀ n ∈ pre, ∀ m, t.ChainEnd n m → c.get? n.id = some m.label
  waiting : ∀ n ∈ t.nodeList, n ∉ pre → c.get? n.id = some n.label

theorem resolved_seed (hs : t.Spells bs) :
    Resolved t [] (Schemes.seed t.nodeList Node.label .empty) := by
  rw [Schemes.seed_empty hs.nodup_ids]
  refine ⟨?_, fun n hn => (nomatch hn), fun n hn _ => ?_⟩
  · rw [OrderedMap.keys_tabulate, hs.nodeIds_eq]
  · exact (OrderedMap.get?_tabulate_eq_some_iff hs.nodup_ids).mpr ⟨n, hn, rfl, rfl⟩

/-- **The node that comes up** has the label at the end of its chain from then on. -/
theorem Resolved.visit (hs : t.Spells bs) (hsplit : agenda t = pre ++ n :: post)
    (h : Resolved t pre c) : Resolved t (pre ++ [n]) (c.propagate n).2 := by
  have hn : n ∈ t.nodeList := hs.mem_nodeList_of_mem_agenda (by rw [hsplit]; simp)
  have hnew : n ∉ pre := by
    have hnodup : (agenda t).Nodup := .of_map Node.id (hs.map_id_agenda ▸ hs.nodup_postOrder)
    rw [hsplit] at hnodup
    exact fun hmem => (List.nodup_append.mp hnodup).2.2 n hmem n List.mem_cons_self rfl
  have hsame : ∀ k ∈ t.nodeList, k.id = n.id → k = n := fun k hk hid =>
    List.inj_on_of_nodup_map hs.nodup_ids hk hn hid
  have hlive : ∀ k ∈ pre, k ∈ t.nodeList := fun k hk =>
    hs.mem_nodeList_of_mem_agenda (by rw [hsplit]; simp [hk])
  -- an only child has come up, and has the label at the end of the chain already
  have hchild : ∀ {i m}, n.children = [i] → t.ChainEnd n m → c.get? i = some m.label := by
    intro i m hi hend
    obtain ⟨d, hd, rfl, hdi⟩ := hs.exists_of_agenda_eq hsplit (hi ▸ List.mem_cons_self)
    cases hend with
    | stop hlength => exact absurd (congrArg List.length hi) hlength
    | follow hi' hd' hend =>
      obtain rfl := List.singleton_inj.mp (hi.symm.trans hi')
      obtain rfl := Option.some.inj (hdi.symm.trans hd')
      exact h.resolved d hd m hend
  rw [Cache.propagate_eq]
  cases hoffered : Cache.offered c.get? n with
  | some v =>
    obtain ⟨i, hi, hv⟩ := Cache.offered_eq_some_iff.mp hoffered
    have hkey : n.id ∈ c.keys := by
      rw [h.keys_eq, hs.nodeIds_eq]
      exact List.mem_map_of_mem hn
    refine ⟨(OrderedMap.keys_insert_of_mem v hkey).trans h.keys_eq, ?_, ?_⟩
    · intro k hk m hend
      show (c.insert n.id v).get? k.id = _
      rw [OrderedMap.get?_insert]
      rcases List.mem_append.mp hk with hk | hk
      · rw [if_neg fun hid => hnew (hsame k (hlive k hk) hid ▸ hk)]
        exact h.resolved k hk m hend
      · obtain rfl := List.mem_singleton.mp hk
        rw [if_pos rfl, ← hv, hchild hi hend]
    · intro k hk hnot
      show (c.insert n.id v).get? k.id = _
      rw [OrderedMap.get?_insert, if_neg fun hid => hnot (by simp [hsame k hk hid])]
      exact h.waiting k hk fun hmem => hnot (List.mem_append_left _ hmem)
  | none =>
    refine ⟨h.keys_eq, ?_, fun k hk hnot => h.waiting k hk fun hmem =>
      hnot (List.mem_append_left _ hmem)⟩
    intro k hk m hend
    rcases List.mem_append.mp hk with hk | hk
    · exact h.resolved k hk m hend
    · -- nothing is handed up, so the node has no only child and is the end of its chain
      obtain rfl := List.mem_singleton.mp hk
      cases hend with
      | stop => exact h.waiting k hn hnew
      | follow hi hd hend =>
        have hoffer := Cache.offered_eq_some_iff.mpr ⟨_, hi, hchild hi (.follow hi hd hend)⟩
        exact absurd (hoffered.symm.trans hoffer) nofun

/-- **The invariant of a run** of a scheme that hands values up. -/
theorem resolved_foldl_visited (hs : t.Spells bs) {e : Evaluation σ String ρ}
    (hvisit : ∀ n s c, (e.scheme.visit e.tree n s c).2 = (c.propagate n).2)
    (h : Resolved t [] e.cache) (hsplit : agenda t = pre ++ post) :
    Resolved t pre (pre.foldl visited e).cache := by
  induction pre using List.reverseRecOn generalizing post with
  | nil => exact h
  | append_singleton pre n ih =>
    rw [List.append_assoc, List.singleton_append] at hsplit
    have hcache : ((pre ++ [n]).foldl visited e).cache
        = ((pre.foldl visited e).cache.propagate n).2 := by
      rw [List.foldl_append, List.foldl_cons, List.foldl_nil]
      have hstep := hvisit n (pre.foldl visited e).state (pre.foldl visited e).cache
      rw [← scheme_foldl_visited e pre, ← tree_foldl_visited e pre] at hstep
      exact hstep
    rw [hcache]
    exact (ih hsplit).visit hs hsplit

end Evaluation

namespace Workshop

open Evaluation

/-- **Every chain of only children is resolved in one pass**, on every tree of every run. If a
scheme seeds all nodes with their labels, in the order of the registry, and hands the value of an
only child up to the node that comes up, then its run succeeds and leaves for every node the label
at the end of its chain, of which there is exactly one; and the cache lists every node of the tree
once, in the order of the registry. -/
theorem run_resolves (jobs : List Job) {t : Tree} (ht : t ∈ (run jobs).trees) {σ ρ : Type}
    (scheme : Scheme σ String ρ) (state : σ) (config : Config)
    (hprepare : ∀ s c, (scheme.prepare t s c).2 = Schemes.seed t.nodeList Node.label c)
    (hvisit : ∀ n s c, (scheme.visit t n s c).2 = (c.propagate n).2) :
    ∃ after, (start t scheme state config).run = .ok after ∧
      after.readCache = .ok after.cache ∧
      (∀ n ∈ t.nodeList, ∃ m ∈ t.nodeList, (∀ m', t.ChainEnd n m' ↔ m' = m) ∧
        after.cache.get? n.id = some m.label) ∧
      after.cache.keys = t.nodeIds ∧ t.nodeIds.Nodup := by
  obtain ⟨bs, hs⟩ := ((sound_run jobs).tree ht).spells
  have hseed : Resolved t [] (start t scheme state config).prepared.cache := by
    have hcache : (start t scheme state config).prepared.cache
        = Schemes.seed t.nodeList Node.label .empty := hprepare state .empty
    rw [hcache]
    exact resolved_seed hs
  have hdone : Resolved t (agenda t) (start t scheme state config).completed.cache :=
    resolved_foldl_visited hs hvisit hseed (List.append_nil (agenda t)).symm
  refine ⟨_, rfl, rfl, ?_, hdone.keys_eq, hs.nodeIds_eq ▸ hs.nodup_ids⟩
  intro n hn
  obtain ⟨m, hm, hend⟩ : ∃ m ∈ t.nodeList, t.ChainEnd n m := by
    obtain ⟨c, s, rfl, rfl⟩ := hs.exists_plug_eq hn
    exact hs.exists_chainEnd
  refine ⟨m, hm, fun m' => ⟨fun h => h.unique hend, fun h => h ▸ hend⟩, ?_⟩
  exact hdone.resolved n (hs.agenda_perm.mem_iff.mpr hn) m hend

/-- Seeds all nodes with their labels, hands values up from only children and counts the visits. -/
def handingUp : Scheme Nat String Nat where
  prepare t s c := (s, Schemes.seed t.nodeList Node.label c)
  visit _ n s c := (s + 1, (c.propagate n).2)
  result _ s _ := s

/-- A run that builds a chain of three nodes and puts a pair in the place of the last. -/
def ladder : List Job :=
  [.command (.build "calc" [.enter "s" "=1+2", .enter "group" "(1+2)", .enter "number" "3", .exit,
      .exit, .exit] none),
    .command (.build "pair" [.enter "sum" "1+2", .enter "number" "1", .exit, .enter "number" "2",
      .exit, .exit] none),
    .command (.findAll "calc" (fun n => n.rule = "number") (some "last")),
    .command (.replace "calc" "last0" "pair")]

/-- In the tree that the ladder leaves, the root gets the label of the pair, two nodes below it. -/
theorem resolves_ladder : ∃ t n m after, (run ladder).forest.tree? "calc" = some t ∧ t.size = 5 ∧
    t.node? ⟨1⟩ = some n ∧ t.ChainEnd n m ∧ n.label = "=1+2" ∧ m.label = "1+2" ∧
    (start t handingUp 0 .tracing).run = .ok after ∧ after.cache.get? n.id = some "1+2" ∧
    after.cache.keys = t.nodeIds := by
  have hfull : ((run ladder).forest.tree? "calc").map (fun t =>
      (t.size, [1, 2, 8].map fun k => (t.node? ⟨k⟩).map fun n => (n.label, n.children))) =
      some (5, [some ("=1+2", [⟨2⟩]), some ("(1+2)", [⟨8⟩]), some ("1+2", [⟨9⟩, ⟨10⟩])]) := by
    decide
  obtain ⟨t, ht, hfull⟩ := Option.map_eq_some_iff.mp hfull
  simp only [List.map_cons, List.map_nil, Prod.mk.injEq, List.cons.injEq, Option.map_eq_some_iff,
    and_true] at hfull
  obtain ⟨hsize, ⟨n, hn, hlabel, hchild⟩, ⟨d, hd, -, hchild'⟩, ⟨m, hm, hlabel', hchildren⟩⟩ := hfull
  have hend : t.ChainEnd n m :=
    .follow hchild hd (.follow hchild' hm (.stop (by rw [hchildren]; decide)))
  obtain ⟨after, hrun, -, hcached, hkeys, -⟩ :=
    run_resolves ladder (mem_trees_of_tree? ht) handingUp 0 .tracing (fun _ _ => rfl) fun _ _ _ => rfl
  obtain ⟨bs, hs⟩ := ((sound_run ladder).tree (mem_trees_of_tree? ht)).spells
  obtain ⟨m', -, hunique, hvalue⟩ := hcached n (hs.node?_eq_some_iff.mp hn).1
  obtain rfl := (hunique m).mp hend
  exact ⟨t, n, m, after, ht, hsize, hn, hend, hlabel, hlabel', hrun, hlabel' ▸ hvalue, hkeys⟩

end Workshop

end SyntaxTree
