/-
SyntaxTree/Proofs/Recall.lean

A node is remembered for as long as it lives.  Whatever is done to its tree, and whatever is
grafted into it, the node keeps its origin, its rule and its label, and no other live node
has its origin.  A candidate that was taken from the tree at this node, at any time and
through any number of copies, is therefore recognised for this node and for no other.

The name of the tree must not be given to another tree meanwhile (`Keeps`).  Otherwise the
jobs may be any, and may also work on other trees.
-/
import SyntaxTree.Proofs.Custody
import SyntaxTree.Proofs.Provenance

namespace SyntaxTree

open Branch Relation

namespace Tree

/-! ### Samples -/

/-- A tree that was copied out of `t` at the node `n`, directly or by way of other copies. The
copies may have been numbered in any way. -/
inductive Sample (t : Tree) (n : Node) : Tree → Prop
  | extract {next : NodeId} {c : Tree} (h : t.extract n.id next = some c) : Sample t n c
  | findAll {p : Node → Bool} {next : NodeId} {k : Nat} {c : Tree}
      (hk : (t.matching p)[k]? = some n.id) (hc : (t.findAll p next).1[k]? = some c) :
      Sample t n c
  | findOutermost {p : Node → Bool} {next : NodeId} {k : Nat} {c : Tree}
      (hk : (t.outermost p)[k]? = some n.id) (hc : (t.findOutermost p next).1[k]? = some c) :
      Sample t n c
  | copyOf {c : Tree} {next : NodeId} (h : Sample t n c) : Sample t n (c.copyOf next)

variable {t c : Tree} {n : Node} {next i : NodeId} {b : Branch}

theorem Spells.candidateOrigin_eq (h : c.Spells [b]) : c.candidateOrigin = some b.bud.origin := by
  rw [candidateOrigin, h.rootNode?_eq]
  rfl

theorem origin_copied (next : NodeId) (b : Branch) : (b.copied next).bud.origin = b.bud.origin := by
  rw [copied, bud_map]

/-- The copies that are taken one after another are copies of what stands at the starts. -/
theorem eq_copySubtree_of_getElem? {starts : List NodeId} {k : Nat} (hk : starts[k]? = some i)
    (hc : (t.copyEach starts next).1[k]? = some c) : ∃ next', c = t.copySubtree i next' := by
  induction starts generalizing k next with
  | nil => cases hk
  | cons j starts ih =>
    cases k with
    | zero =>
      obtain rfl := Option.some.inj hk
      exact ⟨next, (Option.some.inj hc).symm⟩
    | succ k => exact ih hk hc

theorem Spells.copySubtree_node {bs : List Branch} (h : t.Spells bs) (hn : n ∈ t.nodeList)
    (next : NodeId) : ∃ b, (t.copySubtree n.id next).Spells [b] ∧ b.bud.origin = n.origin := by
  obtain ⟨c, s, rfl, rfl⟩ := h.exists_plug_eq hn
  exact ⟨s.copied next, h.copySubtree next, origin_copied next s⟩

/-- A sample spells a branch, whose bottom has the origin of the node. -/
theorem Sample.exists_spells {bs : List Branch} (h : t.Spells bs) (hn : n ∈ t.nodeList)
    (hc : t.Sample n c) : ∃ b, c.Spells [b] ∧ b.bud.origin = n.origin := by
  induction hc with
  | @extract next c he =>
    rw [Tree.extract] at he
    split at he
    case isTrue => exact Option.some.inj he ▸ h.copySubtree_node hn next
    case isFalse => cases he
  | findAll hk hc =>
    obtain ⟨next, rfl⟩ := eq_copySubtree_of_getElem? hk hc
    exact h.copySubtree_node hn next
  | findOutermost hk hc =>
    obtain ⟨next, rfl⟩ := eq_copySubtree_of_getElem? hk hc
    exact h.copySubtree_node hn next
  | @copyOf c next _ ih =>
    obtain ⟨b, hb, horigin⟩ := ih
    refine ⟨b.copied next, ?_, (origin_copied next b).trans horigin⟩
    rw [Tree.copyOf, show c.root = some b.id from hb.root_eq]
    exact (hb.atTop.copySubtree next).rename c.name

/-- **A sample is a candidate** for the node it was taken from. -/
theorem Sample.candidateOrigin_eq (h : t.Sound next) (hn : n ∈ t.nodeList) (hc : t.Sample n c) :
    c.candidateOrigin = some n.origin := by
  obtain ⟨bs, hs⟩ := h.spells
  obtain ⟨b, hb, horigin⟩ := hc.exists_spells hs hn
  exact hb.candidateOrigin_eq.trans (congrArg some horigin)

end Tree

namespace Workshop

open SyntaxTree.Tree

/-! ### Nodes that live on -/

variable {w : Workshop} {j : Job} {more : List Job} {x : String} {t : Tree} {n : Node}

/-- A node that is still live after a job is what it was, apart from its relatives. -/
theorem exists_bud_step (hw : w.Sound) (hx : w.Exclusive) (hj : x ∉ w.stored j)
    (ht : w.forest.tree? x = some t) (hn : n ∈ t.nodeList) :
    ∃ u, (w.step j).forest.tree? x = some u ∧
      (u.contains n.id = true → ∃ m ∈ u.nodeList, m.bud = n.bud) := by
  obtain ⟨u, removed, new, hu, hr, hcut, -⟩ := exists_revises_step hw hj ht
  refine ⟨u, hu, fun hlive => hr.exists_bud_eq n hn fun hout => ?_⟩
  have hi := ((hw.forest.tree ht).used n hn).1
  exact ((holds_tree_step_iff hw hx hj hi).mp ⟨u, hu, hlive⟩).2 ((hcut n.id).mp hout)

theorem exists_tree_of_keeps (hw : w.Sound) (hkeeps : w.Keeps x more)
    (ht : w.forest.tree? x = some t) : ∃ u, (w.proceed more).forest.tree? x = some u := by
  induction more generalizing w t with
  | nil => exact ⟨t, ht⟩
  | cons j more ih =>
    obtain ⟨u, -, -, hu, -⟩ := exists_revises_step hw hkeeps.1 ht
    exact ih (hw.step j) hkeeps.2 hu

/-- **A node that is still live later** is what it was, apart from its relatives. -/
theorem exists_bud_of_keeps (hw : w.Sound) (hx : w.Exclusive) (hkeeps : w.Keeps x more)
    (ht : w.forest.tree? x = some t) (hn : n ∈ t.nodeList) {u : Tree}
    (hu : (w.proceed more).forest.tree? x = some u) (hlive : u.contains n.id = true) :
    ∃ m ∈ u.nodeList, m.bud = n.bud := by
  induction more generalizing w t n with
  | nil =>
    obtain rfl := Option.some.inj (ht.symm.trans hu)
    exact ⟨n, hn, rfl⟩
  | cons j more ih =>
    obtain ⟨v, hv, hstep⟩ := exists_bud_step hw hx hkeeps.1 ht hn
    have hi := ((hw.forest.tree ht).used n hn).1
    have hlt := NodeId.lt_of_lt_of_le hi (next_le_step hw hx j)
    -- a node that is live in the end has been live all the time
    have hmid : v.contains n.id = true := by
      by_contra hgone
      refine not_holds_of_keeps (hw.step j) (hx.step hw j) hlt ?_ hkeeps.2 ⟨u, hu, hlive⟩
      rintro ⟨v', hv', hmem⟩
      obtain rfl := Option.some.inj (hv.symm.trans hv')
      exact hgone hmem
    obtain ⟨m, hm, hbud⟩ := hstep hmid
    have hid : m.id = n.id := congrArg Bud.id hbud
    obtain ⟨k, hk, hkm⟩ := ih (hw.step j) (hx.step hw j) hkeeps.2 hv hm hu (hid ▸ hlive)
    exact ⟨k, hk, hkm.trans hbud⟩

/-- The node `n`, known from earlier, is what it was in the tree `u`, and whatever is recognised by
its origin is about this node. -/
structure Remembers (w : Workshop) (u : Tree) (n : Node) : Prop where
  unchanged : ∃ m, u.node? n.id = some m ∧ m.origin = n.origin ∧ m.rule = n.rule ∧
    m.label = n.label
  /-- No other live node has the origin. -/
  sole : ∀ k ∈ u.nodeList, k.origin = n.origin → k.id = n.id
  counterpart : ∀ c : Tree, c.candidateOrigin = some n.origin →
    u.counterpart? c = u.node? n.id ∧ u.hasCounterpart c = true
  /-- A removal takes the node with all that is below it, and nothing else. -/
  remove : ∀ c : Tree, c.candidateOrigin = some n.origin → ∃ r, u.remove c = .ok r ∧
    r.target = n.id ∧ r.removed.root = some n.id ∧
    (∀ i, r.removed.contains i = true ↔ ReflTransGen u.Child n.id i) ∧
    ∀ i, r.rest.contains i = true ↔ u.contains i = true ∧ ¬ ReflTransGen u.Child n.id i
  /-- So does a replacement, which puts new nodes in their place. -/
  replace : ∀ c : Tree, c.candidateOrigin = some n.origin → ∀ g ∈ w.trees, g.isEmpty = false →
    ∃ r, u.replace c g w.forest.next = .ok r ∧
      r.target = n.id ∧ r.removed.root = some n.id ∧
      (∀ i, r.removed.contains i = true ↔ ReflTransGen u.Child n.id i) ∧
      ∀ i, r.result.contains i = true ↔
        (u.contains i = true ∧ ¬ ReflTransGen u.Child n.id i) ∨ i ∈ w.forest.next.block g.size

theorem Sound.remembers (hw : w.Sound) {u : Tree} (hu : u ∈ w.trees) {m : Node}
    (hm : m ∈ u.nodeList) (hbud : m.bud = n.bud) : w.Remembers u n := by
  obtain ⟨bs, hs⟩ := (hw.tree hu).spells
  have hid : n.id = m.id := (congrArg Bud.id hbud).symm
  have horigin : n.origin = m.origin := (congrArg Bud.origin hbud).symm
  have hcorresponds : ∀ {c : Tree}, c.candidateOrigin = some n.origin → u.Corresponds c m := by
    intro c hc
    obtain ⟨r, hr, ho⟩ := Option.map_eq_some_iff.mp hc
    exact ⟨hm, r, hr, ho.trans horigin⟩
  have hnode : u.node? n.id = some m := hid ▸ hs.toCoherent.node?_id hm
  refine ⟨?_, ?_, ?_, ?_, ?_⟩
  · exact ⟨m, hnode, horigin.symm, congrArg Bud.rule hbud, congrArg Bud.label hbud⟩
  · intro k hk ho
    rw [hs.eq_of_origin_eq hk hm (ho.trans horigin), hid]
  · intro c hc
    have hrecognises := hw.recognises hu c
    rw [hnode]
    exact ⟨(hrecognises.counterpart_iff m).mpr (hcorresponds hc),
      hrecognises.has_iff.mpr ⟨m, hcorresponds hc⟩⟩
  · intro c hc
    obtain ⟨r, hr, htarget, htaken, hrest⟩ := (hw.recognises hu c).remove_ok m (hcorresponds hc)
    rw [hid]
    exact ⟨r, hr, htarget, htaken.root_eq, htaken.contains_iff, hrest⟩
  · intro c hc g hg hne
    obtain ⟨r, hr, htarget, htaken, hrest⟩ :=
      (hw.recognises hu c).replace_ok m (hcorresponds hc) g hg hne
    rw [hid]
    exact ⟨r, hr, htarget, htaken.root_eq, htaken.contains_iff, hrest⟩

theorem run_append (jobs more : List Job) : run (jobs ++ more) = (run jobs).proceed more :=
  List.foldl_append

/-- **Provenance is stable for as long as the node lives.** What was taken from a tree at one of its
nodes is a candidate for this node, and as long as the node is live, such candidates are
recognised for it and for no other. -/
theorem run_remembers (jobs more : List Job) (ht : (run jobs).forest.tree? x = some t)
    (hn : n ∈ t.nodeList) (hkeeps : (run jobs).Keeps x more) :
    (∀ c, t.Sample n c → c.candidateOrigin = some n.origin) ∧
    ∃ u, (run (jobs ++ more)).forest.tree? x = some u ∧
      (u.contains n.id = true → (run (jobs ++ more)).Remembers u n) := by
  have hw := sound_run jobs
  have hx := exclusive_run jobs
  refine ⟨fun c hc => hc.candidateOrigin_eq (hw.forest.tree ht) hn, ?_⟩
  obtain ⟨u, hu⟩ := exists_tree_of_keeps hw hkeeps ht
  rw [run_append]
  refine ⟨u, hu, fun hlive => ?_⟩
  obtain ⟨m, hm, hbud⟩ := exists_bud_of_keeps hw hx hkeeps ht hn hu hlive
  have hlater := run_append jobs more ▸ sound_run (jobs ++ more)
  exact hlater.remembers (mem_trees_of_tree? hu) hm hbud

/-- The second number in the sum of the errands survives while the first one is replaced by a copy
of the whole sum, of which it is a part; the part that was found at it before is recognised for
it afterwards, and not for its copy. -/
theorem remembers_errands : ∃ t n part u,
    (run (errands.take 13)).forest.tree? "sum" = some t ∧ n ∈ t.nodeList ∧
    (run (errands.take 13)).forest.tree? "part1" = some part ∧
    part.candidateOrigin = some n.origin ∧
    (run (errands.take 13 ++ (errands.drop 13).take 2)).forest.tree? "sum" = some u ∧
    u.size = 5 ∧ (run (errands.take 13 ++ (errands.drop 13).take 2)).Remembers u n := by
  have hbefore : ((run (errands.take 13)).forest.tree? "sum").bind (fun t =>
      (t.nodeList[2]?).bind fun n => ((run (errands.take 13)).forest.tree? "part1").map fun part =>
        decide (part.candidateOrigin = some n.origin ∧ n.id = ⟨4⟩)) = some true := by decide
  have hafter : ((run (errands.take 13 ++ (errands.drop 13).take 2)).forest.tree? "sum").map
      (fun u => decide (u.size = 5 ∧ u.contains ⟨4⟩ = true)) = some true := by decide
  obtain ⟨t, ht, hbefore⟩ := Option.bind_eq_some_iff.mp hbefore
  obtain ⟨n, hn, hbefore⟩ := Option.bind_eq_some_iff.mp hbefore
  obtain ⟨part, hpart, hbefore⟩ := Option.map_eq_some_iff.mp hbefore
  obtain ⟨horigin, hid⟩ := of_decide_eq_true hbefore
  obtain ⟨u, hu, hafter⟩ := Option.map_eq_some_iff.mp hafter
  obtain ⟨hsize, hlive⟩ := of_decide_eq_true hafter
  have hmem := List.mem_of_getElem? hn
  have hkeeps : (run (errands.take 13)).Keeps "sum" ((errands.drop 13).take 2) :=
    ⟨by decide, by decide, trivial⟩
  obtain ⟨-, v, hv, hremembers⟩ := run_remembers (errands.take 13) ((errands.drop 13).take 2) ht
    hmem hkeeps
  obtain rfl := Option.some.inj (hu.symm.trans hv)
  exact ⟨t, n, part, u, ht, hmem, hpart, horigin, hu, hsize, hremembers (hid ▸ hlive)⟩

end Workshop

end SyntaxTree
