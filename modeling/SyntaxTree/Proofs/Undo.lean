/-
SyntaxTree/Proofs/Undo.lean

Taking a replacement back.  A copy `old` of the subtree at a node is taken before another tree
`r` is put in its place; then `old` is put in the place of `r`.  In between, the graft is found
again by the origin of its root, and the origins of the subtree that was replaced are free.

    c.plug [s]  ~>  c.plug [graft of r]  ~>  c.plug [s under other identities]

The first step keeps the origin of the root of `r` if none of the survivors carries it.  In
the second step nothing has to give way: the survivors are those of the first step, and they
carry none of the origins of `s` (`Spells.graft_eq_self`).  So every node of the subtree is
back, under another identity and with its own origin (`Sound.restore`).
-/
import SyntaxTree.Proofs.Pruning
import SyntaxTree.Proofs.Replica

namespace SyntaxTree

open Branch Relation

theorem Branch.map_eq_self {g : Bud → Bud} {b : Branch} (h : ∀ v ∈ b.buds, g v = v) :
    b.map g = b := by
  induction b with
  | grow v bs ih =>
    rw [buds_grow] at h
    rw [map_grow, h v List.mem_cons_self]
    refine congrArg (grow v) (SyntaxTree.map_eq_self fun b hb => ih b hb fun w hw => ?_)
    exact h w (List.mem_cons_of_mem _ (List.mem_flatMap.mpr ⟨b, hb, hw⟩))

theorem Place.map_eq_self {g : Bud → Bud} {c : Place} (h : ∀ v ∈ c.buds, g v = v) :
    c.map g = c := by
  have side : ∀ bs : List Branch, (∀ v ∈ bs.flatMap Branch.buds, g v = v) →
      bs.map (Branch.map g) = bs := fun bs hbs =>
    SyntaxTree.map_eq_self fun b hb => Branch.map_eq_self fun v hv =>
      hbs v (List.mem_flatMap.mpr ⟨b, hb, hv⟩)
  induction c with
  | top => rfl
  | on v l r up ih =>
    simp only [buds, List.mem_append, List.mem_cons] at h
    rw [map, ih fun w hw => h w (.inl hw), h v (.inr (.inl rfl)),
      side l fun w hw => h w (.inr (.inr (.inl hw))), side r fun w hw => h w (.inr (.inr (.inr hw)))]

namespace Tree

/-- The tree `u` is `t` once more, but for the identities of the nodes at `i` and below: origins,
rules, labels and relatives are what they were, and whatever was found in `t` is found in `u`. -/
structure RestoredBy (f : NodeId → NodeId) (t : Tree) (i : NodeId) (u : Tree) : Prop where
  isomorphic : t.IsomorphicBy f u
  outside : ∀ j, t.contains j = true → ¬ ReflTransGen t.Child i j → f j = j
  counterpart : ∀ d, (u.counterpart? d).map Node.id = ((t.counterpart? d).map Node.id).map f
  name_eq : u.name = t.name

variable {t u r old candidate : Tree} {c : Place} {s q b : Branch} {x : Node}
  {next first i : NodeId} {f : NodeId → NodeId}

/-! ### Isomorphic trees -/

/-- A candidate is found at corresponding nodes of isomorphic trees, or in neither. -/
theorem IsomorphicBy.counterpart (h : t.IsomorphicBy f u) (ht : t.Coherent) (hu : u.Coherent)
    (d : Tree) : (u.counterpart? d).map Node.id = ((t.counterpart? d).map Node.id).map f := by
  cases hn : t.counterpart? d with
  | some n =>
    obtain ⟨hmem, ho⟩ := ht.counterpart?_eq_some_iff.mp hn
    obtain ⟨m, hm, -, -, horigin, -⟩ := h.node n hmem
    obtain ⟨hm, hid⟩ := hu.node?_eq_some_iff.mp hm
    rw [hu.counterpart?_eq_some_iff.mpr ⟨hm, horigin ▸ ho⟩, Option.map_some, hid]
    rfl
  | none =>
    rw [Option.map_none, Option.map_none, Option.map_eq_none_iff, hu.counterpart?_eq_none_iff]
    intro m hm ho
    -- the node would correspond to one with the same origin
    obtain ⟨j, hj, hjm⟩ := h.bijOn.surjOn (hu.contains_iff.mpr (List.mem_map_of_mem hm))
    obtain ⟨n, hmem, rfl⟩ := List.mem_map.mp (ht.contains_iff.mp hj)
    obtain ⟨m', hm', -, -, horigin, -⟩ := h.node n hmem
    rw [hjm, hu.node?_id hm] at hm'
    obtain rfl := Option.some.inj hm'
    exact ht.counterpart?_eq_none_iff.mp hn n hmem (horigin ▸ ho)

/-! ### Free origins -/

namespace Spells

/-- **A branch is grafted as it is** if its origins are free around the place. -/
theorem graft_eq_self (h : t.Spells (c.plug [s]))
    (hfree : ∀ v ∈ c.buds, ∀ w ∈ q.buds, v.origin ≠ w.origin) : t.graft s q = q := by
  refine Branch.map_eq_self fun w hw => if_neg fun htaken => ?_
  obtain ⟨v, hv, horigin⟩ := h.mem_origins_survivors.mp htaken
  exact hfree v hv w hw horigin

/-- The root of a graft keeps an origin that is free around the place. -/
theorem origin_graft (h : t.Spells (c.plug [s])) (hfree : ∀ v ∈ c.buds, v.origin ≠ q.bud.origin) :
    (t.graft s q).bud.origin = q.bud.origin := by
  rw [graft, bud_map, Bud.origin_settle, if_neg]
  intro htaken
  obtain ⟨v, hv, horigin⟩ := h.mem_origins_survivors.mp htaken
  exact hfree v hv horigin

/-- The nodes around a place are those that are not reached from the node there. -/
theorem not_reflTransGen_of_mem_buds (h : t.Spells (c.plug [s])) {v : Bud} (hv : v ∈ c.buds) :
    ¬ ReflTransGen t.Child s.id v.id := by
  intro hreach
  obtain ⟨w, hw, hid⟩ := List.mem_map.mp (h.reflTransGen_child_iff.mp hreach)
  exact h.key_ne h.nodup_ids hv hw hid.symm

end Spells

/-! ### Restoring -/

/-- The identities after a branch has been put back: those in it are new, all others are kept. -/
def renewal (s : Branch) (g : NodeId → NodeId) (i : NodeId) : NodeId := if i ∈ s.ids then g i else i

/-- A place filled with a renumbered branch is the filled place with its identities renewed. -/
theorem Spells.plug_renumber (h : t.Spells (c.plug [s])) (ht : t.Sound next)
    (g : NodeId → NodeId) : c.plug [s.renumber g]
      = (c.plug [s]).map (Branch.map (Bud.twin next (renewal s g))) := by
  have hold : ∀ v ∈ c.buds ++ s.buds, v.id < next := fun v hv =>
    ht.lt_of_mem_buds h ((c.perm_buds_plug [s]).mem_iff.mpr (by rwa [List.flatMap_singleton]))
  have hplace : c.map (Bud.twin next (renewal s g)) = c := by
    refine Place.map_eq_self fun v hv => ?_
    have hout : v.id ∉ s.ids := fun hmem =>
      h.not_reflTransGen_of_mem_buds hv (h.reflTransGen_child_iff.mpr hmem)
    rw [Bud.twin_of_lt (hold v (List.mem_append_left _ hv)), renewal, if_neg hout]
  have hbranch : s.map (Bud.twin next (renewal s g)) = s.renumber g := by
    refine Branch.map_congr fun v hv => ?_
    rw [Bud.twin_of_lt (hold v (List.mem_append_right _ hv)), renewal,
      if_pos (show v.id ∈ s.ids from List.mem_map_of_mem hv)]
    rfl
  rw [Place.map_plug, hplace, List.map_singleton, hbranch]

/-- **What was replaced can be put back.** The graft is found by the origin of its root if that was
free, and whatever `old` has in the place of `s` has its own origins there. -/
theorem Sound.restore (ht : t.Sound next) (hr : r.Sound next) (ho : old.Sound next)
    (hs : t.Spells (c.plug [s])) (hb : r.Spells [b]) {g : NodeId → NodeId}
    (hold : old.Spells [s.renumber g]) (hcandidate : t.locate candidate = .ok s.id)
    (hfree : ∀ v ∈ c.buds, v.origin ≠ b.bud.origin) (k : Nat) :
    ∃ out back f, t.replace candidate r next = .ok out ∧
      out.result.replace r old ((next.shift out.added).shift k) = .ok back ∧
      t.RestoredBy f s.id back.result := by
  let later := (next.shift b.size).shift k
  have hlater : next ≤ later := NodeId.le_trans (next.le_shift _) ((next.shift b.size).le_shift k)
  -- the tree in between
  have hgraft := (ht.scion hr hb).spells_planted hs
  have hsound := (ht.planted hr hs hb).mono (NodeId.le_shift _ k)
  have hroot : (t.graft s (b.copied next)).bud.origin = b.bud.origin := by
    have hcopied : (b.copied next).bud.origin = b.bud.origin := by rw [copied, bud_map]
    rw [hs.origin_graft (hcopied ▸ hfree), hcopied]
  have hfound : (t.planted s.id (r.copySubtree b.id next)).locate r
      = .ok (t.graft s (b.copied next)).id := by
    refine hgraft.locate_id ?_
    rw [candidateOrigin, hb.rootNode?_eq, hroot]
    rfl
  -- the tree afterwards
  have hscion := hsound.scion (ho.mono hlater) hold
  have hback := hscion.spells_planted hgraft
  have hcopy : (s.renumber g).copied later
      = s.renumber fun i => (s.renumber g).copiedId later (g i) := renumber_renumber g _ s
  rw [hcopy] at hback
  have horigins : ∀ v ∈ c.buds, ∀ w ∈ (s.renumber fun i =>
      (s.renumber g).copiedId later (g i)).buds, v.origin ≠ w.origin := by
    intro v hv w hw
    rw [renumber, buds_map] at hw
    obtain ⟨w', hw', rfl⟩ := List.mem_map.mp hw
    exact show v.origin ≠ w'.origin from hs.key_ne hs.nodup_origins hv hw'
  rw [hgraft.graft_eq_self horigins, hs.plug_renumber ht] at hback
  have hpaired : Paired next (renewal s _) (c.plug [s]) t _ := ⟨hs, hback, fun v hv hle =>
    absurd (ht.lt_of_mem_buds hs hv) (NodeId.not_lt_of_le hle)⟩
  have hiso := hpaired.twinsBy.isomorphicBy ht
  refine ⟨_, _, _, hb.replace_eq hcandidate, hold.replace_eq hfound, hiso, ?_,
    hiso.counterpart hs.toCoherent hback.toCoherent, ?_⟩
  · intro j _ hj
    exact if_neg fun hmem => hj (hs.reflTransGen_child_iff.mpr hmem)
  · rw [hscion.planted_eq hgraft, (ht.scion hr hb).planted_eq hs]
    rfl

end Tree

namespace Workshop

open SyntaxTree.Tree

/-- **A replacement can be undone**, in every run: if a copy `old` of the subtree at the counterpart
of a candidate has been taken, and no node outside the subtree has the origin of the root of `r`,
then `r` can be put in the place of the subtree and `old` in the place of `r`, whatever identities
are used up in between. The tree is then what it was, but for the identities in the subtree. -/
theorem run_undoes (jobs : List Job) {t r old : Tree} (ht : t ∈ (run jobs).trees)
    (hr : r ∈ (run jobs).trees) (ho : old ∈ (run jobs).trees) (hne : r.isEmpty = false)
    {candidate : Tree} {x : Node} (hx : t.counterpart? candidate = some x) {first : NodeId}
    (hold : t.extract x.id first = some old)
    (hfree : ∀ m ∈ t.nodeList, r.candidateOrigin = some m.origin → ReflTransGen t.Child x.id m.id)
    (k : Nat) :
    ∃ out back f, t.replace candidate r (run jobs).forest.next = .ok out ∧
      out.result.replace r old (((run jobs).forest.next.shift out.added).shift k) = .ok back ∧
      t.RestoredBy f x.id back.result := by
  have hsound := (sound_run jobs).tree ht
  obtain ⟨bs, hbs⟩ := hsound.spells
  obtain ⟨b, hb⟩ := ((sound_run jobs).tree hr).exists_branch_of_not_isEmpty hne
  obtain ⟨c, s, rfl, rfl⟩ := hbs.exists_plug_eq (hbs.counterpart?_eq_some_iff.mp hx).1
  have hcopy : old.Spells [s.renumber (s.copiedId first)] := by
    rw [extract, show (s.bottom c.parent).id = s.id from rfl, if_pos hbs.contains_id] at hold
    exact Option.some.inj hold ▸ hbs.copySubtree first
  refine hsound.restore ((sound_run jobs).tree hr) ((sound_run jobs).tree ho) hbs hb hcopy
    (hbs.locate_eq_ok_iff.mpr ⟨_, hx, rfl⟩) (fun v hv horigin => ?_) k
  -- a node around the place with the origin of `r` would have to be in the subtree
  have hmem := (c.perm_buds_plug [s]).mem_iff.mpr (List.mem_append_left _ hv)
  obtain ⟨m, hm, rfl⟩ := hbs.mem_buds_iff.mp hmem
  refine hbs.not_reflTransGen_of_mem_buds hv (hfree m hm ?_)
  rw [candidateOrigin, hb.rootNode?_eq]
  exact congrArg some horigin.symm

/-- When a copy of the whole sum of the errands has been kept, a copy of its first number can be put
in the place of the sum, which leaves a tree of one node, and the kept copy in the place of that. -/
theorem undoes_errands : ∃ jobs t r old candidate x,
    jobs = errands.take 14 ++ [.command (.extract "sum" ⟨1⟩ (some "kept"))] ∧
    (run jobs).forest.tree? "sum" = some t ∧ (run jobs).forest.tree? "part0" = some r ∧
    (run jobs).forest.tree? "kept" = some old ∧ (run jobs).forest.tree? "copy" = some candidate ∧
    t.counterpart? candidate = some x ∧ t.extract x.id ⟨10⟩ = some old ∧ (t.size, r.size) = (3, 1) ∧
    ∃ out back f, t.replace candidate r (run jobs).forest.next = .ok out ∧
      out.result.replace r old (((run jobs).forest.next.shift out.added).shift 2) = .ok back ∧
      t.RestoredBy f x.id back.result := by
  let jobs := errands.take 14 ++ [.command (.extract "sum" ⟨1⟩ (some "kept"))]
  let tree := fun name : String => (run jobs).forest.tree? name
  have hfacts : (tree "sum").bind (fun t => (tree "part0").bind fun r => (tree "kept").bind fun _ =>
      (tree "copy").bind fun candidate => (t.counterpart? candidate).map fun x =>
        decide (x.id = ⟨1⟩ ∧ t.root = some x.id ∧ r.isEmpty = false ∧ (t.size, r.size) = (3, 1)))
      = some true := by decide
  have hkept : (tree "sum").bind (fun t => t.extract ⟨1⟩ ⟨10⟩) = tree "kept" := by rfl
  obtain ⟨t, ht, hfacts⟩ := Option.bind_eq_some_iff.mp hfacts
  obtain ⟨r, hr, hfacts⟩ := Option.bind_eq_some_iff.mp hfacts
  obtain ⟨old, ho, hfacts⟩ := Option.bind_eq_some_iff.mp hfacts
  obtain ⟨candidate, hc, hfacts⟩ := Option.bind_eq_some_iff.mp hfacts
  obtain ⟨x, hx, hfacts⟩ := Option.map_eq_some_iff.mp hfacts
  obtain ⟨hid, hroot, hne, hsizes⟩ := of_decide_eq_true hfacts
  rw [ht, ho] at hkept
  have hold : t.extract x.id ⟨10⟩ = some old := hid ▸ hkept
  have htrees := mem_trees_of_tree? ht
  -- the sum has no nodes outside the subtree at its root
  have hfree : ∀ m ∈ t.nodeList, r.candidateOrigin = some m.origin →
      ReflTransGen t.Child x.id m.id := fun m hm _ => by
    obtain ⟨bs, hs⟩ := ((sound_run jobs).tree htrees).spells
    exact hs.wellFormed.reachable _ _ hroot (hs.contains_iff.mpr (List.mem_map_of_mem hm))
  exact ⟨jobs, t, r, old, candidate, x, rfl, ht, hr, ho, hc, hx, hold, hsizes,
    run_undoes jobs htrees (mem_trees_of_tree? hr) (mem_trees_of_tree? ho) hne hx hold hfree 2⟩

end Workshop

end SyntaxTree
