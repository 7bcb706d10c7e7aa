/-
SyntaxTree/Proofs/Commute.lean

Edits in different parts of a tree commute.  Of two nodes that are apart, neither stands at the
other or below it.  What is done at the one then leaves the other at its place
(`Abreast.exists_place`), under the origin by which its candidate finds it: a copy that has been
grafted in the meantime cannot have that origin, because it was taken.

Two removals take the nodes of two branches out of the registry, and what is left does not depend on
which goes first.  When copies are grafted, the order decides which identities they get.  The trees
are then aligned, by the correspondence of what the same edit has used up in the one order
and in the other (`regraft`).
-/
import SyntaxTree.Proofs.Script
import SyntaxTree.Proofs.Without

namespace SyntaxTree

open Branch Relation

namespace Tree

/-- Neither of the nodes stands at the other or below it. -/
def Apart (t : Tree) (i j : NodeId) : Prop :=
  ¬ ReflTransGen t.Child i j ∧ ¬ ReflTransGen t.Child j i

/-- Two branches of a tree that are apart, and their places. -/
structure Abreast (t : Tree) (c c' : Place) (s s' : Branch) : Prop where
  left : t.Spells (c.plug [s])
  right : t.Spells (c'.plug [s'])
  plug_eq : c.plug [s] = c'.plug [s']
  apart : t.Apart s.id s'.id

variable {t u a b : Tree} {c c' : Place} {s s' : Branch} {next i j k : NodeId}

theorem Abreast.symm (h : t.Abreast c c' s s') : t.Abreast c' c s' s :=
  ⟨h.right, h.left, h.plug_eq.symm, h.apart.symm⟩

/-- Counterparts of which neither is an ancestor of the other stand at two places of one tree. -/
theorem Sound.exists_abreast (h : t.Sound next) {x y : Node} (hx : t.counterpart? a = some x)
    (hy : t.counterpart? b = some y) (hne : x.id ≠ y.id) (hxy : t.isAncestor x.id y.id = false)
    (hyx : t.isAncestor y.id x.id = false) :
    ∃ c c' s s', t.Abreast c c' s s' ∧ a.candidateOrigin = some s.bud.origin ∧
      b.candidateOrigin = some s'.bud.origin ∧ x = s.bottom c.parent ∧ y = s'.bottom c'.parent := by
  obtain ⟨bs, hs⟩ := h.spells
  obtain ⟨hx, ha⟩ := hs.counterpart?_eq_some_iff.mp hx
  obtain ⟨hy, hb⟩ := hs.counterpart?_eq_some_iff.mp hy
  have apart : ∀ {n m : Node}, m ∈ t.nodeList → n.id ≠ m.id → t.isAncestor n.id m.id = false →
      ¬ ReflTransGen t.Child n.id m.id := by
    intro n m hm hne hnot hnm
    have hlive : t.contains m.id = true := hs.contains_iff.mpr (List.mem_map_of_mem hm)
    have habove := (reflTransGen_iff_eq_or_transGen.mp hnm).resolve_left hne.symm
    rw [isAncestor, List.contains_iff_mem.mpr ((h.mem_ancestors_iff hlive).mpr habove)] at hnot
    cases hnot
  have hapart : t.Apart x.id y.id := ⟨apart hy hne hxy, apart hx hne.symm hyx⟩
  obtain ⟨c, s, hc, rfl⟩ := hs.exists_plug_eq hx
  obtain ⟨c', s', hc', rfl⟩ := hs.exists_plug_eq hy
  exact ⟨c, c', s, s', ⟨hc ▸ hs, hc' ▸ hs, hc.trans hc'.symm, hapart⟩, ha, hb, rfl, rfl⟩

/-- Above and below a node, nothing is given at a node that is apart from it. -/
theorem Apart.update_eq_none (h : t.Apart i j)
    (hk : ReflTransGen t.Child k j ∨ ReflTransGen t.Child j k) (fill : List Branch) :
    Function.update (fun _ => none) i (some fill) k = none := by
  refine Function.update_of_ne ?_ _ _
  rintro rfl
  exact hk.elim h.1 h.2

/-- **What is put in the place of one branch** leaves the other where it is. -/
theorem Abreast.exists_place (h : t.Abreast c c' s s') (fill : List Branch) :
    ∃ d : Place, d.parent = c'.parent ∧ c.plug fill = d.plug [s'] := by
  have hnone : ∀ j, ReflTransGen t.Child j s.id ∨ ReflTransGen t.Child s.id j →
      (fun _ => none : NodeId → Option (List Branch)) j = none := fun _ _ => rfl
  have hfilled := h.left.flatMap_exchange_update hnone fill
  rw [Place.exchange_none] at hfilled
  refine ⟨c'.exchange (Function.update (fun _ => none) s.id (some fill)), c'.parent_exchange, ?_⟩
  rw [← hfilled, h.plug_eq]
  exact h.right.flatMap_exchange fun j hj => h.apart.update_eq_none hj fill

/-! ### Two removals -/

/-- **Removing both branches**, the one after the other. -/
theorem Abreast.remove_remove (h : t.Abreast c c' s s') (ha : a.candidateOrigin = some s.bud.origin)
    (hb : b.candidateOrigin = some s'.bud.origin) :
    t.remove a = .ok ⟨s.id, (t.detach s.id).removed, t.without s.ids.contains⟩ ∧
      (t.without s.ids.contains).remove b = .ok ⟨s'.id, (t.detach s'.id).removed,
        t.without fun i => s.ids.contains i || s'.ids.contains i⟩ := by
  have hleft := h.left.spells_rest
  obtain ⟨d, hparent, hplug⟩ := h.exists_place []
  rw [h.left.rest_eq, hplug] at hleft
  -- the branches have no node in common
  have hstay : ∀ i ∈ s'.ids, s.ids.contains i = false := fun i hi =>
    ((contains_without h.left.toCoherent).mp (hleft.contains_of_mem_ids hi)).2
  refine ⟨remove_eq_ok_iff.mpr ⟨s.id, h.left.locate_id ha, by rw [h.left.rest_eq]⟩,
    remove_eq_ok_iff.mpr ⟨s'.id, hleft.locate_id hb, ?_⟩⟩
  rw [h.right.removed_without hleft hstay, h.right.rest_without hleft hparent]

end Tree

/-! ### Two edits -/

/-- The edit is one at the counterpart of `candidate`: a removal, or a replacement by one of the trees
`stock` that is not empty. -/
inductive Edit.At (candidate : Tree) (stock : List Tree) : Edit → Prop
  | remove : At candidate stock (.remove candidate)
  | replace {r : Tree} (hr : r ∈ stock) (hne : r.isEmpty = false) :
    At candidate stock (.replace candidate r)

/-- What an edit puts in the place of the subtree that it takes away: one branch at most. -/
def Edit.grafts : Edit → List Branch
  | .remove _ => []
  | .replace _ graft => graft.branch?.toList

/-- The number of identities that an edit uses up. -/
def Edit.cost (e : Edit) : Nat := (e.grafts.flatMap ids).length

namespace Branch

/-- Branches are given at two identities, and nowhere else. -/
def bothAt (i : NodeId) (fill : List Branch) (j : NodeId) (fill' : List Branch) :
    NodeId → Option (List Branch) :=
  Function.update (Function.update (fun _ => none) i (some fill)) j (some fill')

variable {i j k : NodeId} {fill fill' refill refill' : List Branch}

theorem bothAt_comm (h : i ≠ j) : bothAt i fill j fill' = bothAt j fill' i fill := by
  rw [bothAt, bothAt, Function.update_comm h]

theorem bothAt_ne_none_iff : bothAt i fill j fill' k ≠ none ↔ k = i ∨ k = j := by
  simp only [bothAt, Function.update_apply]
  split_ifs with hkj hki <;> simp [*]

/-- What is given is aligned if it is aligned at both identities. -/
theorem alignedBy_bothAt {f : NodeId → NodeId} (h : AlignedBy f fill refill)
    (h' : AlignedBy f fill' refill') (i j k : NodeId) :
    Option.Rel (AlignedBy f) (bothAt i fill j fill' k) (bothAt i refill j refill' k) :=
  alignedBy_update (alignedBy_update (fun _ => .none) h i) h' j k

end Branch

/-- The edit has succeeded, and leaves a tree that spells `bs` when `next` is the first free
identity. -/
structure Edited.Leaves (d : Edited) (next : NodeId) (bs : List Branch) : Prop where
  succeeds : ∃ piece?, d.answer = .ok piece?
  next_eq : d.next = next
  sound : d.tree.Sound next
  spells : d.tree.Spells bs

namespace Tree

variable {t u a b : Tree} {c c' : Place} {s s' : Branch} {next i j : NodeId} {stock : List Tree}
  {e e' : Edit} {at? at?' : NodeId → Option (List Branch)}

/-- **An edit at a place** succeeds, and fills the place with copies of what it grafts, but for
their origins. -/
theorem Sound.edit_at (hu : u.Sound next) (hs : u.Spells (c.plug [s])) (he : e.At a stock)
    (hstock : ∀ r ∈ stock, r.Sound next) (ha : a.candidateOrigin = some s.bud.origin) :
    ∃ fill, (u.edit next e).Leaves (next.shift e.cost) (c.plug fill) ∧
      Branch.AlignedBy (fun i => i) fill (e.grafts.map (copied next)) := by
  cases he with
  | remove =>
    refine ⟨[], ?_, rfl⟩
    rw [edit_remove (hs.locate_id ha)]
    exact ⟨⟨_, rfl⟩, rfl, (hu.detach hs.contains_id).2, hs.spells_rest⟩
  | @replace r hr hne =>
    obtain ⟨b, hb⟩ := (hstock r hr).exists_branch_of_not_isEmpty hne
    have hgrafts : (Edit.replace a r).grafts = [b] := by rw [Edit.grafts, hb.branch?_eq]; rfl
    have hcost : (Edit.replace a r).cost = b.size := by
      rw [Edit.cost, hgrafts, List.flatMap_singleton]; rfl
    have hsettle : Branch.AlignedBy (fun i => i) [b.copied next] [u.graft s (b.copied next)] := by
      refine alignedBy_map (fun v => ?_) [b.copied next]
      rw [Bud.under, Bud.id_settle, Bud.rule_settle, Bud.label_settle]
      rfl
    refine ⟨[u.graft s (b.copied next)], ?_, ?_⟩
    · rw [hb.edit_replace (hs.locate_id ha), hcost]
      exact ⟨⟨_, rfl⟩, rfl, hu.planted (hstock r hr) hs hb,
        (hu.scion (hstock r hr) hb).spells_planted hs⟩
    · rw [hgrafts]
      exact hsettle.symm

/-- An edit after others is one more exchange, if what they have exchanged is neither above nor
below. -/
theorem Sound.edit_exchange (hu : u.Sound next) (hs : t.Spells (c.plug [s]))
    (hus : u.Spells ((c.plug [s]).flatMap (exchange at?)))
    (hnone : ∀ j, ReflTransGen t.Child j s.id ∨ ReflTransGen t.Child s.id j → at? j = none)
    (he : e.At a stock) (hstock : ∀ r ∈ stock, r.Sound next)
    (ha : a.candidateOrigin = some s.bud.origin) :
    ∃ fill, (u.edit next e).Leaves (next.shift e.cost)
        ((c.plug [s]).flatMap (exchange (Function.update at? s.id (some fill)))) ∧
      Branch.AlignedBy (fun i => i) fill (e.grafts.map (copied next)) := by
  rw [hs.flatMap_exchange hnone] at hus
  obtain ⟨fill, hedit, hfill⟩ := hu.edit_at hus he hstock ha
  exact ⟨fill, hs.flatMap_exchange_update hnone fill ▸ hedit, hfill⟩

/-- **Editing at both branches**, the one after the other, exchanges them. -/
theorem Abreast.edit_edit (h : t.Abreast c c' s s') (ht : t.Sound next)
    (hstock : ∀ r ∈ stock, r.Sound next) (he : e.At a stock) (he' : e'.At b stock)
    (ha : a.candidateOrigin = some s.bud.origin) (hb : b.candidateOrigin = some s'.bud.origin)
    (k k' : Nat) :
    ∃ fill fill',
      (∀ d ∈ t.edits next [(k, e), (k', e')], ∃ piece?, d.answer = .ok piece?) ∧
      (t.edited next [(k, e), (k', e')]).Spells
        ((c.plug [s]).flatMap (exchange (bothAt s.id fill s'.id fill'))) ∧
      Branch.AlignedBy (fun i => i) fill (e.grafts.map (copied (next.shift k))) ∧
      Branch.AlignedBy (fun i => i) fill'
        (e'.grafts.map (copied (((next.shift k).shift e.cost).shift k'))) := by
  let first := next.shift k
  let second := (first.shift e.cost).shift k'
  have hfirst : next ≤ first := next.le_shift k
  have hsecond : first.shift e.cost ≤ second := (first.shift e.cost).le_shift k'
  have hle : next ≤ second :=
    NodeId.le_trans hfirst (NodeId.le_trans (first.le_shift e.cost) hsecond)
  obtain ⟨fill, hedit, hfill⟩ := (ht.mono hfirst).edit_exchange h.left
    (show t.Spells _ by rw [flatMap_exchange_none]; exact h.left) (fun _ _ => rfl) he
    (fun r hr => (hstock r hr).mono hfirst) ha
  have hspells := hedit.spells
  rw [h.plug_eq] at hspells
  obtain ⟨fill', hedit', hfill'⟩ := (hedit.sound.mono hsecond).edit_exchange h.right hspells
    (fun j hj => h.apart.update_eq_none hj fill) he' (fun r hr => (hstock r hr).mono hle) hb
  have hedits : t.edits next [(k, e), (k', e')]
      = [t.edit first e, (t.edit first e).tree.edit second e'] := by
    show [t.edit first e, (t.edit first e).tree.edit ((t.edit first e).next.shift k') e'] = _
    rw [hedit.next_eq]
  refine ⟨fill, fill', ?_, ?_, hfill, hfill'⟩
  · rw [hedits]
    exact List.forall_mem_cons.mpr ⟨hedit.succeeds, List.forall_mem_singleton.mpr hedit'.succeeds⟩
  · rw [edited, hedits, h.plug_eq]
    exact hedit'.spells

/-- A node that stands neither at one of two exchanged branches nor below is what it was, apart from
its children. -/
theorem Spells.survives {bs : List Branch} (ht : t.Spells bs) {fill fill' : List Branch}
    (hu : u.Spells (bs.flatMap (exchange (bothAt i fill j fill')))) {n : Node}
    (hn : n ∈ t.nodeList) (hi : ¬ ReflTransGen t.Child i n.id)
    (hj : ¬ ReflTransGen t.Child j n.id) : ∃ m, u.node? n.id = some m ∧ m.bud = n.bud := by
  have hex : Exchanged bs (fun _ => True) (fun k => k = i ∨ k = j) u :=
    ⟨bothAt i fill j fill', fun _ => bothAt_ne_none_iff, fun _ _ _ => trivial, hu⟩
  refine (hex.untouched ht hn ?_).1
  rintro k hk (rfl | rfl)
  · exact hi hk
  · exact hj hk

/-- The edits of both scripts succeed, and leave aligned trees. The nodes of `t` that stand neither at
`i` nor at `j` nor below one of them are what they were in both trees, apart from their children,
and correspond to themselves. -/
structure Interchange (t : Tree) (next i j : NodeId) (script script' : List (Nat × Edit)) : Prop where
  succeeds : ∀ d ∈ t.edits next script ++ t.edits next script', ∃ piece?, d.answer = .ok piece?
  aligned : ∃ f, (t.edited next script).AlignedBy f (t.edited next script') ∧
    ∀ n ∈ t.nodeList, ¬ ReflTransGen t.Child i n.id → ¬ ReflTransGen t.Child j n.id →
      f n.id = n.id ∧ (∃ m, (t.edited next script).node? n.id = some m ∧ m.bud = n.bud) ∧
        ∃ m, (t.edited next script').node? n.id = some m ∧ m.bud = n.bud

/-- Exchanging aligned branches in a tree leaves aligned branches, if the identities that are in use
correspond to themselves. -/
theorem Sound.alignedBy_exchange {bs : List Branch} {f : NodeId → NodeId} (ht : t.Sound next)
    (hs : t.Spells bs) (hf : ∀ i < next, f i = i)
    (hat : ∀ k, Option.Rel (Branch.AlignedBy f) (at? k) (at?' k)) :
    Branch.AlignedBy f (bs.flatMap (exchange at?)) (bs.flatMap (exchange at?')) := by
  refine alignedBy_flatMap fun b hb => Branch.alignedBy_exchange hat fun i hi => ?_
  obtain ⟨v, hv, rfl⟩ := List.mem_map.mp hi
  exact hf v.id (ht.lt_of_mem_buds hs (List.mem_flatMap.mpr ⟨b, hb, hv⟩))

/-- **Two edits at branches that are apart** can be made in either order. -/
theorem Abreast.interchange (h : t.Abreast c c' s s') (ht : t.Sound next)
    (hstock : ∀ r ∈ stock, r.Sound next) (he : e.At a stock) (he' : e'.At b stock)
    (ha : a.candidateOrigin = some s.bud.origin) (hb : b.candidateOrigin = some s'.bud.origin)
    (k k' l l' : Nat) :
    t.Interchange next s.id s'.id [(k, e), (k', e')] [(l', e'), (l, e)] := by
  obtain ⟨fill, fill', hok, hu, hfill, hfill'⟩ := h.edit_edit ht hstock he he' ha hb k k'
  obtain ⟨refill', refill, hok', hv, hrefill', hrefill⟩ := h.symm.edit_edit ht hstock he' he hb ha l' l
  have hne : s'.id ≠ s.id := fun hid => h.apart.2 (hid ▸ .refl)
  rw [← h.plug_eq, bothAt_comm hne] at hv
  -- the first identities that the edits use up, in the one order and in the other
  let n := next.shift k
  let n' := (n.shift e.cost).shift k'
  let m' := next.shift l'
  let m := (m'.shift e'.cost).shift l
  let f := regraft n' m' (regraft n m fun i => i)
  have hn : n.shift e.cost ≤ n' := (n.shift e.cost).le_shift k'
  have hf : ∀ i < next, f i = i := by
    intro i hi
    have hin : i < n := NodeId.lt_of_lt_of_le hi (next.le_shift k)
    have hin' : i < n' := NodeId.lt_of_lt_of_le hin (NodeId.le_trans (n.le_shift e.cost) hn)
    exact (regraft_of_lt hin').trans (regraft_of_lt hin)
  have hcopies : Branch.AlignedBy f (e.grafts.map (copied n)) (e.grafts.map (copied m)) := by
    refine alignedBy_copied fun q hq => ?_
    have hlt : n.shift q < n' := NodeId.lt_of_lt_of_le (Nat.add_lt_add_left hq n.val) hn
    exact (regraft_of_lt hlt).trans (regraft_shift q)
  have hcopies' : Branch.AlignedBy f (e'.grafts.map (copied n')) (e'.grafts.map (copied m')) :=
    alignedBy_copied fun q _ => regraft_shift q
  have hleft : Branch.AlignedBy f fill refill := (hfill.trans hcopies).trans hrefill.symm
  have hright : Branch.AlignedBy f fill' refill' := (hfill'.trans hcopies').trans hrefill'.symm
  have hbranches := ht.alignedBy_exchange h.left hf (alignedBy_bothAt hleft hright s.id s'.id)
  refine ⟨List.forall_mem_append.mpr ⟨hok, hok'⟩, f, hu.alignedBy hv hbranches, ?_⟩
  exact fun x hx hi hj => ⟨hf x.id (ht.used x hx).1, h.left.survives hu hx hi hj,
    h.left.survives hv hx hi hj⟩

end Tree

namespace Workshop

open SyntaxTree.Tree

variable {t a b : Tree} {x y : Node}

/-- **Edits in different parts of a tree commute**, in every run, wherever two candidates have
counterparts of which neither is an ancestor of the other. Two removals hand out the same trees in
either order and leave the same tree; and any two edits, whatever identities are used up in
between, leave aligned trees. -/
theorem run_commutes (jobs : List Job) (ht : t ∈ (run jobs).trees) (hx : t.counterpart? a = some x)
    (hy : t.counterpart? b = some y) (hne : x.id ≠ y.id) (hxy : t.isAncestor x.id y.id = false)
    (hyx : t.isAncestor y.id x.id = false) :
    (∃ p q left left' both,
      t.remove a = .ok ⟨x.id, p, left⟩ ∧ left.remove b = .ok ⟨y.id, q, both⟩ ∧
      t.remove b = .ok ⟨y.id, q, left'⟩ ∧ left'.remove a = .ok ⟨x.id, p, both⟩) ∧
    ∀ e e' : Edit, e.At a (run jobs).trees → e'.At b (run jobs).trees → ∀ k k' l l' : Nat,
      t.Interchange (run jobs).forest.next x.id y.id [(k, e), (k', e')] [(l', e'), (l, e)] := by
  have hsound := (sound_run jobs).tree ht
  obtain ⟨c, c', s, s', h, ha, hb, rfl, rfl⟩ := hsound.exists_abreast hx hy hne hxy hyx
  refine ⟨?_, fun e e' he he' k k' l l' => ?_⟩
  · obtain ⟨hfirst, hsecond⟩ := h.remove_remove ha hb
    obtain ⟨hfirst', hsecond'⟩ := h.symm.remove_remove hb ha
    have hboth : (fun i => s'.ids.contains i || s.ids.contains i)
        = fun i => s.ids.contains i || s'.ids.contains i := funext fun i => Bool.or_comm _ _
    rw [hboth] at hsecond'
    exact ⟨_, _, _, _, _, hfirst, hsecond, hfirst', hsecond'⟩
  · exact h.interchange hsound (fun r hr => (sound_run jobs).tree hr) he he' ha hb k k' l l'

/-- The numbers in the sum of the errands stand side by side. Both can be removed, and a copy of the
whole sum can be put in the place of each, in either order. -/
theorem commutes_errands : ∃ t a b r x y, (run (errands.take 14)).forest.tree? "sum" = some t ∧
    (run (errands.take 14)).forest.tree? "part0" = some a ∧
    (run (errands.take 14)).forest.tree? "part1" = some b ∧
    (run (errands.take 14)).forest.tree? "copy" = some r ∧
    t.counterpart? a = some x ∧ t.counterpart? b = some y ∧ x.id ≠ y.id ∧
    t.isAncestor x.id y.id = false ∧ t.isAncestor y.id x.id = false ∧
    (∃ p q left left' both,
      t.remove a = .ok ⟨x.id, p, left⟩ ∧ left.remove b = .ok ⟨y.id, q, both⟩ ∧
      t.remove b = .ok ⟨y.id, q, left'⟩ ∧ left'.remove a = .ok ⟨x.id, p, both⟩) ∧
    t.Interchange (run (errands.take 14)).forest.next x.id y.id
      [(0, .replace a r), (3, .replace b r)] [(5, .replace b r), (1, .replace a r)] := by
  let tree := fun name : String => (run (errands.take 14)).forest.tree? name
  have hfacts : (tree "sum").bind (fun t => (tree "part0").bind fun a => (tree "part1").bind fun b =>
      (tree "copy").bind fun r => (t.counterpart? a).bind fun x => (t.counterpart? b).map fun y =>
        (decide (x.id = y.id), t.isAncestor x.id y.id, t.isAncestor y.id x.id, r.isEmpty))
      = some (false, false, false, false) := by decide
  obtain ⟨t, ht, hfacts⟩ := Option.bind_eq_some_iff.mp hfacts
  obtain ⟨a, ha, hfacts⟩ := Option.bind_eq_some_iff.mp hfacts
  obtain ⟨b, hb, hfacts⟩ := Option.bind_eq_some_iff.mp hfacts
  obtain ⟨r, hr, hfacts⟩ := Option.bind_eq_some_iff.mp hfacts
  obtain ⟨x, hx, hfacts⟩ := Option.bind_eq_some_iff.mp hfacts
  obtain ⟨y, hy, hfacts⟩ := Option.map_eq_some_iff.mp hfacts
  simp only [Prod.mk.injEq] at hfacts
  obtain ⟨hsame, hxy, hyx, hempty⟩ := hfacts
  have hne := of_decide_eq_false hsame
  have hcommutes := run_commutes (errands.take 14) (mem_trees_of_tree? ht) hx hy hne hxy hyx
  have hknown := mem_trees_of_tree? hr
  exact ⟨t, a, b, r, x, y, ht, ha, hb, hr, hx, hy, hne, hxy, hyx, hcommutes.1,
    hcommutes.2 _ _ (.replace hknown hempty) (.replace hknown hempty) 0 3 1 5⟩

end Workshop

end SyntaxTree
