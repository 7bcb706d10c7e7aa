/-
SyntaxTree/Proofs/Rewriting.lean

Rewriting all outermost matches.  Putting a tree in the place of every outermost match, one after
another and in any order, is one substitution in the shape of the tree: where a node passes the
test, and none above it does, the shape of the replacement stands (`Branch.reshape`).

The replacement may hold copies of the nodes of the tree, of matches that are still to be
replaced, and of nodes that are gone.  A match that is still to be replaced carries its origin
itself, so that no grafted node can have it; that is why each candidate finds its node.
-/
import Mathlib.Algebra.GroupWithZero.Nat
import SyntaxTree.Proofs.Outermost
import SyntaxTree.Proofs.Script

namespace SyntaxTree

open Branch Relation

/-- The shape of a branch if at every marked node, unless it stands below another, the shape `σ`
stands instead. -/
def Branch.reshape (marked : NodeId → Bool) (σ : Shape) : Branch → Shape :=
  fold fun v ss => if marked v.id then σ else .node v.rule v.label ss

theorem Branch.reshape_grow (marked : NodeId → Bool) (σ : Shape) (v : Bud) (bs : List Branch) :
    (grow v bs).reshape marked σ =
      if marked v.id then σ else .node v.rule v.label (bs.map (reshape marked σ)) := by
  rw [reshape, fold_grow]

namespace Tree

/-- In `t`, copies of `r` have been put in the place of all nodes that pass the test and have none
above them that does; `ds` are copies of what stood there. -/
structure Rewritten (t : Tree) (test : Node → Bool) (ds : List Tree) (r u : Tree) : Prop where
  /-- The shape of `r` stands at every such node, and the rest of the shape is as it was. -/
  shape_eq : ∃ σ, r.branch?.map Branch.shape = some σ ∧
    u.branch?.map Branch.shape = t.branch?.map (Branch.reshape (t.passes test) σ)
  /-- A node that does not pass and is not below one that does is what it was, apart from its
  children, and stands where it stood. -/
  kept : ∀ n ∈ t.nodeList, ¬ t.Covered test n.id →
    (∃ m, u.node? n.id = some m ∧ m.bud = n.bud) ∧ u.placeOf n.id = t.placeOf n.id
  size_eq : u.size + (ds.map size).sum = t.size + ds.length * r.size

variable {t u r d : Tree} {test : Node → Bool} {c c' : Place} {s b : Branch} {next first i : NodeId}
  {at? : NodeId → Option (List Branch)} {σ : Shape} {ds : List Tree}

/-! ### One replacement -/

/-- **An upcoming branch is replaced** where it stands. -/
theorem Upcoming.edit_replace (h : t.Upcoming u c c' s d) (hu : u.Sound next) (hr : r.Sound next)
    (hb : r.Spells [b]) : ∃ g : Branch, g.shape = b.shape ∧ g.size = b.size ∧
      u.edit next (.replace d r)
        = ⟨.ok none, u.planted s.id (r.copySubtree b.id next), next.shift b.size⟩ ∧
      (u.planted s.id (r.copySubtree b.id next)).Spells (c'.plug [g]) := by
  refine ⟨u.graft s (b.copied next), ?_, ?_, hb.edit_replace h.locate_eq,
    (hu.scion hr hb).spells_planted h.now⟩
  · rw [shape_graft, shape_copied]
  · rw [Branch.size, ids_graft]
    exact size_copied next b

/-! ### The shape -/

/-- A branch with the given shapes in it has the shape with the given shape in it. -/
theorem Sound.exists_exchange_eq (ht : t.Sound next) (hat : ∀ i, at? i ≠ none ↔ i ∈ t.outermost test)
    (hfill : ∀ i fill, at? i = some fill → ∃ g : Branch, fill = [g] ∧ g.shape = σ)
    (hs : t.Spells (c.plug [s])) (habove : ∀ j, TransGen t.Child j s.id → t.passes test j = false) :
    ∃ g, s.exchange at? = [g] ∧ g.shape = s.reshape (t.passes test) σ := by
  induction s generalizing c with
  | grow v ls ih =>
    rw [reshape_grow]
    by_cases hv : t.passes test v.id = true
    · have hfound : v.id ∈ t.outermost test := ht.mem_outermost_iff.mpr
        ⟨hv, fun j hj hjv => absurd hj (by simp [habove j hjv])⟩
      obtain ⟨fill, hsome⟩ := Option.ne_none_iff_exists'.mp ((hat v.id).mpr hfound)
      obtain ⟨g, rfl, hg⟩ := hfill v.id fill hsome
      exact ⟨g, exchange_of_some hsome, hg.trans (if_pos hv).symm⟩
    · have hnone : at? v.id = none := not_not.mp fun h =>
        hv (ht.mem_outermost_iff.mp ((hat v.id).mp h)).1
      -- the branches on `v` have no match above them either
      have hlimbs : ∀ d ∈ ls, ∃ g, d.exchange at? = [g] ∧ g.shape = d.reshape (t.passes test) σ := by
        intro d hd
        obtain ⟨c', hparent, hlimb⟩ := hs.exists_limb hd
        refine ih d hd hlimb fun j hj => ?_
        obtain ⟨k, hjk, hk⟩ := TransGen.tail'_iff.mp hj
        obtain rfl : v.id = k := Option.some.inj (hparent.symm.trans (hlimb.parent_eq_of_child hk))
        rcases reflTransGen_iff_eq_or_transGen.mp hjk with rfl | hjk
        · exact Bool.not_eq_true _ ▸ hv
        · exact habove j hjk
      refine ⟨_, exchange_of_none hnone, ?_⟩
      rw [if_neg hv, shape, fold_grow]
      refine congrArg (Shape.node v.rule v.label) ?_
      clear ih hs habove
      induction ls with
      | nil => rfl
      | cons d ls ih =>
        obtain ⟨g, hd, hg⟩ := hlimbs d List.mem_cons_self
        rw [List.flatMap_cons, hd, List.singleton_append, List.map_cons, List.map_cons,
          ih fun d' hd' => hlimbs d' (List.mem_cons_of_mem _ hd')]
        exact congrArg (· :: _) hg

/-- When all outermost matches have been exchanged for branches of one shape, the tree has been
rewritten. -/
theorem Exchanged.rewritten {bs : List Branch} (ht : t.Sound next) (hs : t.Spells bs)
    (hr : r.Spells [b]) (hu : Exchanged bs (fun fill => ∃ g : Branch, fill = [g] ∧ g.shape = b.shape)
      (· ∈ t.outermost test) u)
    (hsize : u.size + (ds.map size).sum = t.size + ds.length * r.size) :
    t.Rewritten test ds r u := by
  refine ⟨⟨b.shape, ?_, ?_⟩, fun n hn hcov => ?_, hsize⟩
  · rw [hr.branch?_eq]; rfl
  · obtain ⟨at?, hat, hfill, hu⟩ := hu
    rw [hu.branch?_eq, hs.branch?_eq]
    cases hroot : t.root with
    | none =>
      obtain rfl := hs.root_eq_none_iff.mp hroot
      rfl
    | some i =>
      obtain ⟨b₀, rfl, rfl⟩ := hs.eq_singleton hroot
      have habove : ∀ j, TransGen t.Child j b₀.id → t.passes test j = false := fun j hj =>
        nomatch hs.atTop.mem_trunk_iff.mpr hj
      obtain ⟨g, hg, hshape⟩ := ht.exists_exchange_eq hat hfill hs.atTop habove
      rw [List.flatMap_singleton, hg]
      exact congrArg some hshape
  · have hclear : ∀ j, ReflTransGen t.Child j n.id → j ∉ t.outermost test := fun j hj hfound =>
      hcov ⟨j, (ht.mem_outermost_iff.mp hfound).1, hj⟩
    obtain ⟨hnode, hplace⟩ := hu.untouched hs hn hclear
    refine ⟨hnode, hplace ?_⟩
    rintro fill ⟨g, rfl, -⟩
    rfl

/-! ### All replacements -/

/-- Part of the way. The matches of which `left` are copies are still to be replaced; those of the
other `ds` have been replaced by `r`. -/
structure Underway (t : Tree) (test : Node → Bool) (ds : List Tree) (r : Tree) (b : Branch)
    (left : List Tree) (next : NodeId) (u : Tree) : Prop where
  pending : ∃ js, t.Pending test (fun fill => ∃ g : Branch, fill = [g] ∧ g.shape = b.shape) js left u
  sound : u.Sound next
  graft : r.Sound next
  size_eq : u.size + (ds.map size).sum + left.length * r.size
    = t.size + (left.map size).sum + ds.length * r.size

/-- **One replacement** goes one match further. -/
theorem Underway.edit {left : List Tree} (ht : t.Sound first) (hb : r.Spells [b])
    (h : t.Underway test ds r b (d :: left) next u) :
    (u.edit next (.replace d r)).answer = .ok none ∧ t.Underway test ds r b left
      (u.edit next (.replace d r)).next (u.edit next (.replace d r)).tree := by
  obtain ⟨js, hpending⟩ := h.pending
  obtain ⟨c, c', s, js, rfl, hup, hnext⟩ := hpending.upcoming ht
  obtain ⟨g, hshape, hg, hedit, hspells⟩ := hup.edit_replace h.sound h.graft hb
  rw [hedit]
  refine ⟨rfl, ⟨js, hnext ⟨g, rfl, hshape⟩ hspells⟩, h.sound.planted h.graft hup.now hb,
    h.graft.mono (next.le_shift b.size), ?_⟩
  -- the branch and the copy of it are of one size, and so are the graft and `r`
  have hsize := h.size_eq
  have hbefore := hup.now.size_plug
  have hafter := hspells.size_plug
  have hd := hup.copy.size_eq hup.before
  have hr : r.size = b.size := hb.size_eq
  rw [List.flatMap_singleton] at hbefore hafter
  rw [List.length_cons, Nat.succ_mul, List.map_cons, List.sum_cons] at hsize
  change u.size = c'.buds.length + s.size at hbefore
  change (u.planted s.id _).size = c'.buds.length + g.size at hafter
  show (u.planted s.id _).size + _ + _ = _
  omega

/-- **Replacing all outermost matches rewrites the tree**, in any order. -/
theorem Sound.rewritten (ht : t.Sound next) (hr : r.Sound next) (hne : r.isEmpty = false)
    (hds : ds.Perm (t.findOutermost test first).1) {script : List (Nat × Edit)}
    (hscript : script.map Prod.snd = ds.map (Edit.replace · r)) :
    (∀ e ∈ t.edits next script, e.answer = .ok none) ∧
      t.Rewritten test ds r (t.edited next script) := by
  obtain ⟨b, hb⟩ := hr.exists_branch_of_not_isEmpty hne
  have hidle : ∀ {left next u} (k : Nat), t.Underway test ds r b left next u →
      t.Underway test ds r b left (next.shift k) u := fun k h =>
    ⟨h.pending, h.sound.mono (NodeId.le_shift _ k), h.graft.mono (NodeId.le_shift _ k), h.size_eq⟩
  obtain ⟨js, -, hstart⟩ := Pending.start ht hds
  obtain ⟨hanswers, next', hlast⟩ := edits_workOff (I := t.Underway test ds r b)
    (A := fun _ e => e.answer = .ok none) hidle (·.edit ht hb) ⟨⟨js, hstart⟩, ht, hr, by omega⟩ hscript
  obtain ⟨js, hpending⟩ := hlast.pending
  obtain rfl := List.forall₂_nil_right_iff.mp hpending.copies
  obtain ⟨bs, hs, hex⟩ := hpending.exchanged
  have hall : List.Forall₂ (fun e _ => e.answer = .ok none ∧ True) (t.edits next script) ds :=
    hanswers.flip.imp fun _ _ h => ⟨h, trivial⟩
  refine ⟨((List.forall₂_and_left _ _).mp hall).1, ?_⟩
  exact (hex.congr fun i => by simp).rewritten ht hs hb (by simpa using hlast.size_eq)

end Tree

namespace Workshop

open SyntaxTree.Tree

variable {t r : Tree} {ds : List Tree} {script : List (Nat × Edit)}

/-- **Rewriting all outermost matches is substitution**, in every run: copies of any tree of the run
that is not empty can be put in the place of all outermost matches of a test, one after another
and in any order, whatever identities are used up in between, and the tree has then been
rewritten. -/
theorem run_rewrites (jobs : List Job) (ht : t ∈ (run jobs).trees) (hr : r ∈ (run jobs).trees)
    (hne : r.isEmpty = false) (test : Node → Bool) (first : NodeId)
    (hds : ds.Perm (t.findOutermost test first).1)
    (hscript : script.map Prod.snd = ds.map (Edit.replace · r)) :
    (∀ e ∈ t.edits (run jobs).forest.next script, e.answer = .ok none) ∧
      t.Rewritten test ds r (t.edited (run jobs).forest.next script) :=
  ((sound_run jobs).tree ht).rewritten ((sound_run jobs).tree hr) hne hds hscript

/-- When the sum of the errands has been copied, both numbers in it can be replaced by the whole sum,
the second one first. Each of them then stands in the tree twice more. -/
theorem rewrites_errands : ∃ t r ds script, (run (errands.take 14)).forest.tree? "sum" = some t ∧
    (run (errands.take 14)).forest.tree? "copy" = some r ∧
    ds = (t.findOutermost (fun n => n.rule = "number") (run (errands.take 14)).forest.next).1.reverse ∧
    script = ds.map (fun d => (2, Edit.replace d r)) ∧
    (ds.length, (t.edited (run (errands.take 14)).forest.next script).size) = (2, 7) ∧
    (∀ e ∈ t.edits (run (errands.take 14)).forest.next script, e.answer = .ok none) ∧
    t.Rewritten (fun n => n.rule = "number") ds r
      (t.edited (run (errands.take 14)).forest.next script) := by
  let next := (run (errands.take 14)).forest.next
  let tree := fun name : String => (run (errands.take 14)).forest.tree? name
  let found := fun t : Tree => (t.findOutermost (fun n => n.rule = "number") next).1.reverse
  have hsizes : (tree "sum").bind (fun t => (tree "copy").map fun r =>
      (r.isEmpty, (found t).length,
        (t.edited next ((found t).map fun d => (2, Edit.replace d r))).size))
      = some (false, 2, 7) := by decide
  obtain ⟨t, ht, hsizes⟩ := Option.bind_eq_some_iff.mp hsizes
  obtain ⟨r, hr, hsizes⟩ := Option.map_eq_some_iff.mp hsizes
  obtain ⟨hne, hsizes⟩ := Prod.mk.inj hsizes
  refine ⟨t, r, found t, _, ht, hr, rfl, rfl, hsizes, ?_⟩
  exact run_rewrites (errands.take 14) (mem_trees_of_tree? ht) (mem_trees_of_tree? hr) hne _ next
    (List.reverse_perm _) (by rw [List.map_map]; rfl)

end Workshop

end SyntaxTree
