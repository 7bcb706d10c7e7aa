/-
SyntaxTree/Proofs/Outermost.lean

What the outermost search finds.  A node is covered if it passes the test or stands below a
node that does.  The search finds the nodes that pass and are not covered from above
(`mem_outermost_iff`); none of them stands below another (`eq_of_mem_outermost`), and a node is
covered if and only if it stands at one of them or below (`covered_iff`).

The copies that are handed out stand for the nodes found, one for one and in any order
(`exists_perm_copies`).  When the nodes are changed one after another, those that are still to be
changed stand as they were (`Pending`), and so every copy finds its node when its turn comes
(`Pending.upcoming`).
-/
import SyntaxTree.Proofs.Exchange
import SyntaxTree.Proofs.Recall

namespace SyntaxTree

open Branch Relation

namespace Tree

variable {t d : Tree} {test : Node → Bool} {c : Place} {s : Branch}
  {first next i j : NodeId}

/-! ### Covered nodes -/

/-- Whether the live node of an identity passes the test. -/
def passes (t : Tree) (test : Node → Bool) (i : NodeId) : Bool := (t.node? i).any test

/-- The node passes the test, or one above it does. -/
def Covered (t : Tree) (test : Node → Bool) (i : NodeId) : Prop :=
  ∃ j, t.passes test j = true ∧ ReflTransGen t.Child j i

/-- Whether a node passes the test, or one that is met on the way up from it. -/
def covers (t : Tree) (test : Node → Bool) (i : NodeId) : Bool :=
  (i :: t.ancestors i).any (t.passes test)

theorem contains_of_passes (h : t.passes test i = true) : t.contains i = true := by
  rw [passes] at h
  cases hn : t.node? i with
  | none => rw [hn] at h; cases h
  | some n => exact Option.isSome_iff_exists.mpr ⟨n, hn⟩

theorem Coherent.mem_matching_iff (h : t.Coherent) :
    i ∈ t.matching test ↔ t.passes test i = true := by
  rw [matching, List.mem_map, passes]
  constructor
  · rintro ⟨n, hn, rfl⟩
    obtain ⟨hmem, hp⟩ := List.mem_filter.mp hn
    rw [h.node?_id hmem]
    exact hp
  · intro hp
    cases hn : t.node? i with
    | none => rw [hn] at hp; cases hp
    | some n =>
      rw [hn] at hp
      obtain ⟨hmem, hid⟩ := h.node?_eq_some_iff.mp hn
      exact ⟨n, List.mem_filter.mpr ⟨hmem, hp⟩, hid⟩

theorem Sound.covers_iff (h : t.Sound next) (hi : t.contains i = true) :
    t.covers test i = true ↔ t.Covered test i := by
  rw [covers, List.any_eq_true]
  refine exists_congr fun j => ?_
  rw [List.mem_cons, h.mem_ancestors_iff hi, reflTransGen_iff_eq_or_transGen, and_comm, @eq_comm _ j i]

namespace Sound

variable (h : t.Sound next)

include h

/-! ### What is found -/

/-- **The outermost matches** are the nodes that pass and have none above them that does. -/
theorem mem_outermost_iff : i ∈ t.outermost test ↔
    t.passes test i = true ∧ ∀ j, t.passes test j = true → ¬ TransGen t.Child j i := by
  obtain ⟨bs, hs⟩ := h.spells
  rw [outermost, List.mem_filter, hs.mem_matching_iff]
  refine and_congr_right fun hp => ?_
  rw [Bool.not_eq_true', List.any_eq_false]
  constructor
  · intro hnone j hj hji
    refine hnone j ((h.mem_ancestors_iff (contains_of_passes hp)).mpr hji) ?_
    rw [List.contains_iff_mem, hs.mem_matching_iff]
    exact hj
  · intro hnone j hj hfound
    rw [List.contains_iff_mem, hs.mem_matching_iff] at hfound
    exact hnone j hfound ((h.mem_ancestors_iff (contains_of_passes hp)).mp hj)

theorem contains_of_mem_outermost (hi : i ∈ t.outermost test) : t.contains i = true :=
  contains_of_passes (h.mem_outermost_iff.mp hi).1

/-- No outermost match stands below another. -/
theorem eq_of_mem_outermost (hi : i ∈ t.outermost test) (hj : j ∈ t.outermost test)
    (hij : ReflTransGen t.Child i j) : i = j := by
  rcases reflTransGen_iff_eq_or_transGen.mp hij with e | hij
  · exact e.symm
  · exact absurd hij ((h.mem_outermost_iff.mp hj).2 i (h.mem_outermost_iff.mp hi).1)

theorem nodup_outermost : (t.outermost test).Nodup := by
  obtain ⟨bs, hs⟩ := h.spells
  exact hs.nodup_ids.sublist (List.filter_sublist.trans (List.filter_sublist.map Node.id))

theorem exists_mem_outermost (hs : t.Spells (c.plug [s])) (hcov : t.Covered test s.id) :
    ∃ j ∈ t.outermost test, ReflTransGen t.Child j s.id := by
  induction c generalizing s with
  | top =>
    obtain ⟨j, hp, hj⟩ := hcov
    have above : ∀ k, ¬ TransGen t.Child k s.id := fun k hk => nomatch hs.mem_trunk_iff.mpr hk
    obtain rfl := (reflTransGen_iff_eq_or_transGen.mp hj).resolve_right (above j)
    exact ⟨s.id, h.mem_outermost_iff.mpr ⟨hp, fun k _ => above k⟩, .refl⟩
  | on v l r up ih =>
    have below : ∀ {k}, TransGen t.Child k s.id → ReflTransGen t.Child k v.id := by
      intro k hk
      obtain ⟨m, hkm, hm⟩ := TransGen.tail'_iff.mp hk
      obtain rfl : v.id = m := Option.some.inj (hs.parent_eq_of_child hm)
      exact hkm
    -- the first match on the way down is at the parent or above, or it is the node itself
    by_cases hv : t.Covered test v.id
    · obtain ⟨j, hj, hjv⟩ := ih hs.up hv
      exact ⟨j, hj, hjv.tail hs.child_of_up⟩
    · obtain ⟨j, hp, hj⟩ := hcov
      rcases reflTransGen_iff_eq_or_transGen.mp hj with rfl | hj
      · exact ⟨s.id, h.mem_outermost_iff.mpr ⟨hp, fun k hk hks => hv ⟨k, hk, below hks⟩⟩, .refl⟩
      · exact absurd ⟨j, hp, below hj⟩ hv

/-- **A node is covered** if and only if it stands at an outermost match or below one. -/
theorem covered_iff (hi : t.contains i = true) :
    t.Covered test i ↔ ∃ j ∈ t.outermost test, ReflTransGen t.Child j i := by
  constructor
  · obtain ⟨c, s, hs, rfl⟩ := h.exists_place hi
    exact h.exists_mem_outermost hs
  · rintro ⟨j, hj, hji⟩
    exact ⟨j, (h.mem_outermost_iff.mp hj).1, hji⟩

end Sound

/-! ### What is handed out -/

/-- The tree is a copy of the subtree at a node. -/
def IsCopyAt (t : Tree) (i : NodeId) (d : Tree) : Prop := ∃ next, d = t.copySubtree i next

theorem forall₂_copyEach (starts : List NodeId) (next : NodeId) :
    List.Forall₂ t.IsCopyAt starts (t.copyEach starts next).1 := by
  induction starts generalizing next with
  | nil => exact .nil
  | cons i starts ih => exact .cons ⟨next, rfl⟩ (ih _)

/-- Copies in another order stand for the nodes in another order. -/
theorem exists_perm_copies {ds : List Tree} (hds : ds.Perm (t.findOutermost test next).1) :
    ∃ js, js.Perm (t.outermost test) ∧ List.Forall₂ t.IsCopyAt js ds := by
  have hcomp : Relation.Comp (List.Forall₂ t.IsCopyAt) List.Perm (t.outermost test) ds :=
    ⟨_, forall₂_copyEach _ next, hds.symm⟩
  rw [List.forall₂_comp_perm_eq_perm_comp_forall₂] at hcomp
  obtain ⟨js, hjs, hcopies⟩ := hcomp
  exact ⟨js, hjs.symm, hcopies⟩

theorem IsCopyAt.candidateOrigin_eq (hd : t.IsCopyAt s.id d) (hs : t.Spells (c.plug [s])) :
    d.candidateOrigin = some s.bud.origin := by
  obtain ⟨next, rfl⟩ := hd
  rw [(hs.copySubtree next).candidateOrigin_eq, origin_copied]

theorem IsCopyAt.size_eq (hd : t.IsCopyAt s.id d) (hs : t.Spells (c.plug [s])) :
    d.size = s.size := by
  obtain ⟨next, rfl⟩ := hd
  exact hs.size_copySubtree next

/-! ### One after another -/

/-- A branch of `t` that still stands in `u`, and a copy of it. -/
structure Upcoming (t u : Tree) (c c' : Place) (s : Branch) (d : Tree) : Prop where
  before : t.Spells (c.plug [s])
  now : u.Spells (c'.plug [s])
  parent_eq : c'.parent = c.parent
  copy : t.IsCopyAt s.id d

/-- The copy is located at the branch. -/
theorem Upcoming.locate_eq {u : Tree} {c' : Place} (h : t.Upcoming u c c' s d) :
    u.locate d = .ok s.id := h.now.locate_id (h.copy.candidateOrigin_eq h.before)

/-- Of the outermost matches in `t`, those of `js` are still to be changed, by copies `ds` of them;
at the others branches that satisfy `P` have been exchanged. -/
structure Pending (t : Tree) (test : Node → Bool) (P : List Branch → Prop) (js : List NodeId)
    (ds : List Tree) (u : Tree) : Prop where
  nodup : js.Nodup
  subset : js ⊆ t.outermost test
  copies : List.Forall₂ t.IsCopyAt js ds
  exchanged : ∃ bs, t.Spells bs ∧ Exchanged bs P (fun i => i ∈ t.outermost test ∧ i ∉ js) u

namespace Pending

variable {P : List Branch → Prop} {js : List NodeId} {ds : List Tree} {u : Tree}

/-- In the beginning everything is still to be changed. -/
theorem start (h : t.Sound next) (hds : ds.Perm (t.findOutermost test first).1) :
    ∃ js, js.Perm (t.outermost test) ∧ t.Pending test P js ds t := by
  obtain ⟨js, hjs, hcopies⟩ := exists_perm_copies hds
  obtain ⟨bs, hs⟩ := h.spells
  refine ⟨js, hjs, hjs.nodup_iff.mpr h.nodup_outermost, hjs.subset, hcopies, bs, hs, ?_⟩
  refine (Exchanged.refl hs).congr fun i => ?_
  rw [hjs.mem_iff]
  exact ⟨False.elim, fun hi => hi.2 hi.1⟩

/-- **The next copy finds its node**, and what is put in its place is exchanged. -/
theorem upcoming (ht : t.Sound next) (h : t.Pending test P js (d :: ds) u) :
    ∃ c c' s js', js = s.id :: js' ∧ t.Upcoming u c c' s d ∧ ∀ {fill u'}, P fill →
      u'.Spells (c'.plug fill) → t.Pending test P js' ds u' := by
  obtain ⟨j, js, -, -, rfl⟩ := List.forall₂_cons_right_iff.mp h.copies
  obtain ⟨hj, hjs⟩ := List.nodup_cons.mp h.nodup
  obtain ⟨hfound, hsub⟩ := List.cons_subset.mp h.subset
  obtain ⟨hcopy, hcopies⟩ := List.forall₂_cons.mp h.copies
  obtain ⟨bs, hs, hex⟩ := h.exchanged
  obtain ⟨n, hn, rfl⟩ := List.mem_map.mp (hs.contains_iff.mp (ht.contains_of_mem_outermost hfound))
  obtain ⟨c, s, rfl, rfl⟩ := hs.exists_plug_eq hn
  change s.id ∉ js at hj
  change s.id ∈ _ at hfound
  -- the nodes that have been changed are neither above nor below this one
  have hclear : ∀ i, ReflTransGen t.Child i s.id ∨ ReflTransGen t.Child s.id i →
      ¬ (i ∈ t.outermost test ∧ i ∉ s.id :: js) := by
    rintro i hi ⟨hifound, hidone⟩
    have hne : i = s.id := hi.elim (fun hi => ht.eq_of_mem_outermost hifound hfound hi)
      fun hi => (ht.eq_of_mem_outermost hfound hifound hi).symm
    exact hidone (hne ▸ List.mem_cons_self)
  obtain ⟨c', hparent, hnow, hnext⟩ := hex.next hs hclear
  refine ⟨c, c', s, js, rfl, ⟨hs, hnow, hparent, hcopy⟩, fun {fill u'} hfill hu' => ?_⟩
  refine ⟨hjs, hsub, hcopies, _, hs, (hnext hfill hu').congr fun i => ?_⟩
  rw [List.mem_cons, not_or]
  constructor
  · rintro (rfl | ⟨hi, -, hij⟩)
    · exact ⟨hfound, hj⟩
    · exact ⟨hi, hij⟩
  · rintro ⟨hi, hij⟩
    exact (eq_or_ne i s.id).imp_right fun hne => ⟨hi, hne, hij⟩

end Pending

end Tree

end SyntaxTree
