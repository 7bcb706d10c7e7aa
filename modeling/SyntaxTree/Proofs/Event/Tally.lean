/-
SyntaxTree/Proofs/Event/Tally.lean

The figures of a tree, told from a stream of events by counting, without any tree.  The
nodes are the enters, the leaves are the enters that an exit follows at once, and the
depth is one less than the greatest height on the way (`tally`).

On the tour of a branch these are the size, the tips and the crown of the branch
(`leafEntries_toursOf`, `peak_toursOf`).  So they are the figures of the tree made from the
stream, whose depth is looked for among the leaves, and of which no node lies deeper
(`Tree.stats_ofEvents`).
-/
import Mathlib.Data.Int.Order.Basic
import Mathlib.Data.List.Infix
import SyntaxTree.Proofs.Depth
import SyntaxTree.Proofs.Stream

namespace SyntaxTree

open Branch

namespace Event

/-! ### Counting -/

/-- Whether an event enters a node. -/
def opens : Event → Bool
  | enter _ _ => true
  | exit => false

/-- The number of enters that are followed at once by an exit. -/
def leafEntries (es : List Event) : Nat :=
  (es.zip es.tail).countP fun p => p.1.opens && !p.2.opens

/-- The greatest height of a beginning of the stream. -/
def peak (es : List Event) : Int := (es.inits.map height).foldl max 0

/-- The figures of the tree that a stream describes. -/
def tally (es : List Event) : Stats :=
  { nodes := es.countP opens
    leaves := leafEntries es
    depth := (peak es - 1).toNat }

variable {es p : List Event}

theorem length_entries (es : List Event) : (entries es).length = es.countP opens := by
  induction es with
  | nil => rfl
  | cons e es ih =>
    cases e with
    | enter rule label =>
      rw [entries, List.length_cons, ih, List.countP_cons_of_pos (p := opens) rfl]
    | exit => rw [entries, ih, List.countP_cons_of_neg (p := opens) (by decide)]

theorem leafEntries_exit_cons (es : List Event) : leafEntries (exit :: es) = leafEntries es := by
  cases es with
  | nil => rfl
  | cons e es => exact List.countP_cons_of_neg (by simp [opens])

theorem leafEntries_enter_exit (rule label : String) (es : List Event) :
    leafEntries (enter rule label :: exit :: es) = 1 + leafEntries (exit :: es) := by
  rw [Nat.add_comm]
  exact List.countP_cons_of_pos rfl

theorem leafEntries_enter_enter (rule label rule' label' : String) (es : List Event) :
    leafEntries (enter rule label :: enter rule' label' :: es)
      = leafEntries (enter rule' label' :: es) :=
  List.countP_cons_of_neg (by simp [opens])

/-! ### Peaks -/

theorem height_le_peak (h : p <+: es) : height p ≤ peak es :=
  le_foldl_max (List.mem_map_of_mem ((List.mem_inits _ _).mpr h))

theorem exists_height_eq_peak (es : List Event) : ∃ p, p <+: es ∧ height p = peak es := by
  have hzero : (0 : Int) ∈ es.inits.map height :=
    List.mem_map.mpr ⟨[], (List.mem_inits _ _).mpr List.nil_prefix, height_nil⟩
  obtain ⟨p, hp, hpeak⟩ := List.mem_map.mp (foldl_max_mem hzero)
  exact ⟨p, (List.mem_inits _ _).mp hp, hpeak⟩

/-- The peak of two streams in a row is that of the first, or that of the second, which starts
where the first ends. -/
theorem peak_append (es fs : List Event) :
    peak (es ++ fs) = max (peak es) (height es + peak fs) := by
  apply le_antisymm
  · obtain ⟨p, hp, hpeak⟩ := exists_height_eq_peak (es ++ fs)
    rw [← hpeak]
    -- the highest beginning ends in the first stream or in the second
    rcases Shape.prefix_append_cases hp with hp | ⟨q, hq, rfl⟩
    · exact (height_le_peak hp).trans (le_max_left _ _)
    · rw [height_append]
      exact (Int.add_le_add_left (height_le_peak hq) _).trans (le_max_right _ _)
  · apply max_le
    · obtain ⟨p, hp, hpeak⟩ := exists_height_eq_peak es
      rw [← hpeak]
      exact height_le_peak (hp.trans (List.prefix_append es fs))
    · obtain ⟨q, hq, hpeak⟩ := exists_height_eq_peak fs
      rw [← hpeak, ← height_append]
      exact height_le_peak ((List.prefix_append_right_inj es).mpr hq)

theorem peak_singleton (e : Event) : peak [e] = max 0 e.rise := by
  show max (max 0 0) (e.rise + 0) = _
  rw [max_self, Int.add_zero]

end Event

open Event

/-! ### Counting on a tour -/

namespace Branch

/-- A row of tours begins with an enter, if there is any. -/
theorem exists_toursOf_cons (b : Branch) (bs : List Branch) :
    ∃ rule label es, toursOf (b :: bs) = .enter rule label :: es := by
  obtain ⟨v, cs⟩ := b
  rw [← List.singleton_append, toursOf_append, toursOf_grow]
  exact ⟨_, _, _, rfl⟩

mutual

theorem leafEntries_tour (r : List Event) : ∀ b : Branch,
    leafEntries (toursOf [b] ++ r) = b.tips + leafEntries r
  | grow v bs => by
    rw [toursOf_grow, List.cons_append, List.append_assoc, List.singleton_append, tips_grow]
    cases bs with
    | nil =>
      -- the exit that leaves the node comes at once
      rw [toursOf_nil, List.nil_append, leafEntries_enter_exit, leafEntries_exit_cons]
      rfl
    | cons b bs =>
      -- another enter comes first, so the node does not count
      have hrest := leafEntries_toursOf (.exit :: r) (b :: bs)
      obtain ⟨rule, label, es, hes⟩ := exists_toursOf_cons b bs
      rw [hes, List.cons_append] at hrest ⊢
      rw [leafEntries_enter_enter, hrest, leafEntries_exit_cons]
      rfl

theorem leafEntries_toursOf (r : List Event) : ∀ bs : List Branch,
    leafEntries (toursOf bs ++ r) = (bs.map tips).sum + leafEntries r
  | [] => by rw [toursOf_nil, List.nil_append, List.map_nil, List.sum_nil, Nat.zero_add]
  | b :: bs => by
    rw [← List.singleton_append, toursOf_append, List.append_assoc, leafEntries_tour _ b,
      leafEntries_toursOf r bs, List.singleton_append, List.map_cons, List.sum_cons, Nat.add_assoc]

end

theorem height_toursOf (bs : List Branch) : height (toursOf bs) = 0 := Shape.height_tourAll _

mutual

theorem peak_tour : ∀ b : Branch, peak (toursOf [b]) = b.crown + 1
  | grow v bs => by
    have hinner := peak_toursOf bs
    have hopen : height [Event.enter v.rule v.label] = 1 := rfl
    rw [toursOf_grow, ← List.singleton_append, peak_append, peak_append, hopen, height_toursOf,
      hinner, peak_singleton, peak_singleton, crown_grow]
    simp only [rise_enter, rise_exit]
    omega

/-- A row of tours reaches as high as the highest branch. -/
theorem peak_toursOf : ∀ bs : List Branch,
    peak (toursOf bs) = ((bs.map fun b => b.crown + 1).foldl max 0 : Nat)
  | [] => rfl
  | b :: bs => by
    rw [← List.singleton_append, toursOf_append, peak_append, height_toursOf, peak_tour b,
      peak_toursOf bs, List.singleton_append, List.map_cons, List.foldl_cons, Nat.max_comm 0,
      List.foldl_assoc]
    omega

end

end Branch

namespace Tree

variable {t : Tree} {es : List Event} {next : NodeId}

/-- The greatest depth of a tree, among its leaves or among all its nodes, is one less than the
greatest height on its tour. -/
theorem Spells.depth_eq {bs : List Branch} (h : t.Spells bs) :
    t.stats.depth = (peak (toursOf bs) - 1).toNat ∧
      t.stats.depth = (t.nodeIds.map t.depthOf).foldl max 0 := by
  obtain rfl | ⟨b, rfl⟩ := h.eq_nil_or_singleton
  · have hempty : t.nodeList = [] := Tree.isEmpty_iff.mp (h.isEmpty_iff.mpr rfl)
    rw [h.nodeIds_eq, stats, leaves, hempty]
    exact ⟨rfl, rfl⟩
  · rw [peak_tour, h.depth_nodes]
    exact ⟨h.depth_leaves.trans (by omega), h.depth_leaves⟩

/-- **A tree made from a stream** has the figures that are counted in the stream, and none of its
nodes lies deeper than its deepest leaf. -/
theorem stats_ofEvents (h : (ofEvents es next).1 = .ok t) :
    t.stats = tally es ∧ t.stats.depth = (t.nodeIds.map t.depthOf).foldl max 0 := by
  obtain ⟨bs, hs⟩ := ((sound_ofEvents es next).2 t h).spells
  have hretells := (retells_ofEvents h).1
  have hes : toursOf bs = es := hs.tour_eq.symm.trans hretells.tour_eq
  have hsize : t.size = es.countP opens := by
    rw [size_eq_length, ← length_entries, ← hretells.entries_eq, List.length_map]
  have hleaves : t.leaves.length = leafEntries es := by
    have htips := leafEntries_toursOf [] bs
    rw [List.append_nil, hes] at htips
    rw [hs.length_leaves, htips]
    rfl
  obtain ⟨hpeak, hnodes⟩ := hs.depth_eq
  rw [hes] at hpeak
  refine ⟨?_, hnodes⟩
  show Stats.mk t.size t.leaves.length t.stats.depth = _
  rw [hsize, hleaves, hpeak]
  rfl

end Tree

end SyntaxTree
