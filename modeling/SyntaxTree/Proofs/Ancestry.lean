/-
SyntaxTree/Proofs/Ancestry.lean

The nodes above a node.  At a place they are the buds that are passed on the way up
(`Place.trunk`), and climbing from a node meets exactly those, nearest first
(`Spells.ancestors_id`).  They are the nodes from which the node is reached by going down
(`Spells.mem_ancestors_iff`).
-/
import SyntaxTree.Proofs.Sound
import SyntaxTree.Proofs.WellFormed

namespace SyntaxTree

open Branch Relation

namespace Place

/-- The buds that are passed on the way up from the hole, nearest first. -/
def trunk : Place → List Bud
  | top => []
  | on v _ _ up => v :: up.trunk

theorem trunk_subset_buds (c : Place) : c.trunk ⊆ c.buds := by
  induction c with
  | top => exact fun _ hv => hv
  | on v l r up ih =>
    intro w hw
    rw [buds]
    rcases List.mem_cons.mp hw with rfl | hw
    · simp
    · exact List.mem_append_left _ (ih hw)

theorem length_trunk_le (c : Place) (hole : List NodeId) :
    c.trunk.length ≤ (c.before hole).length := by
  induction c generalizing hole with
  | top => exact Nat.le_refl 0
  | on v l r up ih =>
    have hup := ih [v.id]
    simp only [trunk, before, List.length_cons, List.length_append]
    omega

end Place

namespace Tree

variable {t : Tree} {c : Place} {s : Branch} {i p q : NodeId}

/-! ### Climbing -/

theorem climb_of_none (h : (t.node? i).bind (·.parent) = none) (k : Nat) :
    t.climb k i = some [] := by
  rw [climb.eq_def]
  simp only [h]

theorem climb_of_some (h : (t.node? i).bind (·.parent) = some p) (k : Nat) :
    t.climb (k + 1) i = (t.climb k p).map (p :: ·) := by
  rw [climb.eq_def]
  simp only [h]

namespace Spells

theorem climb_id (h : t.Spells (c.plug [s])) (k : Nat) :
    t.climb (c.trunk.length + k) s.id = some (c.trunk.map Bud.id) := by
  induction c generalizing s k with
  | top =>
    have hparent : (t.node? s.id).bind (·.parent) = none := by rw [h.node?_id]; rfl
    exact climb_of_none hparent _
  | on v l r up ih =>
    have hparent : (t.node? s.id).bind (·.parent) = some v.id := by rw [h.node?_id]; rfl
    have hsteps : (Place.on v l r up).trunk.length + k = (up.trunk.length + k) + 1 := by
      rw [Place.trunk, List.length_cons]; omega
    rw [hsteps, climb_of_some hparent, show v.id = (grow v (l ++ [s] ++ r)).id from rfl, ih h.up]
    rfl

/-- **Climbing from a node** meets the buds on the way up from its place. -/
theorem ancestors_id (h : t.Spells (c.plug [s])) : t.ancestors s.id = c.trunk.map Bud.id := by
  have hsize : c.trunk.length ≤ t.size := by
    have hbefore := c.length_trunk_le [s.id]
    rw [size_eq_length, h.perm.length_eq, Place.grove_plug, List.length_append, List.length_append,
      List.map_singleton]
    omega
  obtain ⟨k, hk⟩ := Nat.le.dest hsize
  rw [ancestors, ← hk, h.climb_id]
  rfl

/-! ### Descent to a place -/

/-- A node has one parent at most. -/
theorem child_unique {bs : List Branch} (h : t.Spells bs) (hp : t.Child p i) (hq : t.Child q i) :
    p = q := by
  obtain ⟨n, hn, hin⟩ := hp
  obtain ⟨m, hm, him⟩ := hq
  obtain ⟨k, hk, hkp⟩ := h.wellFormed.child_live p n i hn hin
  obtain ⟨k', hk', hkq⟩ := h.wellFormed.child_live q m i hm him
  obtain rfl := Option.some.inj (hk.symm.trans hk')
  exact Option.some.inj (hkp.symm.trans hkq)

/-- The root is nobody's child. -/
theorem not_child_root {bs : List Branch} (h : t.Spells bs) (hi : t.root = some i) :
    ¬ t.Child p i := by
  rintro ⟨n, hn, hin⟩
  obtain ⟨m, hm, hparent⟩ := h.wellFormed.root_live i hi
  obtain ⟨k, hk, hkp⟩ := h.wellFormed.child_live p n i hn hin
  obtain rfl := Option.some.inj (hm.symm.trans hk)
  rw [hparent] at hkp
  cases hkp

/-- A node has no other parent than the one above its place. -/
theorem parent_eq_of_child (h : t.Spells (c.plug [s])) (hi : t.Child i s.id) :
    c.parent = some i := by
  obtain ⟨n, hn, hmem⟩ := hi
  obtain ⟨m, hm, hparent⟩ := h.wellFormed.child_live i n s.id hn hmem
  obtain rfl := Option.some.inj (h.node?_id.symm.trans hm)
  exact hparent

theorem child_of_up {v : Bud} {l r : List Branch} {up : Place}
    (h : t.Spells ((Place.on v l r up).plug [s])) : t.Child v.id s.id :=
  h.up.child_iff.mpr ⟨s, by simp [limbs], rfl⟩

/-- The nodes on the way up from a place are those from which it is reached. -/
theorem mem_trunk_iff (h : t.Spells (c.plug [s])) :
    i ∈ c.trunk.map Bud.id ↔ TransGen t.Child i s.id := by
  induction c generalizing s with
  | top =>
    constructor
    · intro hi; cases hi
    · intro hi
      obtain ⟨j, -, hj⟩ := TransGen.tail'_iff.mp hi
      cases h.parent_eq_of_child hj
  | on v l r up ih =>
    rw [Place.trunk, List.map_cons, List.mem_cons, ih h.up]
    constructor
    · rintro (rfl | hi)
      · exact .single h.child_of_up
      · exact hi.tail h.child_of_up
    · intro hi
      obtain ⟨j, hij, hj⟩ := TransGen.tail'_iff.mp hi
      obtain rfl : v.id = j := Option.some.inj (h.parent_eq_of_child hj)
      exact (reflTransGen_iff_eq_or_transGen.mp hij).imp Eq.symm fun h => h

/-- **The nodes above a node** are those from which it is reached by going down. -/
theorem mem_ancestors_iff (h : t.Spells (c.plug [s])) :
    i ∈ t.ancestors s.id ↔ TransGen t.Child i s.id := by
  rw [h.ancestors_id, h.mem_trunk_iff]

end Spells

theorem contains_of_transGen {j : NodeId} (hij : TransGen t.Child i j) : t.contains i = true := by
  obtain ⟨k, ⟨n, hn, -⟩, -⟩ := TransGen.head'_iff.mp hij
  exact Option.isSome_iff_exists.mpr ⟨n, hn⟩

/-- Only live nodes have ancestors. -/
theorem contains_of_mem_ancestors {j : NodeId} (hij : i ∈ t.ancestors j) : t.contains j = true := by
  cases hn : t.node? j with
  | none =>
    rw [ancestors, climb_of_none (by rw [hn]; rfl)] at hij
    cases hij
  | some n => exact Option.isSome_iff_exists.mpr ⟨n, hn⟩

/-- Climbing and going down are inverse to each other. -/
theorem Sound.mem_ancestors_iff {next j : NodeId} (h : t.Sound next)
    (hj : t.contains j = true) : i ∈ t.ancestors j ↔ TransGen t.Child i j := by
  obtain ⟨c, s, hs, rfl⟩ := h.exists_place hj
  exact hs.mem_ancestors_iff

end Tree

end SyntaxTree
