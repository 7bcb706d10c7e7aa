/-
SyntaxTree/Proofs/Sound.lean

Sound trees.  A tree is sound, at a time when `next` is the first free identity, if it is
the written form of a branch and every identity in it, be it of a node or of an origin,
has been used up:

    t.Sound next ↔ (∃ bs, t.Spells bs) ∧ ∀ n ∈ t.nodeList, n.id < next ∧ n.origin < next.

This is the invariant of trees in use.  It survives as other trees use up identities
(`Sound.mono`), and identities given out from `next` on are fresh for the tree.  Here it
is shown of the trees that are made from nothing and of copies; surgery and assemblies
have their own files.
-/
import SyntaxTree.Proofs.Copy
import SyntaxTree.Tree.Search

namespace SyntaxTree

namespace NodeId

theorem lt_of_lt_of_le {a b c : NodeId} (hab : a < b) (hbc : b ≤ c) : a < c :=
  Nat.lt_of_lt_of_le hab hbc

theorem le_trans {a b c : NodeId} (hab : a ≤ b) (hbc : b ≤ c) : a ≤ c := Nat.le_trans hab hbc

theorem le_refl (a : NodeId) : a ≤ a := Nat.le_refl a.val

theorem le_shift (a : NodeId) (k : Nat) : a ≤ a.shift k := Nat.le_add_right a.val k

theorem not_lt_of_le {a b : NodeId} (h : a ≤ b) : ¬ b < a := Nat.not_lt_of_le h

/-- Identities in use are not among those given out next. -/
theorem notMem_block {next i : NodeId} (h : i < next) (k : Nat) : i ∉ next.block k := fun hi =>
  not_lt_of_le (mem_block.mp hi).1 h

/-- Of identities in use and those given out next, the latter are the new ones. -/
theorem filter_append_block {next : NodeId} {old : List NodeId} (hold : ∀ i ∈ old, i < next)
    (k : Nat) : (old ++ next.block k).filter (fun i => next ≤ i) = next.block k := by
  have hnil : old.filter (fun i => next ≤ i) = [] := by
    rw [List.filter_eq_nil_iff]
    intro i hi
    rw [decide_eq_true_iff]
    exact fun hle => not_lt_of_le hle (hold i hi)
  rw [List.filter_append, hnil, List.nil_append, List.filter_eq_self]
  exact fun i hi => decide_eq_true (mem_block.mp hi).1

end NodeId

/-- The bud of a node created under its own identity. -/
def Bud.fresh (id : NodeId) (rule label : String) : Bud := ⟨id, id, rule, label⟩

open Branch

namespace Tree

/-- The tree spells a branch, and its identities have been used up before `next`. -/
structure Sound (next : NodeId) (t : Tree) : Prop where
  spells : ∃ bs, t.Spells bs
  used : ∀ n ∈ t.nodeList, n.id < next ∧ n.origin < next

variable {t : Tree} {next later : NodeId} {c : Place} {s : Branch}

theorem Spells.rename {bs : List Branch} (h : t.Spells bs) (name : Option String) :
    ({ t with name } : Tree).Spells bs :=
  ⟨⟨h.nodes_eq, h.origins_eq, h.nodup_ids, h.nodup_origins⟩, h.perm, h.root_eq, h.length_le_one⟩

namespace Sound

theorem mono (h : t.Sound next) (hle : next ≤ later) : t.Sound later := by
  refine ⟨h.spells, ?_⟩
  intro n hn
  obtain ⟨hid, horigin⟩ := h.used n hn
  exact ⟨NodeId.lt_of_lt_of_le hid hle, NodeId.lt_of_lt_of_le horigin hle⟩

theorem rename (h : t.Sound next) (name : Option String) : ({ t with name } : Tree).Sound next :=
  ⟨h.spells.imp fun _ hs => hs.rename name, h.used⟩

theorem withName (h : t.Sound next) (name : String) : (t.withName name).Sound next :=
  h.rename (some name)

/-- Every live node is the bottom of the branch at some place. -/
theorem exists_place (h : t.Sound next) {i : NodeId} (hi : t.contains i = true) :
    ∃ (c : Place) (s : Branch), t.Spells (c.plug [s]) ∧ s.id = i := by
  obtain ⟨bs, hs⟩ := h.spells
  obtain ⟨n, hn, rfl⟩ := List.mem_map.mp (hs.contains_iff.mp hi)
  obtain ⟨c, s, rfl, rfl⟩ := hs.exists_plug_eq hn
  exact ⟨c, s, hs, rfl⟩

theorem exists_branch (h : t.Sound next) {r : NodeId} (hr : t.root = some r) :
    ∃ b : Branch, t.Spells [b] ∧ b.id = r := by
  obtain ⟨bs, hs⟩ := h.spells
  obtain ⟨b, rfl, hb⟩ := hs.eq_singleton hr
  exact ⟨b, hs, hb⟩

theorem lt_of_mem_origins (h : t.Sound next) (hs : t.Spells (c.plug [s])) {o : NodeId}
    (ho : o ∈ s.buds.map Bud.origin) : o < next := by
  rw [← map_origin_nodes c.parent, List.mem_map] at ho
  obtain ⟨n, hn, rfl⟩ := ho
  exact (h.used n (hs.mem_nodeList hn)).2

theorem lt_of_mem_buds (h : t.Sound next) {bs : List Branch} (hs : t.Spells bs) {v : Bud}
    (hv : v ∈ bs.flatMap buds) : v.id < next := by
  obtain ⟨n, hn, rfl⟩ := hs.mem_buds_iff.mp hv
  exact (h.used n hn).1

end Sound

/-! ### Trees made from nothing -/

theorem spells_empty : empty.Spells [] :=
  ⟨⟨rfl, rfl, .nil, .nil⟩, .refl _, rfl, Nat.zero_le 1⟩

theorem sound_empty (next : NodeId) : empty.Sound next :=
  ⟨⟨[], spells_empty⟩, fun _ hn => nomatch hn⟩

theorem spells_leaf (id : NodeId) (rule label : String) :
    (leaf id rule label).Spells [grow (Bud.fresh id rule label) []] := by
  have hnodes : grove none [grow (Bud.fresh id rule label) []] = [Node.fresh id rule label] := by
    rw [grove_singleton, Branch.nodes, grove_nil]; rfl
  have hcoherent : (ofRegistry (registry [Node.fresh id rule label]) (some id)).Coherent :=
    coherent_ofRegistry (List.nodup_singleton _) (List.nodup_singleton _)
  refine ⟨hcoherent, ?_, rfl, Nat.le_refl 1⟩
  rw [hnodes]
  exact .refl _

theorem sound_leaf (next : NodeId) (rule label : String) :
    (leaf next rule label).Sound (next.shift 1) := by
  refine ⟨⟨_, spells_leaf next rule label⟩, ?_⟩
  intro n hn
  obtain rfl : n = Node.fresh next rule label := List.mem_singleton.mp hn
  exact ⟨Nat.lt_succ_self next.val, Nat.lt_succ_self next.val⟩

/-! ### Copies -/

/-- A copy of a subtree spells the copied branch. -/
theorem Spells.copySubtree (h : t.Spells (c.plug [s])) (next : NodeId) :
    (t.copySubtree s.id next).Spells [s.copied next] := by
  have hnd := h.nodup_ids_branch
  rw [h.bears.copySubtree_eq hnd]
  refine ⟨coherent_ofRegistry ?_ ?_, ?_, ?_, Nat.le_refl 1⟩
  · rw [map_id_nodes, ids_copied next hnd]
    exact NodeId.nodup_block next s.size
  · rw [map_origin_nodes, map_origin_copied]
    exact h.nodup_origins_branch
  · rw [grove_singleton, nodeList_eq_of_nodes_eq rfl]
  · rw [List.head?_cons, Option.map_some, id_copied]; rfl

/-- A copy of a subtree lists its nodes in pre-order. -/
theorem Spells.nodeList_copySubtree (h : t.Spells (c.plug [s])) (next : NodeId) :
    (t.copySubtree s.id next).nodeList = (s.copied next).nodes none := by
  rw [h.bears.copySubtree_eq h.nodup_ids_branch]
  exact nodeList_eq_of_nodes_eq rfl

theorem Spells.size_copySubtree (h : t.Spells (c.plug [s])) (next : NodeId) :
    (t.copySubtree s.id next).size = s.size := by
  rw [size_eq_length, h.nodeList_copySubtree, length_nodes, size_copied]

namespace Sound

/-- **A copy of a subtree is sound** once the identities it uses up are. -/
theorem copySubtree (h : t.Sound next) {i : NodeId} (hi : t.contains i = true) :
    (t.copySubtree i next).Sound (next.shift (t.copySubtree i next).size) := by
  obtain ⟨c, s, hs, rfl⟩ := h.exists_place hi
  refine ⟨⟨_, hs.copySubtree next⟩, ?_⟩
  intro n hn
  rw [hs.nodeList_copySubtree] at hn
  rw [hs.size_copySubtree]
  constructor
  · -- the identity is new
    have hid := List.mem_map_of_mem (f := Node.id) hn
    rw [map_id_nodes, ids_copied next hs.nodup_ids_branch] at hid
    exact (NodeId.mem_block.mp hid).2
  · -- the origin is that of a node of the tree
    have horigin := List.mem_map_of_mem (f := Node.origin) hn
    rw [map_origin_nodes, map_origin_copied] at horigin
    exact NodeId.lt_of_lt_of_le (h.lt_of_mem_origins hs horigin) (next.le_shift _)

theorem copyOf (h : t.Sound next) :
    (t.copyOf next).Sound (next.shift (t.copyOf next).size) := by
  rw [Tree.copyOf]
  cases hr : t.root with
  | none => exact (sound_empty _).rename t.name
  | some r =>
    obtain ⟨b, hb, rfl⟩ := h.exists_branch hr
    exact (h.copySubtree hb.atTop.contains_id).rename t.name

theorem extract (h : t.Sound next) {i : NodeId} {piece : Tree}
    (hp : t.extract i next = some piece) : piece.Sound (next.shift piece.size) := by
  rw [Tree.extract] at hp
  split at hp
  case isTrue hi => exact Option.some.inj hp ▸ h.copySubtree hi
  case isFalse => cases hp

/-- Copies taken one after another are sound once all their identities are used up. -/
theorem copyEach (h : t.Sound next) {starts : List NodeId}
    (hs : ∀ i ∈ starts, t.contains i = true) :
    next ≤ (t.copyEach starts next).2 ∧
      ∀ u ∈ (t.copyEach starts next).1, u.Sound (t.copyEach starts next).2 := by
  induction starts generalizing next with
  | nil => exact ⟨NodeId.le_refl next, fun u hu => nomatch hu⟩
  | cons i starts ih =>
    -- the first copy stays sound while the others use up identities of their own
    have hcopy := h.copySubtree (hs i List.mem_cons_self)
    have hstep := next.le_shift (t.copySubtree i next).size
    obtain ⟨hle, hrest⟩ := ih (h.mono hstep) fun j hj => hs j (List.mem_cons_of_mem _ hj)
    refine ⟨NodeId.le_trans hstep hle, ?_⟩
    intro u hu
    rcases List.mem_cons.mp hu with rfl | hu
    · exact hcopy.mono hle
    · exact hrest u hu

end Sound

theorem Coherent.contains_of_mem_matching (h : t.Coherent) {p : Node → Bool} {i : NodeId}
    (hi : i ∈ t.matching p) : t.contains i = true := by
  obtain ⟨n, hn, rfl⟩ := List.mem_map.mp hi
  exact h.contains_iff.mpr (List.mem_map_of_mem (List.mem_filter.mp hn).1)

namespace Sound

theorem findAll (h : t.Sound next) (p : Node → Bool) :
    next ≤ (t.findAll p next).2 ∧ ∀ u ∈ (t.findAll p next).1, u.Sound (t.findAll p next).2 := by
  obtain ⟨bs, hs⟩ := h.spells
  exact h.copyEach fun i hi => hs.contains_of_mem_matching hi

theorem findOutermost (h : t.Sound next) (p : Node → Bool) :
    next ≤ (t.findOutermost p next).2 ∧
      ∀ u ∈ (t.findOutermost p next).1, u.Sound (t.findOutermost p next).2 := by
  obtain ⟨bs, hs⟩ := h.spells
  exact h.copyEach fun i hi => hs.contains_of_mem_matching (List.mem_filter.mp hi).1

end Sound

end Tree

end SyntaxTree
