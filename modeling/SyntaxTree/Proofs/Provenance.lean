/-
SyntaxTree/Proofs/Provenance.lean

The provenance index over whole runs.  In every tree of a run no origin is carried by two
live nodes, and the index has an entry for every live node and no other (`Indexed`).  A
candidate is therefore recognised for one node at most, and looking it up, removing it
and replacing it are all about that node (`Recognises`): what is cut out is that node with
all that can be reached from it by going down, and everything else is left.

The candidate may be any tree at all, of this run or not; it is only its root that counts.
-/
import SyntaxTree.Proofs.Workshop

namespace SyntaxTree

open Branch Relation

namespace Tree

/-- The index says what the live nodes say, of all of them and of nothing else. -/
structure Indexed (t : Tree) : Prop where
  nodup_origins : (t.nodeList.map Node.origin).Nodup
  entries_perm : t.origins.entries.Perm (t.nodeList.map fun n => (n.origin, n.id))
  get?_iff : ∀ o i, t.origins.get? o = some i ↔ ∃ n ∈ t.nodeList, n.origin = o ∧ n.id = i

/-- The live node `n` carries the origin that the root of the candidate carries. -/
def Corresponds (t candidate : Tree) (n : Node) : Prop :=
  n ∈ t.nodeList ∧ ∃ m, candidate.rootNode? = some m ∧ m.origin = n.origin

/-- A tree that consists of what is reached from `n` by going down. -/
structure TakenFrom (t : Tree) (n : Node) (piece : Tree) : Prop where
  root_eq : piece.root = some n.id
  contains_iff : ∀ i, piece.contains i = true ↔ ReflTransGen t.Child n.id i

variable {t candidate : Tree} {c : Place} {s : Branch} {n : Node}

theorem Coherent.indexed (h : t.Coherent) : t.Indexed := by
  refine ⟨h.nodup_origins, ?_, fun o i => h.origins_get?_eq_some_iff⟩
  rw [h.origins_eq, provenance]
  exact .refl _

theorem Coherent.counterpart?_iff_corresponds (h : t.Coherent) :
    t.counterpart? candidate = some n ↔ t.Corresponds candidate n := by
  rw [h.counterpart?_eq_some_iff, candidateOrigin, Option.map_eq_some_iff]
  rfl

/-- An empty candidate has no root to be recognised by. -/
theorem rootNode?_of_isEmpty (h : candidate.isEmpty = true) : candidate.rootNode? = none := by
  have hentries : candidate.nodes.entries = [] := List.isEmpty_iff.mp h
  rw [rootNode?, Option.bind_eq_none_iff]
  intro r _
  rw [node?, OrderedMap.get?, hentries]
  rfl

/-! ### What a cut takes and what it leaves -/

/-- A cut takes what is reached from the node by going down. -/
theorem Spells.takenFrom_detach (h : t.Spells (c.plug [s])) :
    t.TakenFrom (s.bottom c.parent) (t.detach s.id).removed := by
  refine ⟨h.spells_removed.root_eq, fun i => ?_⟩
  show _ ↔ ReflTransGen t.Child s.id i
  rw [h.reflTransGen_child_iff, h.contains_removed_iff]

theorem Spells.mem_survivors_iff (h : t.Spells (c.plug [s])) {i : NodeId} :
    i ∈ (t.survivors s).map Node.id ↔
      t.contains i = true ∧ ¬ ReflTransGen t.Child s.id i := by
  rw [h.reflTransGen_child_iff, h.contains_iff, survivors]
  constructor
  · intro hi
    obtain ⟨m, hm, rfl⟩ := List.mem_map.mp hi
    obtain ⟨hm, hout⟩ := List.mem_filter.mp hm
    exact ⟨List.mem_map_of_mem hm, by simpa using hout⟩
  · rintro ⟨hi, hout⟩
    obtain ⟨m, hm, rfl⟩ := List.mem_map.mp hi
    exact List.mem_map_of_mem (List.mem_filter.mpr ⟨hm, by simpa using hout⟩)

/-- A cut leaves everything else. -/
theorem Spells.contains_rest_iff (h : t.Spells (c.plug [s])) {i : NodeId} :
    (t.detach s.id).rest.contains i = true ↔
      t.contains i = true ∧ ¬ ReflTransGen t.Child s.id i := by
  rw [h.spells_rest.contains_iff, h.nodeList_rest, keptNodes_eq, Node.map_id_relink,
    h.mem_survivors_iff]

/-- A replacement leaves everything else too, and brings in the identities of the graft. -/
theorem Scion.contains_planted_iff {copy : Tree} {q : Branch} (h : t.Spells (c.plug [s]))
    (hq : t.Scion copy q) {i : NodeId} :
    (t.planted s.id copy).contains i = true ↔
      (t.contains i = true ∧ ¬ ReflTransGen t.Child s.id i) ∨ i ∈ q.ids := by
  rw [(hq.spells_planted h).contains_iff, hq.nodeList_planted h, plantedNodes, List.map_append,
    List.mem_append, Node.map_id_relink, h.mem_survivors_iff, map_id_nodes, ids_graft]

end Tree

namespace Workshop

open SyntaxTree.Tree

/-- In a workshop, a candidate is recognised for one node of a tree at most; it is looked up and
located as that node, and removed and replaced there. -/
structure Recognises (w : Workshop) (t candidate : Tree) : Prop where
  unique : ∀ n m, t.Corresponds candidate n → t.Corresponds candidate m → n = m
  counterpart_iff : ∀ n, t.counterpart? candidate = some n ↔ t.Corresponds candidate n
  has_iff : t.hasCounterpart candidate = true ↔ ∃ n, t.Corresponds candidate n
  none_of_isEmpty : candidate.isEmpty = true → t.counterpart? candidate = none
  remove_ok : ∀ n, t.Corresponds candidate n → ∃ r, t.remove candidate = .ok r ∧
    r.target = n.id ∧ t.TakenFrom n r.removed ∧
    ∀ i, r.rest.contains i = true ↔ t.contains i = true ∧ ¬ ReflTransGen t.Child n.id i
  remove_error : (¬ ∃ n, t.Corresponds candidate n) →
    t.remove candidate = .error (.notFound (candidate.rootNode?.map Node.origin))
  replace_ok : ∀ n, t.Corresponds candidate n → ∀ g ∈ w.trees, g.isEmpty = false →
    ∃ r, t.replace candidate g w.forest.next = .ok r ∧
      r.target = n.id ∧ t.TakenFrom n r.removed ∧
      ∀ i, r.result.contains i = true ↔
        (t.contains i = true ∧ ¬ ReflTransGen t.Child n.id i) ∨ i ∈ w.forest.next.block g.size
  replace_error : (¬ ∃ n, t.Corresponds candidate n) → ∀ g,
    t.replace candidate g w.forest.next
      = .error (.notFound (candidate.rootNode?.map Node.origin))

variable {w : Workshop} {t : Tree}

theorem Sound.recognises (h : w.Sound) (ht : t ∈ w.trees) (candidate : Tree) :
    w.Recognises t candidate := by
  have hsound := h.tree ht
  obtain ⟨bs, hs⟩ := hsound.spells
  have lost : (¬ ∃ n, t.Corresponds candidate n) →
      t.locate candidate = .error (.notFound (candidate.rootNode?.map Node.origin)) := by
    intro hnone
    have hc : t.counterpart? candidate = none := Option.eq_none_iff_forall_ne_some.mpr
      fun n hn => hnone ⟨n, hs.counterpart?_iff_corresponds.mp hn⟩
    rw [hs.locate_eq, hc]
    rfl
  refine ⟨?_, fun n => hs.counterpart?_iff_corresponds, ?_, ?_, ?_, ?_, ?_, ?_⟩
  · -- unique
    rintro n m ⟨hn, k, hk, hkn⟩ ⟨hm, k', hk', hkm⟩
    obtain rfl := Option.some.inj (hk.symm.trans hk')
    exact hs.eq_of_origin_eq hn hm (hkn.symm.trans hkm)
  · -- has_iff
    rw [hasCounterpart, Option.isSome_iff_exists]
    exact exists_congr fun n => hs.counterpart?_iff_corresponds
  · -- none_of_isEmpty
    intro he
    rw [counterpart?, candidateOrigin, rootNode?_of_isEmpty he]
    rfl
  · -- remove_ok
    intro n hn
    have hc := hs.counterpart?_iff_corresponds.mpr hn
    have hlocate : t.locate candidate = .ok n.id := hs.locate_eq_ok_iff.mpr ⟨n, hc, rfl⟩
    obtain ⟨c, s, rfl, rfl⟩ := hs.exists_plug_eq hn.1
    refine ⟨_, remove_eq_ok_iff.mpr ⟨_, hlocate, rfl⟩, rfl, hs.takenFrom_detach, fun i => ?_⟩
    exact hs.contains_rest_iff
  · -- remove_error
    intro hnone
    rw [Tree.remove, lost hnone]
    rfl
  · -- replace_ok
    intro n hn g hg hne
    have hc := hs.counterpart?_iff_corresponds.mpr hn
    obtain ⟨c, s, b, hs, rfl, hb, hreplace⟩ := hsound.exists_replace (h.tree hg) hc hne
    refine ⟨_, hreplace, rfl, hs.takenFrom_detach, fun i => ?_⟩
    have hids := ids_copied w.forest.next hb.atTop.nodup_ids_branch
    rw [hb.size_eq, ← hids]
    exact (hsound.scion (h.tree hg) hb).contains_planted_iff hs
  · -- replace_error
    intro hnone g
    rw [Tree.replace, lost hnone]
    rfl

/-- **The provenance index of every tree of every run** is exact, and every candidate is looked up,
removed and replaced by it at the one node that carries its origin. -/
theorem run_provenance (jobs : List Job) : ∀ t ∈ (run jobs).trees,
    t.Indexed ∧ ∀ candidate, (run jobs).Recognises t candidate := by
  intro t ht
  obtain ⟨bs, hs⟩ := ((sound_run jobs).tree ht).spells
  exact ⟨hs.indexed, fun candidate => (sound_run jobs).recognises ht candidate⟩

/-- After the errands, which graft a copy of the sum into it and so would repeat origins, the
index of the sum is exact, and the first part that was found is recognised in it. -/
theorem provenance_errands : ∃ t part, (run errands).forest.tree? "sum" = some t ∧
    (run errands).forest.tree? "part0" = some part ∧ t.hasCounterpart part = true ∧
    t.Indexed ∧ (run errands).Recognises t part := by
  have hhas : ((run errands).forest.tree? "sum").bind (fun t =>
      ((run errands).forest.tree? "part0").map t.hasCounterpart) = some true := by decide
  obtain ⟨t, ht, hpart⟩ := Option.bind_eq_some_iff.mp hhas
  obtain ⟨part, hp, hhas⟩ := Option.map_eq_some_iff.mp hpart
  obtain ⟨hindexed, hrecognises⟩ := run_provenance errands t (mem_trees_of_tree? ht)
  exact ⟨t, part, ht, hp, hhas, hindexed, hrecognises part⟩

end Workshop

end SyntaxTree
