/-
SyntaxTree/Proofs/Graft.lean

Grafting a copy into the place of a subtree.

The loop that takes the copied nodes in decides about one node at a time whether its origin
is taken, and it reads the index that it is filling.  It does not have to: identities of
the copy are fresh, so a node that becomes an origin of its own takes no origin away from
a later one, and the origins that the copy brings along differ among themselves.  So every
decision can be made beforehand, by the origins that the survivors carry (`foldl_adopt`):

    ns.foldl adopt (t.withNodes ms) = t.withNodes (ms ++ ns.map (settle (ms.map origin))).

What comes out, `plantedNodes`, are the survivors in their old order, of which one has an
entry among its children overwritten, and then the grafted branch in pre-order.  They are
the nodes of the old place filled with the grafted branch (`Scion.spells_planted`).
-/
import SyntaxTree.Proofs.Cut

namespace SyntaxTree

/-! ### Settling origins -/

/-- An origin that is taken gives way to the identity. -/
def Bud.settle (taken : List NodeId) (v : Bud) : Bud :=
  if v.origin ∈ taken then { v with origin := v.id } else v

/-- A node with a settled bud. -/
def Node.settle (taken : List NodeId) (n : Node) : Node := (n.bud.settle taken).node n.parent n.children

@[simp] theorem Bud.id_settle (taken : List NodeId) (v : Bud) : (v.settle taken).id = v.id := by
  unfold settle; split <;> rfl

@[simp] theorem Bud.rule_settle (taken : List NodeId) (v : Bud) :
    (v.settle taken).rule = v.rule := by
  unfold settle; split <;> rfl

@[simp] theorem Bud.label_settle (taken : List NodeId) (v : Bud) :
    (v.settle taken).label = v.label := by
  unfold settle; split <;> rfl

theorem Bud.origin_settle (taken : List NodeId) (v : Bud) :
    (v.settle taken).origin = if v.origin ∈ taken then v.id else v.origin := by
  unfold settle; split <;> rfl

@[simp] theorem Node.id_settle (taken : List NodeId) (n : Node) : (n.settle taken).id = n.id :=
  n.bud.id_settle taken

theorem Node.origin_settle (taken : List NodeId) (n : Node) :
    (n.settle taken).origin = if n.origin ∈ taken then n.id else n.origin :=
  n.bud.origin_settle taken

theorem Node.settle_congr {taken taken' : List NodeId} {n : Node}
    (h : n.origin ∈ taken ↔ n.origin ∈ taken') : n.settle taken = n.settle taken' := by
  refine congrArg (fun v : Bud => v.node n.parent n.children) ?_
  rw [Bud.settle, Bud.settle]
  exact if_congr h rfl rfl

theorem Node.map_id_settle (taken : List NodeId) (ns : List Node) :
    (ns.map (settle taken)).map id = ns.map id := by
  rw [List.map_map]; exact List.map_congr_left fun n _ => n.id_settle taken

theorem Branch.nodes_settle (taken : List NodeId) (p : Option NodeId) (b : Branch) :
    (b.map (Bud.settle taken)).nodes p = (b.nodes p).map (Node.settle taken) := by
  have h := nodes_map (g := Bud.settle taken) (f := fun i => i) (Bud.id_settle taken) p b
  simp only [Option.map_id', List.map_id'] at h
  exact h

theorem Branch.ids_settle (taken : List NodeId) (b : Branch) :
    (b.map (Bud.settle taken)).ids = b.ids := by
  rw [← map_id_nodes none, nodes_settle, Node.map_id_settle, map_id_nodes]

/-- Nodes under fresh identities with different origins do not share an origin, among
themselves or with those that are there, once they are settled. -/
theorem Node.nodup_origins_settle {ms ns : List Node} (hms : (ms.map origin).Nodup)
    (hids : (ns.map id).Nodup) (hns : (ns.map origin).Nodup)
    (hfresh : ∀ n ∈ ns, n.id ∉ ms.map origin ∧ n.id ∉ ns.map origin) :
    ((ms ++ ns.map (settle (ms.map origin))).map origin).Nodup := by
  rw [List.map_append, List.map_map, List.nodup_append]
  refine ⟨hms, (hids.of_map _).map_on ?_, ?_⟩
  · -- an identity is never the origin of another node, kept or settled
    intro n hn m hm e
    simp only [Function.comp_apply, origin_settle] at e
    split at e <;> split at e
    · exact List.inj_on_of_nodup_map hids hn hm e
    · exact absurd (e ▸ List.mem_map_of_mem hm) (hfresh n hn).2
    · exact absurd (e ▸ List.mem_map_of_mem hn) (hfresh m hm).2
    · exact List.inj_on_of_nodup_map hns hn hm e
  · rintro o ho o' ho' rfl
    obtain ⟨n, hn, e⟩ := List.mem_map.mp ho'
    simp only [Function.comp_apply, origin_settle] at e
    split at e
    · exact (hfresh n hn).1 (e ▸ ho)
    case isFalse hfree => exact hfree (e ▸ ho)

/-! ### Rows of children -/

theorem Node.relink_relink (k : Option NodeId) (f g : List NodeId → List NodeId) (n : Node) :
    (n.relink k f).relink k g = n.relink k fun is => g (f is) := by
  by_cases h : some n.id = k
  · simp [relink, h]
  · simp [relink, h]

/-- Puts one identity in the place of another. -/
def NodeId.overwrite (i j : NodeId) (l : List NodeId) : List NodeId :=
  l.map fun k => if k = i then j else k

section Row

variable {l r : List NodeId} {i : NodeId}

/-- What occurs once in a row is found where it stands. -/
theorem idxOf?_middle (hnd : (l ++ [i] ++ r).Nodup) : (l ++ [i] ++ r).idxOf? i = some l.length := by
  induction l with
  | nil => simp [List.idxOf?_cons]
  | cons k l ih =>
    rw [List.cons_append, List.cons_append, List.nodup_cons] at hnd
    have hki : (k == i) = false := by
      rw [beq_eq_false_iff_ne]
      exact fun e => hnd.1 (by simp [e])
    rw [List.cons_append, List.cons_append, List.idxOf?_cons, hki, ih hnd.2]
    rfl

theorem overwrite_middle (hnd : (l ++ [i] ++ r).Nodup) (j : NodeId) :
    NodeId.overwrite i j (l ++ [i] ++ r) = l ++ [j] ++ r := by
  rw [List.append_assoc, List.singleton_append, List.nodup_middle, List.nodup_cons,
    List.mem_append, not_or] at hnd
  have keep : ∀ is : List NodeId, i ∉ is → (is.map fun k => if k = i then j else k) = is :=
    fun is h => map_eq_self fun k hk => if_neg fun e : k = i => h (e ▸ hk)
  rw [NodeId.overwrite, List.map_append, List.map_append, keep l hnd.1.1, keep r hnd.1.2]
  simp

/-- Dropping an entry and putting another in its position is overwriting it. -/
theorem insertIdx_filter_middle (hnd : (l ++ [i] ++ r).Nodup) (j : NodeId) :
    ((l ++ [i] ++ r).filter (· ≠ i)).insertIdx l.length j
      = NodeId.overwrite i j (l ++ [i] ++ r) := by
  rw [overwrite_middle hnd, filter_ne_middle hnd, List.append_nil]
  have insert : ∀ l : List NodeId, (l ++ r).insertIdx l.length j = l ++ [j] ++ r := by
    intro l
    induction l with
    | nil => rfl
    | cons k l ih => simpa using ih
  exact insert l

end Row

namespace Tree

/-! ### Taking nodes in -/

/-- What taking one node in does to the list of nodes. -/
theorem adopt_withNodes (t : Tree) {ms : List Node} {n : Node} (hid : n.id ∉ ms.map Node.id)
    (horigin : n.id ∉ ms.map Node.origin) :
    (t.withNodes ms).adopt n = t.withNodes (ms ++ [n.settle (ms.map Node.origin)]) := by
  have hsettled : (if (provenance ms).contains n.origin then { n with origin := n.id } else n)
      = n.settle (ms.map Node.origin) := by
    rw [Node.settle, Bud.settle]
    by_cases h : n.origin ∈ ms.map Node.origin
    · rw [if_pos (contains_provenance.mpr h), if_pos (show n.bud.origin ∈ _ from h)]; rfl
    · rw [if_neg fun h' => h (contains_provenance.mp h'), if_neg (show n.bud.origin ∉ _ from h)]
      rfl
  have hfree : (n.settle (ms.map Node.origin)).origin ∉ ms.map Node.origin := by
    rw [Node.origin_settle]
    split
    · exact horigin
    case isFalse h => exact h
  rw [adopt, show (t.withNodes ms).origins = provenance ms from rfl, hsettled, withNodes, registry_insert (by rwa [Node.id_settle]),
    provenance_insert hfree]
  rfl

/-- **Taking several nodes in**: whether an origin is taken can be decided beforehand. -/
theorem foldl_adopt (t : Tree) {ms ns : List Node} (hids : ((ms ++ ns).map Node.id).Nodup)
    (hns : (ns.map Node.origin).Nodup)
    (hfresh : ∀ n ∈ ns, n.id ∉ ms.map Node.origin ∧ n.id ∉ ns.map Node.origin) :
    ns.foldl adopt (t.withNodes ms)
      = t.withNodes (ms ++ ns.map (Node.settle (ms.map Node.origin))) := by
  induction ns generalizing ms with
  | nil => simp
  | cons n ns ih =>
    obtain ⟨hms, hself⟩ := hfresh n List.mem_cons_self
    rw [List.map_cons, List.nodup_cons] at hns
    rw [List.map_append, List.map_cons, List.nodup_middle, List.nodup_cons, List.mem_append,
      not_or] at hids
    -- the node just taken in takes no origin away from those that follow
    have hlater : ∀ m ∈ ns, m.origin ∈ (ms ++ [n.settle (ms.map Node.origin)]).map Node.origin ↔
        m.origin ∈ ms.map Node.origin := by
      intro m hm
      rw [List.map_append, List.mem_append, List.map_cons, List.map_nil, List.mem_singleton,
        Node.origin_settle]
      refine or_iff_left ?_
      split
      · exact fun e => hself (e ▸ List.mem_map_of_mem (List.mem_cons_of_mem _ hm))
      · exact fun e => hns.1 (e ▸ List.mem_map_of_mem hm)
    rw [List.foldl_cons, adopt_withNodes t hids.1.1 hms, ih, List.append_assoc]
    · have hrest : ns.map (Node.settle ((ms ++ [n.settle (ms.map Node.origin)]).map Node.origin))
          = ns.map (Node.settle (ms.map Node.origin)) :=
        List.map_congr_left fun m hm => Node.settle_congr (hlater m hm)
      rw [hrest, List.map_cons, List.singleton_append]
    · rw [List.append_assoc, List.map_append, List.map_append, List.map_cons, List.map_nil,
        Node.id_settle, List.singleton_append, List.nodup_middle, List.nodup_cons]
      exact ⟨by rw [List.mem_append, not_or]; exact hids.1, hids.2⟩
    · exact hns.2
    · intro m hm
      obtain ⟨h₁, h₂⟩ := hfresh m (List.mem_cons_of_mem _ hm)
      rw [List.map_cons, List.mem_cons, not_or] at h₂
      refine ⟨?_, h₂.2⟩
      rw [List.map_append, List.mem_append, not_or, List.map_cons, List.map_nil,
        List.mem_singleton, Node.origin_settle]
      refine ⟨h₁, ?_⟩
      split
      · exact fun e => hids.1.2 (e ▸ List.mem_map_of_mem hm)
      · exact h₂.1

/-! ### The survivors -/

section Survivors

variable {t : Tree} {c : Place} {s : Branch}

/-- The nodes of a tree that are not in a branch. -/
def survivors (t : Tree) (s : Branch) : List Node :=
  t.nodeList.filter fun n => !s.ids.contains n.id

theorem keptNodes_eq (t : Tree) (c : Place) (s : Branch) :
    t.keptNodes c s = (t.survivors s).map (Node.relink c.parent fun is => is.filter (· ≠ s.id)) := by
  rw [keptNodes, unlinkedNodes, List.filter_map, survivors]
  refine congrArg _ (List.filter_congr fun n _ => ?_)
  rw [Function.comp_apply, Node.id_relink]

theorem map_origin_keptNodes (t : Tree) (c : Place) (s : Branch) :
    (t.keptNodes c s).map Node.origin = (t.survivors s).map Node.origin := by
  rw [keptNodes_eq, Node.map_origin_relink]

/-- What is done to the children of the node above a place matters only for the children that it
has there. -/
theorem Spells.relink_congr (h : t.Spells (c.plug [s])) {f g : List NodeId → List NodeId}
    (hfg : f (c.leftIds ++ [s.id] ++ c.rightIds) = g (c.leftIds ++ [s.id] ++ c.rightIds))
    {n : Node} (hn : n ∈ t.nodeList) : n.relink c.parent f = n.relink c.parent g := by
  cases c with
  | top => rfl
  | on v l r up =>
    show n.relink (some v.id) f = n.relink (some v.id) g
    rw [Node.relink, Node.relink]
    split
    case isTrue hid =>
      -- the only node that is changed is the one above, whose children are the row
      have hnode : t.node? v.id = some n := Option.some.inj hid ▸ h.toCoherent.node?_id hn
      obtain rfl := Option.some.inj (hnode.symm.trans h.up.node?_id)
      have hrow : (l ++ [s] ++ r).map Branch.id = l.map Branch.id ++ [s.id] ++ r.map Branch.id := by
        simp
      have hf : f ((l ++ [s] ++ r).map Branch.id) = g ((l ++ [s] ++ r).map Branch.id) := by
        rw [hrow]; exact hfg
      exact congrArg (Bud.node v up.parent) hf
    case isFalse => rfl

/-- Where a branch stands: under the node above its place, behind the branches on its left. -/
theorem Spells.placeOf_id (h : t.Spells (c.plug [s])) :
    t.placeOf s.id = c.parent.map fun p => (p, c.leftIds.length) := by
  have hparent : (t.node? s.id).bind (·.parent) = c.parent := by rw [h.node?_id]; rfl
  show (t.node? s.id >>= fun n => n.parent >>= fun p => _) = _
  rw [← bind_assoc]
  show ((t.node? s.id).bind (·.parent) >>= _) = _
  rw [hparent]
  cases c with
  | top => rfl
  | on v l r up =>
    have hidx : ((l ++ [s] ++ r).map Branch.id).idxOf? s.id = some (l.map Branch.id).length := by
      rw [List.map_append, List.map_append]
      exact idxOf?_middle h.nodup_row
    show (t.node? v.id >>= fun m => m.children.idxOf? s.id >>= fun k => some (v.id, k)) = _
    rw [show t.node? v.id = _ from h.up.node?_id]
    show (((l ++ [s] ++ r).map Branch.id).idxOf? s.id >>= fun k => some (v.id, k)) = _
    rw [hidx]
    rfl

/-- The survivors of a cut, when something else has been put in the position of the cut. -/
theorem Spells.map_insertIdx_keptNodes (h : t.Spells (c.plug [s])) (j : NodeId) :
    (t.keptNodes c s).map (Node.relink c.parent fun is => is.insertIdx c.leftIds.length j)
      = (t.survivors s).map (Node.relink c.parent (NodeId.overwrite s.id j)) := by
  rw [keptNodes_eq, List.map_map]
  refine List.map_congr_left fun n hn => ?_
  rw [Function.comp_apply, Node.relink_relink]
  exact h.relink_congr (insertIdx_filter_middle h.nodup_row j) (List.mem_filter.mp hn).1

end Survivors

end Tree

end SyntaxTree
