/-
SyntaxTree/Proofs/Transcript.lean

Copying by scanning.  A copy can be made in one pass over the pre-order of a subtree: each
node is written down under the next identity, as a child of the copy of its parent, which
has been written before (`Transcript.take`).  No list of children is ever looked at; the
children of a copy come to it one by one.

`Transcript.written f next ns is` is the state of a scan that has come past the nodes `is`
and has written `ns` for them.  Scanning branches that stand side by side under a node adds
their copies to `ns`, and the bottoms of these to the children of the copy of that node
(`take_branches`); the induction is on the branches, not on the length of the list that is
scanned.  So the pass makes the copy that `copySubtree` makes, and uses up the same
identities (`Sound.transcribe_eq`).
-/
import SyntaxTree.Proofs.Graft
import SyntaxTree.Proofs.Replica

namespace SyntaxTree

open Branch

/-- A copy in the making. -/
structure Transcript where
  /-- The identity the next copy will get. -/
  next : NodeId
  /-- The copies made so far. -/
  copies : OrderedMap NodeId Node
  /-- The identities of the copies, by those of the nodes they were made of. -/
  mapped : OrderedMap NodeId NodeId

namespace Transcript

/-- Nothing copied yet. -/
def start (next : NodeId) : Transcript := ⟨next, .empty, .empty⟩

/-- Copies the node `i` of `t`, as the last child of the copy of its parent. The node `top` is
copied without a parent. -/
def take (t : Tree) (top : NodeId) (r : Transcript) (i : NodeId) : Transcript :=
  match t.node? i with
  | none => r
  | some n =>
    let parent := (if i = top then none else n.parent).bind r.mapped.get?
    let known := parent.elim r.copies fun p =>
      r.copies.modify p fun m => { m with children := m.children ++ [r.next] }
    { next := r.next.shift 1
      copies := known.insert r.next { n with id := r.next, parent, children := [] }
      mapped := r.mapped.insert i r.next }

end Transcript

/-- The copy that a pass over the subtree at `i` makes, and the first identity left unused. -/
def Tree.transcribe (t : Tree) (i next : NodeId) : Tree × NodeId :=
  let r := (t.preOrderFrom i).foldl (Transcript.take t i) (.start next)
  (Tree.ofRegistry r.copies (r.mapped.get? i), r.next)

namespace Transcript

/-- The copies `ns` have been made of the nodes `is`, under the identities that `f` gives. -/
def written (f : NodeId → NodeId) (next : NodeId) (ns : List Node) (is : List NodeId) :
    Transcript :=
  ⟨next, registry ns, .tabulate (fun i => i) f is⟩

/-- The branches `bs` stand under `p` and come next: the nodes `is`, with `p` among them, have been
copied, those of the branches have not, and `f` gives them the identities that come next. -/
structure Ahead (t : Tree) (top : NodeId) (f : NodeId → NodeId) (p next : NodeId) (ns : List Node)
    (is : List NodeId) (bs : List Branch) : Prop where
  live : ∀ n ∈ grove (some p) bs, t.node? n.id = some n
  top_notMem : top ∉ bs.flatMap ids
  parent_mem : p ∈ is
  copies : ns.map Node.id = is.map f
  nodup : ((is ++ bs.flatMap ids).map f).Nodup
  numbered : (bs.flatMap ids).map f = next.block (bs.flatMap ids).length

variable {t : Tree} {top p next : NodeId} {f : NodeId → NodeId} {ns : List Node} {is : List NodeId}
  {v : Bud} {b : Branch} {bs : List Branch}

/-- The nodes written so far, when the node `q` among them gets more children. -/
def joined (q : NodeId) (js : List NodeId) (ns : List Node) : List Node :=
  ns.map (Node.relink (some q) fun is => is ++ js)

theorem map_id_joined (q : NodeId) (js : List NodeId) (ns : List Node) :
    (joined q js ns).map Node.id = ns.map Node.id :=
  Node.map_id_relink _ _ ns

theorem joined_of_notMem {q : NodeId} {js : List NodeId} (h : q ∉ ns.map Node.id) :
    joined q js ns = ns :=
  Node.map_relink_eq_self h

theorem joined_append (q : NodeId) (js : List NodeId) (ns ms : List Node) :
    joined q js (ns ++ ms) = joined q js ns ++ joined q js ms :=
  List.map_append

theorem joined_joined (q : NodeId) (js ks : List NodeId) (ns : List Node) :
    joined q ks (joined q js ns) = joined q (js ++ ks) ns := by
  rw [joined, joined, List.map_map]
  refine List.map_congr_left fun n _ => ?_
  simp only [Function.comp_apply, Node.relink_relink, List.append_assoc]

theorem joined_bottom (f : NodeId → NodeId) (v : Bud) (p : Option NodeId) (js : List NodeId) :
    joined (f v.id) js [(v.renumber f).node p []] = [(v.renumber f).node p js] :=
  congrArg (fun n => [n]) (if_pos rfl)

theorem nodes_renumber_grow (f : NodeId → NodeId) (v : Bud) (bs : List Branch) (p : Option NodeId) :
    ((grow v bs).renumber f).nodes p = (v.renumber f).node p ((bs.map Branch.id).map f)
      :: grove (some (f v.id)) (bs.map (renumber f)) := by
  rw [renumber, map_grow, nodes, map_id_map (f := f) fun _ => rfl]
  rfl

theorem shift_size_grow (next : NodeId) (v : Bud) (bs : List Branch) :
    next.shift (grow v bs).size = (next.shift 1).shift (bs.flatMap ids).length := by
  rw [size_grow, Nat.add_comm, NodeId.shift_add]

/-! ### One node -/

/-- A node whose parent has been copied is copied as its last child. -/
theorem take_written {i : NodeId} {n : Node} (hn : t.node? i = some n) (hi : i ≠ top)
    (hparent : n.parent = some p) (hp : p ∈ is) (his : is.Nodup) (hnew : i ∉ is)
    (hfresh : next ∉ ns.map Node.id) (hf : f i = next) :
    take t top (written f next ns is) i = written f (next.shift 1)
      (joined (f p) [next] ns ++ [{ n with id := next, parent := some (f p), children := [] }])
      (is ++ [i]) := by
  have hmapped : ((OrderedMap.tabulate (fun i => i) f is).get? p) = some (f p) :=
    (OrderedMap.get?_tabulate_eq_some_iff (by simpa using his)).mpr ⟨p, hp, rfl, rfl⟩
  have hcopies : ((registry ns).modify (f p) fun m => { m with children := m.children ++ [next] })
      = registry (joined (f p) [next] ns) := modify_registry ns (f p) fun is => is ++ [next]
  have hwritten : next ∉ (joined (f p) [next] ns).map Node.id := by rwa [map_id_joined]
  have hinsert := registry_insert (n := { n with id := next, parent := some (f p), children := [] })
    hwritten
  have hseen : (OrderedMap.tabulate (fun i => i) f is).insert i next
      = .tabulate (fun i => i) f (is ++ [i]) := by
    rw [← hf]
    exact OrderedMap.insert_tabulate (by simpa using hnew)
  rw [take, hn]
  simp only [written, if_neg hi, hparent, Option.bind_some, hmapped, Option.elim_some, hcopies,
    hinsert, hseen]

/-! ### Branches -/

/-- Numbering one list after another. -/
theorem numbered_append {l l' : List NodeId} (h : (l ++ l').map f = next.block (l ++ l').length) :
    l.map f = next.block l.length ∧ l'.map f = (next.shift l.length).block l'.length := by
  rw [List.map_append, List.length_append, NodeId.block_add] at h
  exact List.append_inj h (by rw [List.length_map, NodeId.length_block])

namespace Ahead

/-- No copy of what comes next has been made before. -/
theorem disjoint (h : Ahead t top f p next ns is bs) :
    (ns.map Node.id).Disjoint ((bs.flatMap ids).map f) := by
  rw [h.copies]
  exact List.disjoint_of_nodup_append (List.map_append ▸ h.nodup)

/-- The node that the branches stand under is not one of them, and so it is with the copies. -/
theorem parent_notMem (h : Ahead t top f p next ns is bs) : f p ∉ (bs.flatMap ids).map f :=
  h.disjoint (h.copies ▸ List.mem_map_of_mem h.parent_mem)

theorem first (h : Ahead t top f p next ns is (b :: bs)) : Ahead t top f p next ns is [b] := by
  obtain ⟨hlive, htop, hp, hcopies, hnd, hnumbered⟩ := h
  rw [List.flatMap_cons] at htop hnd hnumbered
  rw [← List.append_assoc, List.map_append] at hnd
  constructor
  case live =>
    intro n hn
    rw [grove_singleton] at hn
    exact hlive n (by rw [grove_cons]; exact List.mem_append_left _ hn)
  case top_notMem =>
    rw [List.flatMap_singleton]
    exact fun hmem => htop (List.mem_append_left _ hmem)
  case parent_mem => exact hp
  case copies => exact hcopies
  case nodup =>
    rw [List.flatMap_singleton]
    exact hnd.of_append_left
  case numbered =>
    rw [List.flatMap_singleton]
    exact (numbered_append hnumbered).1

/-- What comes next when the nodes `js` have been copied. -/
theorem advance (h : Ahead t top f p next ns is bs) {q : NodeId} {js : List NodeId}
    {cs : List Branch} {ms : List Node} (hids : bs.flatMap ids = js ++ cs.flatMap ids)
    (hcs : grove (some q) cs ⊆ grove (some p) bs) (hq : q ∈ is ++ js)
    (hms : ms.map Node.id = ns.map Node.id ++ js.map f) :
    Ahead t top f q (next.shift js.length) ms (is ++ js) cs := by
  obtain ⟨hlive, htop, -, hcopies, hnd, hnumbered⟩ := h
  rw [hids] at htop hnd hnumbered
  refine ⟨fun n hn => hlive n (hcs hn), ?_, hq, ?_, ?_, (numbered_append hnumbered).2⟩
  · exact fun hmem => htop (List.mem_append_right _ hmem)
  · rw [hms, hcopies, List.map_append]
  · rwa [List.append_assoc]

/-- What comes next when the first branch has been copied. -/
theorem rest (h : Ahead t top f p next ns is (b :: bs)) :
    Ahead t top f p (next.shift b.size)
      (joined (f p) [f b.id] ns ++ (b.renumber f).nodes (some (f p))) (is ++ b.ids) bs := by
  refine h.advance List.flatMap_cons ?_ (List.mem_append_left _ h.parent_mem) ?_
  · rw [grove_cons]
    exact List.subset_append_right _ _
  · rw [List.map_append, map_id_joined, map_id_nodes, ids_renumber]

/-- What comes next when the bottom of a branch has been copied. -/
theorem inner (h : Ahead t top f p next ns is [grow v bs]) :
    Ahead t top f v.id (next.shift 1)
      (joined (f p) [f v.id] ns ++ [(v.renumber f).node (some (f p)) []]) (is ++ [v.id])
      bs := by
  refine h.advance ?_ ?_ (List.mem_append_right _ (List.mem_singleton_self _)) ?_
  · rw [List.flatMap_singleton, ids_grow, List.singleton_append]
  · rw [grove_singleton, nodes]
    exact List.subset_cons_self _ _
  · rw [List.map_append, map_id_joined]
    rfl

/-- The bottom of the branch that comes next is copied next. -/
theorem take_bottom (h : Ahead t top f p next ns is [grow v bs]) :
    take t top (written f next ns is) v.id = written f (next.shift 1)
      (joined (f p) [f v.id] ns ++ [(v.renumber f).node (some (f p)) []])
      (is ++ [v.id]) := by
  have hmem : v.id ∈ [grow v bs].flatMap ids := by simp [ids_grow]
  have hnode : t.node? v.id = some (v.node (some p) (bs.map Branch.id)) :=
    h.live _ (by rw [grove_singleton]; exact bottom_mem_nodes (some p) (grow v bs))
  have hne : v.id ≠ top := ne_of_mem_of_not_mem hmem h.top_notMem
  have hfree : f v.id ∉ ns.map Node.id := fun hused => h.disjoint hused (List.mem_map_of_mem hmem)
  have hnew : v.id ∉ is := fun hused => hfree (h.copies ▸ List.mem_map_of_mem hused)
  have hnext : f v.id = next := by
    have hnumbered := h.numbered
    rw [List.flatMap_singleton, ids_grow, ← List.singleton_append] at hnumbered
    exact List.singleton_inj.mp (numbered_append hnumbered).1
  subst hnext
  exact take_written hnode hne rfl h.parent_mem (h.nodup.of_map f).of_append_left hnew hfree rfl

end Ahead

mutual

theorem take_branch : ∀ {b : Branch} {p next : NodeId} {ns : List Node} {is : List NodeId},
    Ahead t top f p next ns is [b] →
    b.ids.foldl (take t top) (written f next ns is) = written f (next.shift b.size)
      (joined (f p) [f b.id] ns ++ (b.renumber f).nodes (some (f p))) (is ++ b.ids)
  | grow v bs, p, next, ns, is, h => by
    have hbelow := take_branches h.inner
    have hfree : f v.id ∉ (joined (f p) [f v.id] ns).map Node.id := by
      rw [map_id_joined]
      exact fun hmem => h.disjoint hmem (by simp [ids_grow])
    -- what has been copied before is not concerned, and the bottom gets its children
    rw [joined_append, joined_of_notMem hfree, joined_bottom] at hbelow
    rw [ids_grow, List.foldl_cons, h.take_bottom, hbelow, shift_size_grow, nodes_renumber_grow,
      List.append_assoc, List.append_assoc, List.singleton_append, List.singleton_append]
    rfl

/-- **Scanning branches** that stand side by side adds their copies, and makes the bottoms of the
copies the next children of the copy of the node they stand under. -/
theorem take_branches : ∀ {bs : List Branch} {p next : NodeId} {ns : List Node} {is : List NodeId},
    Ahead t top f p next ns is bs →
    (bs.flatMap ids).foldl (take t top) (written f next ns is)
      = written f (next.shift (bs.flatMap ids).length)
        (joined (f p) ((bs.map Branch.id).map f) ns ++ grove (some (f p)) (bs.map (renumber f)))
        (is ++ bs.flatMap ids)
  | [], p, next, ns, is, _ => by
    have hjoined : joined (f p) [] ns = ns := by
      refine map_eq_self fun n _ => ?_
      rw [Node.relink]
      split <;> simp
    rw [List.map_nil, List.map_nil, List.map_nil, grove_nil, List.append_nil, hjoined]
    simp [NodeId.shift]
  | b :: bs, p, next, ns, is, h => by
    have hfirst := take_branch h.first
    have hrest := take_branches h.rest
    have hout : f p ∉ ((b.renumber f).nodes (some (f p))).map Node.id := by
      have hnot := h.first.parent_notMem
      rwa [List.flatMap_singleton, ← ids_renumber, ← map_id_nodes (some (f p))] at hnot
    rw [joined_append, joined_of_notMem hout, joined_joined] at hrest
    -- the children of the copy come in two steps, the first bottom and then the others
    rw [List.flatMap_cons, List.length_append, NodeId.shift_add, List.foldl_append, hfirst]
    rw [← size, hrest, List.map_cons, List.map_cons, List.map_cons, grove_cons, List.append_assoc,
      List.append_assoc, List.singleton_append]

end

/-! ### Whole subtrees -/

/-- The first node is copied without a parent. -/
theorem take_start {above : Option NodeId} {js : List NodeId}
    (hn : t.node? v.id = some (v.node above js)) (hf : f v.id = next) :
    take t v.id (start next) v.id
      = written f (next.shift 1) [(v.renumber f).node none []] [v.id] := by
  subst hf
  rw [take, hn]
  simp only [if_pos]
  rfl

variable {above : Option NodeId} (hlive : ∀ n ∈ (grow v bs).nodes above, t.node? n.id = some n)
  (hnd : (grow v bs).ids.Nodup)
  (hnumbered : (grow v bs).ids.map f = next.block (grow v bs).ids.length)

include hlive hnd hnumbered

/-- What comes next when the first node has been copied. -/
theorem ahead_start :
    Ahead t v.id f v.id (next.shift 1) [(v.renumber f).node none []] [v.id] bs := by
  have hfresh : ((grow v bs).ids.map f).Nodup := hnumbered ▸ NodeId.nodup_block next _
  rw [ids_grow] at hnd hfresh
  rw [ids_grow, ← List.singleton_append] at hnumbered
  refine ⟨fun n hn => hlive n ?_, (List.nodup_cons.mp hnd).1, List.mem_singleton_self _, rfl, hfresh,
    (numbered_append hnumbered).2⟩
  rw [nodes]
  exact List.mem_cons_of_mem _ hn

/-- **A pass over a branch** writes down the nodes of the renumbered branch, in pre-order. -/
theorem take_all :
    (grow v bs).ids.foldl (take t v.id) (start next)
      = written f (next.shift (grow v bs).size) (((grow v bs).renumber f).nodes none)
        (grow v bs).ids := by
  have hbelow := take_branches (ahead_start hlive hnd hnumbered)
  have hfirst : f v.id = next := by
    rw [ids_grow, ← List.singleton_append] at hnumbered
    exact List.singleton_inj.mp (numbered_append hnumbered).1
  have hnode : t.node? v.id = some (v.node above (bs.map Branch.id)) :=
    hlive _ (bottom_mem_nodes above (grow v bs))
  rw [joined_bottom] at hbelow
  rw [ids_grow, List.foldl_cons, take_start hnode hfirst, hbelow, shift_size_grow,
    nodes_renumber_grow]
  rfl

end Transcript

namespace Tree

variable {t : Tree} {c : Place} {s : Branch} {next i : NodeId}

theorem Spells.transcribe_eq (h : t.Spells (c.plug [s])) (next : NodeId) :
    t.transcribe s.id next = (t.copySubtree s.id next, next.shift s.size) := by
  have hnd := h.nodup_ids_branch
  have hnumbered : s.ids.map (s.copiedId next) = next.block s.ids.length :=
    NodeId.map_shift_idxOf hnd next
  have hpass : s.ids.foldl (Transcript.take t s.id) (.start next)
      = .written (s.copiedId next) (next.shift s.size) ((s.copied next).nodes none) s.ids := by
    obtain ⟨v, bs⟩ := s
    have hlive := fun n hn => h.toCoherent.node?_id (h.mem_nodeList (n := n) hn)
    exact Transcript.take_all hlive hnd hnumbered
  have hfirst : s.copiedId next s.id = next := (id_renumber _ s).symm.trans (id_copied next s)
  have hroot : (OrderedMap.tabulate (fun i => i) (s.copiedId next) s.ids).get? s.id = some next :=
    (OrderedMap.get?_tabulate_eq_some_iff (by simpa using hnd)).mpr ⟨_, s.id_mem_ids, rfl, hfirst⟩
  rw [transcribe, h.preOrderFrom_id, hpass, h.bears.copySubtree_eq hnd]
  exact congrArg (fun root => (ofRegistry _ root, next.shift s.size)) hroot

/-- **Scanning makes the copy**, and uses up as many identities as it has nodes. -/
theorem Sound.transcribe_eq {free : NodeId} (h : t.Sound free) (hi : t.contains i = true)
    (next : NodeId) :
    t.transcribe i next = (t.copySubtree i next, next.shift (t.preOrderFrom i).length) := by
  obtain ⟨c, s, hs, rfl⟩ := h.exists_place hi
  rw [hs.transcribe_eq, hs.preOrderFrom_id]
  rfl

end Tree

end SyntaxTree
