/-
SyntaxTree/Proofs/Chronology.lean

The order of arrival is the order of creation.  Along the registry of every tree of a run the
identities increase, every node comes after its parent, and no node has an origin younger than
itself (`Chronological`), although grafts are listed behind everything else wherever they
stand, and neither siblings nor the two walks keep to that order.

Three observations make this an invariant:

  * A list of nodes in pre-order is chronological as soon as its identities increase
    (`chronological_grove`); that covers copies, grafts and finished assemblies.
  * A cut leaves sublists of the registry, with the links but not the order changed.
  * What is new has identities from the next free one on, and goes to the end.

It follows that a node is registered after all its ancestors, and that a search, which goes along
the registry, finds a subtree after every match that encloses it.
-/
import SyntaxTree.Proofs.Dominating
import SyntaxTree.Proofs.Yield

namespace SyntaxTree

open Branch Relation

namespace NodeId

variable {l : List NodeId} {i j : NodeId} {a b : Nat}

theorem lt_trans {i j k : NodeId} (hij : i < j) (hjk : j < k) : i < k := Nat.lt_trans hij hjk

theorem pairwise_block (first : NodeId) (k : Nat) : (first.block k).Pairwise (· < ·) := by
  rw [block, List.pairwise_map]
  exact List.pairwise_lt_range.imp fun hij => Nat.add_lt_add_left hij first.val

/-- In an increasing list the lesser of two identities comes first. -/
theorem lt_of_getElem?_lt (h : l.Pairwise (· < ·)) (ha : l[a]? = some i) (hb : l[b]? = some j)
    (hij : i < j) : a < b := by
  obtain ⟨ha', rfl⟩ := List.getElem?_eq_some_iff.mp ha
  obtain ⟨hb', rfl⟩ := List.getElem?_eq_some_iff.mp hb
  by_contra hle
  rcases Nat.lt_or_eq_of_le (Nat.le_of_not_lt hle) with hlt | rfl
  · exact Nat.lt_asymm hij (List.pairwise_iff_getElem.mp h b a hb' ha' hlt)
  · exact Nat.lt_irrefl _ hij

theorem idxOf_lt_of_lt (h : l.Pairwise (· < ·)) (hi : i ∈ l) (hj : j ∈ l) (hij : i < j) :
    l.idxOf i < l.idxOf j :=
  lt_of_getElem?_lt h (List.getElem?_idxOf hi) (List.getElem?_idxOf hj) hij

end NodeId

/-! ### Lists of nodes -/

/-- The nodes are listed in the order of their creation, and neither the parent nor the origin of a
node is younger than the node. -/
structure Chronological (ns : List Node) : Prop where
  increasing : (ns.map Node.id).Pairwise (· < ·)
  parent_lt : ∀ n ∈ ns, ∀ p, n.parent = some p → p < n.id
  origin_le : ∀ n ∈ ns, n.origin ≤ n.id

namespace Chronological

variable {ms ns : List Node}

theorem nil : Chronological [] := ⟨.nil, List.forall_mem_nil _, List.forall_mem_nil _⟩

theorem sublist (h : Chronological ns) (hms : ms.Sublist ns) : Chronological ms :=
  ⟨h.increasing.sublist (hms.map Node.id), fun n hn => h.parent_lt n (hms.subset hn),
    fun n hn => h.origin_le n (hms.subset hn)⟩

theorem append (hms : Chronological ms) (hns : Chronological ns)
    (hlt : ∀ m ∈ ms, ∀ n ∈ ns, m.id < n.id) : Chronological (ms ++ ns) := by
  constructor
  case increasing =>
    rw [List.map_append, List.pairwise_append]
    refine ⟨hms.increasing, hns.increasing, ?_⟩
    intro i hi j hj
    obtain ⟨m, hm, rfl⟩ := List.mem_map.mp hi
    obtain ⟨n, hn, rfl⟩ := List.mem_map.mp hj
    exact hlt m hm n hn
  case parent_lt =>
    intro n hn
    exact (List.mem_append.mp hn).elim (hms.parent_lt n) (hns.parent_lt n)
  case origin_le =>
    intro n hn
    exact (List.mem_append.mp hn).elim (hms.origin_le n) (hns.origin_le n)

/-- Nodes may lose their parents, and get other children. -/
theorem map (h : Chronological ns) {g : Node → Node} (hid : ∀ n, (g n).id = n.id)
    (horigin : ∀ n, (g n).origin = n.origin)
    (hparent : ∀ n p, (g n).parent = some p → n.parent = some p) : Chronological (ns.map g) := by
  constructor
  case increasing =>
    have hids : (ns.map g).map Node.id = ns.map Node.id := by
      rw [List.map_map]; exact List.map_congr_left fun n _ => hid n
    exact hids ▸ h.increasing
  case parent_lt =>
    intro n hn p hp
    obtain ⟨m, hm, rfl⟩ := List.mem_map.mp hn
    exact hid m ▸ h.parent_lt m hm p (hparent m p hp)
  case origin_le =>
    intro n hn
    obtain ⟨m, hm, rfl⟩ := List.mem_map.mp hn
    exact hid m ▸ horigin m ▸ h.origin_le m hm

theorem map_relink (h : Chronological ns) (k : Option NodeId) (f : List NodeId → List NodeId) :
    Chronological (ns.map (Node.relink k f)) := by
  refine h.map (Node.id_relink k f) (Node.origin_relink k f) ?_
  intro n p hp
  rw [Node.relink] at hp
  split at hp <;> exact hp

theorem map_reparent_none (h : Chronological ns) (i : NodeId) :
    Chronological (ns.map (Node.reparent i none)) := by
  refine h.map (Node.id_reparent i none) (Node.origin_reparent i none) ?_
  intro n p hp
  rw [Node.reparent] at hp
  split at hp
  · cases hp
  · exact hp

end Chronological

namespace Branch

theorem parent_lt {b : Branch} (hids : b.ids.Pairwise (· < ·)) {p : Option NodeId}
    (hp : ∀ q, p = some q → q < b.id) :
    ∀ n ∈ b.nodes p, ∀ q, n.parent = some q → q < n.id := by
  induction b generalizing p with
  | grow v bs ih =>
    rw [ids_grow, List.pairwise_cons] at hids
    obtain ⟨hbottom, hids⟩ := hids
    intro n hn q hq
    rw [nodes, List.mem_cons] at hn
    rcases hn with rfl | hn
    · exact hp q hq
    · -- the branches on the bottom have greater identities than it
      obtain ⟨b, hb, hn⟩ := mem_grove.mp hn
      refine ih b hb ((List.pairwise_flatMap.mp hids).1 b hb) ?_ n hn q hq
      rintro _ ⟨⟩
      exact hbottom b.id (List.mem_flatMap.mpr ⟨b, hb, b.id_mem_ids⟩)

/-- **Nodes in pre-order** are chronological if their identities increase, unless their parents
outside or their origins are younger. -/
theorem chronological_grove {bs : List Branch} (hids : (bs.flatMap ids).Pairwise (· < ·))
    {p : Option NodeId} (hp : ∀ q, p = some q → ∀ b ∈ bs, q < b.id)
    (horigin : ∀ v ∈ bs.flatMap buds, v.origin ≤ v.id) : Chronological (grove p bs) := by
  constructor
  case increasing => rwa [map_id_grove]
  case parent_lt =>
    intro n hn
    obtain ⟨b, hb, hn⟩ := mem_grove.mp hn
    exact parent_lt ((List.pairwise_flatMap.mp hids).1 b hb) (fun q hq => hp q hq b hb) n hn
  case origin_le =>
    intro n hn
    refine horigin n.bud ?_
    rw [← map_bud_grove p]
    exact List.mem_map_of_mem hn

end Branch

/-- **A finished assembly** is chronological if its nodes have been entered in the order of their
identities. -/
theorem Assembly.Sound.chronological_finish {a : Assembly} {t : Tree} {next : NodeId}
    (h : a.Sound next) (hkeys : a.nodes.keys.Pairwise (· < ·)) (hf : a.finish = .ok t) :
    Chronological t.nodeList := by
  obtain ⟨done, ht, rfl⟩ := h.exists_tracks hf
  have hnodes : a.nodes = registry (grove none done) := ht.nodes_eq
  rw [ht.spells.2]
  refine chronological_grove ?_ nofun ?_
  · rwa [← map_id_grove none, ← keys_registry, ← hnodes]
  · intro v hv
    rw [← map_bud_grove none] at hv
    obtain ⟨n, hn, rfl⟩ := List.mem_map.mp hv
    exact Nat.le_of_eq (congrArg NodeId.val (ht.own n hn).1)

namespace Tree

variable {t candidate graft : Tree} {bs : List Branch} {c : Place} {s : Branch} {next i j : NodeId}

/-! ### Trees that are made -/

theorem chronological_leaf (id : NodeId) (rule label : String) :
    Chronological (leaf id rule label).nodeList := by
  have hself : ∀ n ∈ (leaf id rule label).nodeList, n = Node.fresh id rule label := fun n hn =>
    List.mem_singleton.mp hn
  refine ⟨List.pairwise_singleton _ _, fun n hn p hp => ?_, fun n hn => ?_⟩
  · rw [hself n hn] at hp
    cases hp
  · rw [hself n hn]
    exact NodeId.le_refl id

namespace Sound

/-- The nodes of a copy have new identities, and origins from before. -/
theorem origin_le_of_mem_copied (h : t.Sound next) (hs : t.Spells (c.plug [s])) {v : Bud}
    (hv : v ∈ (s.copied next).buds) : v.origin ≤ v.id := by
  have horigin := List.mem_map_of_mem (f := Bud.origin) hv
  have hid : v.id ∈ (s.copied next).ids := List.mem_map_of_mem hv
  rw [map_origin_copied] at horigin
  rw [ids_copied next hs.nodup_ids_branch, NodeId.mem_block] at hid
  exact Nat.le_of_lt (NodeId.lt_of_lt_of_le (h.lt_of_mem_origins hs horigin) hid.1)

/-- **A copy is chronological**, whatever it is a copy of. -/
theorem chronological_copySubtree (h : t.Sound next) (hi : t.contains i = true) :
    Chronological (t.copySubtree i next).nodeList := by
  obtain ⟨c, s, hs, rfl⟩ := h.exists_place hi
  rw [hs.nodeList_copySubtree, ← grove_singleton]
  refine chronological_grove ?_ nofun ?_
  · rw [List.flatMap_singleton, ids_copied next hs.nodup_ids_branch]
    exact NodeId.pairwise_block next s.size
  · rw [List.flatMap_singleton]
    exact fun v => h.origin_le_of_mem_copied hs

end Sound

theorem chronological_ofEvents {events : List Event}
    (h : (ofEvents events next).1 = .ok t) : Chronological t.nodeList := by
  obtain ⟨a, ha, hf⟩ := ofEvents_eq_ok_iff.mp h
  obtain ⟨k, hnumbered, -⟩ := (Assembly.numbered_start next).applyAll events
  obtain ⟨hsound, -⟩ := (Assembly.sound_start next next).applyAll events
  rw [ha] at hnumbered hsound
  exact hsound.chronological_finish (hnumbered.keys_eq ▸ next.pairwise_block k) hf

/-! ### Trees that are changed -/

/-- **Both parts of a cut** keep the order. -/
theorem Sound.chronological_remove (ht : t.Sound next) (h : Chronological t.nodeList)
    {r : Removal} (hr : t.remove candidate = .ok r) :
    Chronological r.removed.nodeList ∧ Chronological r.rest.nodeList := by
  obtain ⟨c, s, hs, rfl⟩ := ht.exists_of_remove hr
  have hunlinked : Chronological (t.unlinkedNodes c s) := h.map_relink _ _
  refine ⟨?_, ?_⟩
  · show Chronological (t.detach s.id).removed.nodeList
    rw [hs.nodeList_removed]
    exact (hunlinked.sublist List.filter_sublist).map_reparent_none s.id
  · show Chronological (t.detach s.id).rest.nodeList
    rw [hs.nodeList_rest]
    exact hunlinked.sublist List.filter_sublist

theorem Spells.contains_parent (h : t.Spells (c.plug [s])) (hi : c.parent = some i) :
    t.contains i = true := by
  cases c with
  | top => cases hi
  | on v l r up => exact Option.some.inj hi ▸ h.up.contains_id

theorem Sound.chronological_graft (ht : t.Sound next) (hg : graft.Sound next)
    (hs : t.Spells (c.plug [s])) {b : Branch} (hb : graft.Spells [b]) :
    Chronological ((t.graft s (b.copied next)).nodes c.parent) := by
  rw [← grove_singleton]
  refine chronological_grove ?_ ?_ ?_
  · rw [List.flatMap_singleton, hb.ids_graft_copied]
    exact next.pairwise_block b.size
  · intro p hp d hd
    rw [List.mem_singleton.mp hd, id_graft, id_copied]
    exact ht.lt_of_contains (hs.contains_parent hp)
  · -- an origin that is taken gives way to the identity, and any other has been there before
    rw [List.flatMap_singleton, Tree.graft, buds_map]
    intro v hv
    obtain ⟨w, hw, rfl⟩ := List.mem_map.mp hv
    rw [Bud.origin_settle, Bud.id_settle]
    split
    · exact NodeId.le_refl w.id
    · exact hg.origin_le_of_mem_copied hb.atTop hw

/-- **A replacement** keeps the order: the graft is listed behind all that survives. -/
theorem Sound.chronological_replace (ht : t.Sound next) (hg : graft.Sound next)
    (h : Chronological t.nodeList) {r : Replacement}
    (hr : t.replace candidate graft next = .ok r) : Chronological r.result.nodeList := by
  obtain ⟨c, s, b, hs, hb, rfl⟩ := ht.exists_of_replace hg hr
  have hsurvivors : Chronological (t.survivors s) := h.sublist List.filter_sublist
  show Chronological (t.planted s.id (graft.copySubtree b.id next)).nodeList
  rw [(ht.scion hg hb).nodeList_planted hs, plantedNodes]
  refine (hsurvivors.map_relink _ _).append (ht.chronological_graft hg hs hb) ?_
  intro _ hold n hn
  obtain ⟨m, hm, rfl⟩ := List.mem_map.mp hold
  have hnew := List.mem_map_of_mem (f := Node.id) hn
  rw [map_id_nodes, hb.ids_graft_copied, NodeId.mem_block] at hnew
  rw [Node.id_relink]
  exact NodeId.lt_of_lt_of_le (ht.used m (mem_nodeList_of_mem_survivors hm)).1 hnew.1

/-! ### Ancestors -/

theorem Spells.lt_of_child (hs : t.Spells bs) (h : Chronological t.nodeList) (hij : t.Child i j) :
    i < j := by
  obtain ⟨n, hn, hlisted⟩ := hij
  obtain ⟨m, hm, hparent⟩ := hs.wellFormed.child_live i n j hn hlisted
  obtain ⟨hmem, rfl⟩ := hs.node?_eq_some_iff.mp hm
  exact h.parent_lt m hmem i hparent

/-- Going down leads to greater identities. -/
theorem Spells.lt_of_transGen (hs : t.Spells bs) (h : Chronological t.nodeList)
    (hij : TransGen t.Child i j) : i < j := by
  induction hij with
  | single hij => exact hs.lt_of_child h hij
  | tail _ hjk ih => exact NodeId.lt_trans ih (hs.lt_of_child h hjk)

/-- **An ancestor is live and older.** -/
theorem Sound.ancestor_lt (h : t.Sound next) (hc : Chronological t.nodeList)
    (hij : i ∈ t.ancestors j) : t.contains i = true ∧ i < j := by
  obtain ⟨bs, hs⟩ := h.spells
  have habove := (h.mem_ancestors_iff (contains_of_mem_ancestors hij)).mp hij
  exact ⟨contains_of_transGen habove, hs.lt_of_transGen hc habove⟩

end Tree

/-- **All trees that come of chronological trees** are chronological. -/
theorem Forest.Sound.chronological {f : Forest} {t : Tree} (hf : f.Sound)
    (h : ∀ t ∈ f.trees.values, Chronological t.nodeList) (ht : f.Yields t) :
    Chronological t.nodeList := by
  induction ht with
  | known ht => exact h _ ht
  | empty => exact Chronological.nil
  | leaf rule label => exact Tree.chronological_leaf f.next rule label
  | built ht => exact Tree.chronological_ofEvents ht
  | copied ht hi hle => exact ((hf _ ht).mono hle).chronological_copySubtree hi
  | removed ht hr => exact ((hf _ ht).chronological_remove (h _ ht) hr).1
  | left ht hr => exact ((hf _ ht).chronological_remove (h _ ht) hr).2
  | replaced ht hg hr => exact (hf _ ht).chronological_replace (hf _ hg) (h _ ht) hr
  | named _ _ ih => exact ih

/-! ### Runs -/

namespace Workshop

open SyntaxTree.Tree

variable {w : Workshop}

/-- An assembly under way after a job has been under way before, has just been started, or has just
been given an event. -/
theorem assembly_of_step {j : Job} {x : String} {b : Assembly}
    (hb : (w.step j).assemblies.get? x = some b) :
    w.assemblies.get? x = some b ∨ b = .start w.forest.next ∨
      ∃ a e, w.assemblies.get? x = some a ∧ b = ({ a with next := w.forest.next }.apply e).2 := by
  cases j with
  | command c => exact .inl hb
  | start name =>
    rw [Workshop.step, OrderedMap.get?_insert] at hb
    split at hb
    · exact .inr (.inl (Option.some.inj hb).symm)
    · exact .inl hb
  | event name e =>
    rw [Workshop.step] at hb
    cases ha : w.assemblies.get? name with
    | none =>
      rw [ha] at hb
      exact .inl hb
    | some a =>
      rw [ha] at hb
      replace hb : (w.assemblies.insert name _).get? x = some b := hb
      rw [OrderedMap.get?_insert] at hb
      split at hb
      case isTrue hx => exact .inr (.inr ⟨a, e, hx ▸ ha, (Option.some.inj hb).symm⟩)
      case isFalse => exact .inl hb
  | finish name dest title =>
    cases ha : w.assemblies.get? name with
    | none =>
      rw [Workshop.step, ha] at hb
      exact .inl hb
    | some a =>
      rw [(step_finish ha dest title).1, OrderedMap.get?_erase] at hb
      split at hb
      · cases hb
      · exact .inl hb

/-- All trees are chronological, and all assemblies have entered their nodes in order. -/
structure Orderly (w : Workshop) : Prop where
  trees : ∀ t ∈ w.trees, Chronological t.nodeList
  assemblies : ∀ name a, w.assemblies.get? name = some a → a.nodes.keys.Pairwise (· < ·)

theorem orderly_bare : bare.Orderly :=
  ⟨List.forall_mem_nil _, fun _ _ ha => nomatch ha⟩

/-- An assembly that gets an event enters its node behind the others. -/
theorem Orderly.keys_event (h : w.Orderly) (hx : w.Exclusive) {name : String} {a : Assembly}
    (ha : w.assemblies.get? name = some a) (e : Event) :
    ({ a with next := w.forest.next }.apply e).2.nodes.keys.Pairwise (· < ·) := by
  rw [Workshop.keys_event hx ha, List.pairwise_append]
  refine ⟨h.assemblies name a ha, w.forest.next.pairwise_block _, ?_⟩
  intro i hi j hj
  have hold := hx.used i (.assembly name) ⟨a, ha, hi⟩
  exact NodeId.lt_of_lt_of_le hold (NodeId.mem_block.mp hj).1

/-- **Every job keeps a workshop orderly.** -/
theorem Orderly.step (h : w.Orderly) (hw : w.Sound) (hx : w.Exclusive) (j : Job) :
    (w.step j).Orderly := by
  constructor
  case trees =>
    intro t ht
    cases hw.yields_step j t ht with
    | seen ht => exact h.trees t ht
    | commanded ht =>
      exact hw.forest.chronological (fun u hu => h.trees u (List.mem_append_left _ hu)) ht
    | finished ha hf =>
      have hsound := hw.assemblies _ (OrderedMap.mem_values_of_get? ha)
      have hfinished := hsound.chronological_finish (h.assemblies _ _ ha) hf
      exact hfinished
  case assemblies =>
    intro x b hb
    rcases assembly_of_step hb with hb | rfl | ⟨a, e, ha, rfl⟩
    · exact h.assemblies x b hb
    · exact .nil
    · exact h.keys_event hx ha e

theorem orderly_run (jobs : List Job) : (run jobs).Orderly := by
  induction jobs using List.reverseRecOn with
  | nil => exact orderly_bare
  | append_singleton jobs j ih =>
    rw [run, List.foldl_append]
    exact ih.step (sound_run jobs) (exclusive_run jobs) j

/-- **The order of arrival is the order of creation**, in every run: along the registry of a tree
the identities increase, no node is younger than its children or than its copies, and all ancestors
of a node come before it. The results of a search come in that order too: they are copies of the
subtrees at the nodes that pass the test, each recognised for its node, and one that encloses
another comes before it. -/
theorem run_chronological (jobs : List Job) {t : Tree} (ht : t ∈ (run jobs).trees) :
    t.nodeIds.Pairwise (· < ·) ∧
    (∀ n ∈ t.nodeList, (∀ p, n.parent = some p → p < n.id) ∧ n.origin ≤ n.id) ∧
    (∀ d, ∀ a ∈ t.ancestors d, t.nodeIds.idxOf a < t.nodeIds.idxOf d) ∧
    ∀ (test : Node → Bool) (next : NodeId),
      let found := (t.findAll test next).1
      (∀ i, i ∈ t.sources found ↔ t.passes test i = true) ∧
      List.Forall₂ (fun i u => (t.counterpart? u).map Node.id = some i ∧ ∃ f, t.Replica i f u)
        (t.sources found) found ∧
      ∀ (a b : Nat) (i j : NodeId), (t.sources found)[a]? = some i →
        (t.sources found)[b]? = some j → i ∈ t.ancestors j → a < b := by
  have h := (sound_run jobs).tree ht
  have hc := (orderly_run jobs).trees t ht
  obtain ⟨bs, hs⟩ := h.spells
  have hids : t.nodeIds.Pairwise (· < ·) := hs.nodeIds_eq ▸ hc.increasing
  refine ⟨hids, fun n hn => ⟨hc.parent_lt n hn, hc.origin_le n hn⟩, ?_, ?_⟩
  · intro d a ha
    obtain ⟨hlive, hlt⟩ := h.ancestor_lt hc ha
    have hd := contains_of_mem_ancestors ha
    exact NodeId.idxOf_lt_of_lt hids (contains_iff_mem_nodeIds.mp hlive)
      (contains_iff_mem_nodeIds.mp hd) hlt
  · intro test next found
    have hmatching : (t.matching test).Pairwise (· < ·) :=
      hc.increasing.sublist (List.filter_sublist.map Node.id)
    have hfound := h.forall₂_replica (fun i => hs.contains_of_mem_matching (p := test)) next
    rw [show t.sources found = _ from sources_eq hfound]
    refine ⟨fun i => hs.mem_matching_iff, hfound, fun a b i j ha hb hij => ?_⟩
    exact NodeId.lt_of_getElem?_lt hmatching ha hb (h.ancestor_lt hc hij).2

/-- After fifteen of the errands a copy of the sum stands on the left of an older node. It is
registered behind that node all the same, and found behind the sum that encloses it. -/
theorem chronological_errands :
    let test : Node → Bool := fun n => n.rule = "sum"
    ∃ t, (run (errands.take 15)).forest.tree? "sum" = some t ∧
      t.preOrder = [⟨1⟩, ⟨10⟩, ⟨11⟩, ⟨12⟩, ⟨4⟩] ∧ t.nodeIds = [⟨1⟩, ⟨4⟩, ⟨10⟩, ⟨11⟩, ⟨12⟩] ∧
      t.sources (t.findAll test ⟨13⟩).1 = [⟨1⟩, ⟨10⟩] ∧
      t.nodeIds.Pairwise (· < ·) ∧ t.nodeIds.idxOf ⟨10⟩ < t.nodeIds.idxOf ⟨11⟩ ∧
      ∀ a b : Nat, (t.sources (t.findAll test ⟨13⟩).1)[a]? = some ⟨1⟩ →
        (t.sources (t.findAll test ⟨13⟩).1)[b]? = some ⟨10⟩ → a < b := by
  intro test
  have hsum : ((run (errands.take 15)).forest.tree? "sum").map (fun t => decide (
      (t.preOrder = [⟨1⟩, ⟨10⟩, ⟨11⟩, ⟨12⟩, ⟨4⟩] ∧ t.nodeIds = [⟨1⟩, ⟨4⟩, ⟨10⟩, ⟨11⟩, ⟨12⟩] ∧
        t.sources (t.findAll test ⟨13⟩).1 = [⟨1⟩, ⟨10⟩]) ∧
      t.ancestors ⟨11⟩ = [⟨10⟩, ⟨1⟩] ∧ t.ancestors ⟨10⟩ = [⟨1⟩])) = some true := by
    decide
  obtain ⟨t, ht, hsum⟩ := Option.map_eq_some_iff.mp hsum
  obtain ⟨⟨hpre, hids, hsources⟩, habove, habove'⟩ := of_decide_eq_true hsum
  obtain ⟨hlt, -, hancestors, hsearch⟩ :=
    run_chronological (errands.take 15) (mem_trees_of_tree? ht)
  refine ⟨t, ht, hpre, hids, hsources, hlt, hancestors ⟨11⟩ ⟨10⟩ (by simp [habove]), ?_⟩
  intro a b ha hb
  exact (hsearch test ⟨13⟩).2.2 a b ⟨1⟩ ⟨10⟩ ha hb (by simp [habove'])

end Workshop

end SyntaxTree
