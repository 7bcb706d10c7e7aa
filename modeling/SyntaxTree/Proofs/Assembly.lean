/-
SyntaxTree/Proofs/Assembly.lean

Trees made from events are sound.  What an assembly holds is a place with nothing on its
right: the trail of open nodes, innermost first, each with the branches that have been
closed on it already.  Entering a node makes the trail longer, leaving one closes its
branch; the nodes in the registry are at any time those of the place, in pre-order.

A second node at top level leaves no single branch to speak of.  From then on nothing is
claimed of the registry, and `finish` will refuse.
-/
import SyntaxTree.Assembly
import SyntaxTree.Proofs.Cut

namespace SyntaxTree

open Branch

/-! ### Trails -/

/-- The place behind all that has been grown along a trail of open nodes. -/
def Place.ofTrail : List (Bud × List Branch) → Place
  | [] => top
  | (v, l) :: trail => on v l [] (ofTrail trail)

/-- What has been grown: the branches `done` at the end of a trail. -/
def Branch.grown (trail : List (Bud × List Branch)) (done : List Branch) : List Branch :=
  (Place.ofTrail trail).plug done

theorem Place.after_ofTrail (trail : List (Bud × List Branch)) : (ofTrail trail).after = [] := by
  induction trail with
  | nil => rfl
  | cons frame trail ih => rw [ofTrail, after, grove_nil, ih, List.append_nil]

theorem Place.parent_ofTrail (trail : List (Bud × List Branch)) :
    (ofTrail trail).parent = (trail.map fun frame => frame.1.id).head? := by
  cases trail <;> rfl

/-- Opening a node lists it behind all others; only the innermost open node takes notice. -/
theorem Branch.grove_open (trail : List (Bud × List Branch)) (v : Bud)
    (hnd : ((grove none (grown trail [])).map Node.id).Nodup) :
    grove none (grown ((v, []) :: trail) [])
      = (grove none (grown trail [])).map
          (Node.relink (Place.ofTrail trail).parent fun is => is ++ [v.id])
        ++ [v.node (Place.ofTrail trail).parent []] := by
  have hold : grove none (grown trail [])
      = (Place.ofTrail trail).before [] ++ [] ++ (Place.ofTrail trail).after := by
    rw [grown, Place.grove_plug, grove_nil]; rfl
  have hright : (Place.ofTrail trail).rightIds = [] := by
    cases trail <;> rfl
  have hrow : (Place.ofTrail trail).leftIds ++ [] ++ (Place.ofTrail trail).rightIds ++ [v.id]
      = (Place.ofTrail trail).leftIds ++ [v.id] ++ (Place.ofTrail trail).rightIds := by
    simp [hright]
  have hmap := Place.map_relink_parent (g := fun is => is ++ [v.id]) (hold ▸ hnd) hrow
  rw [hold, hmap, grown, Place.ofTrail, Place.plug, Place.grove_plug, Place.after_ofTrail]
  simp [Branch.nodes]

theorem Branch.map_id_grove_open (trail : List (Bud × List Branch)) (v : Bud)
    (hnd : ((grove none (grown trail [])).map Node.id).Nodup) :
    (grove none (grown ((v, []) :: trail) [])).map Node.id
      = (grove none (grown trail [])).map Node.id ++ [v.id] := by
  rw [grove_open trail v hnd, List.map_append, Node.map_id_relink]; rfl

/-- What is left of a trail when its innermost node `v`, which has the branches `l` on it, is
closed: the branch goes to the node above, or is done if there is none. -/
def Branch.close (v : Bud) (l : List Branch) :
    List (Bud × List Branch) → List (Bud × List Branch) × List Branch
  | [] => ([], [grow v l])
  | (w, k) :: trail => ((w, k ++ [grow v l]) :: trail, [])

/-- Closing a node grows nothing. -/
theorem Branch.grown_close (v : Bud) (l : List Branch) (trail : List (Bud × List Branch)) :
    grown (close v l trail).1 (close v l trail).2 = grown ((v, l) :: trail) [] := by
  cases trail <;> simp [close, grown, Place.ofTrail, Place.plug]

theorem Branch.map_id_close (v : Bud) (l : List Branch) (trail : List (Bud × List Branch)) :
    (close v l trail).1.map (fun frame => frame.1.id) = trail.map fun frame => frame.1.id := by
  cases trail <;> rfl

namespace Assembly

/-- The registry lists what has been grown along the open nodes, in pre-order; the nodes are
their own origins and have been numbered before `next`. -/
structure Tracks (next : NodeId) (trail : List (Bud × List Branch)) (done : List Branch)
    (a : Assembly) : Prop where
  nodes_eq : a.nodes = registry (grove none (grown trail done))
  opened_eq : a.opened = trail.map fun frame => frame.1.id
  root_eq : a.root = (grown trail done).head?.map Branch.id
  nodup_ids : ((grove none (grown trail done)).map Node.id).Nodup
  own : ∀ n ∈ grove none (grown trail done), n.origin = n.id ∧ n.id < next
  length_le_one : done.length ≤ 1
  done_eq : trail ≠ [] → done = []

/-- As long as there has been no second node at top level, the assembly holds a place. -/
def Sound (next : NodeId) (a : Assembly) : Prop :=
  a.overflow = none → ∃ trail done, a.Tracks next trail done

variable {a : Assembly} {next later : NodeId}

theorem tracks_start (next from_ : NodeId) : (start from_).Tracks next [] [] := by
  refine ⟨?_, rfl, rfl, ?_, ?_, Nat.zero_le 1, fun _ => rfl⟩
  · show OrderedMap.empty = registry (grove none [])
    rw [grove_nil]; rfl
  · show ((grove none []).map Node.id).Nodup
    rw [grove_nil]; exact .nil
  · intro n hn
    rw [show grown [] [] = [] from rfl, grove_nil] at hn
    cases hn

theorem sound_start (next from_ : NodeId) : (start from_).Sound next :=
  fun _ => ⟨[], [], tracks_start next from_⟩

namespace Sound

theorem mono (h : a.Sound next) (hle : next ≤ later) : a.Sound later := by
  intro ho
  obtain ⟨trail, done, ht⟩ := h ho
  exact ⟨trail, done, ht.nodes_eq, ht.opened_eq, ht.root_eq, ht.nodup_ids,
    fun n hn => ⟨(ht.own n hn).1, NodeId.lt_of_lt_of_le (ht.own n hn).2 hle⟩,
    ht.length_le_one, ht.done_eq⟩

/-- The identity that the next node will get is of no concern to the nodes there are. -/
theorem withNext (h : a.Sound next) (free : NodeId) : ({ a with next := free } : Assembly).Sound next :=
  fun ho => (h ho).imp fun _ hd => hd.imp fun _ ht =>
    ⟨ht.nodes_eq, ht.opened_eq, ht.root_eq, ht.nodup_ids, ht.own, ht.length_le_one, ht.done_eq⟩

end Sound

/-- Where a node can be opened without overflow, all that is grown is on the trail. -/
theorem Tracks.done_eq_nil {trail : List (Bud × List Branch)} {done : List Branch}
    (ht : a.Tracks next trail done) (hfirst : (a.opened.isEmpty && a.root.isSome) = false) :
    done = [] := by
  cases trail with
  | cons frame trail => exact ht.done_eq (by simp)
  | nil =>
    have hroot : a.root = done.head?.map Branch.id := ht.root_eq
    rw [ht.opened_eq, hroot] at hfirst
    cases done with
    | nil => rfl
    | cons b done => simp at hfirst

/-- **Entering a node** makes the trail longer. -/
theorem Tracks.enter {trail : List (Bud × List Branch)} (ht : a.Tracks a.next trail [])
    (rule label : String) : (a.enter rule label).Tracks (a.enter rule label).next
      ((Bud.fresh a.next rule label, []) :: trail) [] := by
  have hgrove := grove_open trail (Bud.fresh a.next rule label) ht.nodup_ids
  have hfresh : a.next ∉ (grove none (grown trail [])).map Node.id := by
    intro hmem
    obtain ⟨n, hn, e⟩ := List.mem_map.mp hmem
    exact NodeId.not_lt_of_le (e ▸ NodeId.le_refl a.next) (ht.own n hn).2
  have hopened : a.opened.head? = (Place.ofTrail trail).parent := by
    rw [ht.opened_eq, Place.parent_ofTrail]
  refine ⟨?_, ?_, ?_, ?_, ?_, Nat.zero_le 1, fun _ => rfl⟩
  · -- the parent is told of the new node, which is then filed at the end
    have hnodes : (a.enter rule label).nodes
        = (registry ((grove none (grown trail [])).map
            (Node.relink (Place.ofTrail trail).parent fun is => is ++ [a.next]))).insert a.next
          ((Bud.fresh a.next rule label).node (Place.ofTrail trail).parent []) := by
      simp only [Assembly.enter, hopened, ht.nodes_eq]
      cases (Place.ofTrail trail).parent with
      | none =>
        refine congrArg (fun ns => (registry ns).insert a.next _) ?_
        exact (Node.map_relink_none _ _).symm
      | some p =>
        refine congrArg (fun m : OrderedMap NodeId Node => m.insert a.next _) ?_
        exact modify_registry _ p fun is => is ++ [a.next]
    rw [hnodes, hgrove]
    exact registry_insert (n := (Bud.fresh a.next rule label).node _ [])
      (by rwa [Node.map_id_relink])
  · rw [Assembly.enter, ht.opened_eq]; rfl
  · rw [Assembly.enter, ht.root_eq]
    cases trail with
    | nil => rfl
    | cons frame trail =>
      obtain ⟨w, l⟩ := frame
      -- there is a bottom already, and it stays
      have hhead := Place.head?_plug_on w l [] (Place.ofTrail trail) []
        [grow (Bud.fresh a.next rule label) []]
      have hsome := Place.isSome_head?_plug_on w l [] (Place.ofTrail trail) []
      exact (Option.or_of_isSome (by rw [Option.isSome_map]; exact hsome)).trans hhead
  · rw [map_id_grove_open trail _ ht.nodup_ids, List.nodup_append]
    refine ⟨ht.nodup_ids, List.nodup_singleton _, ?_⟩
    rintro i hi j hj rfl
    obtain rfl : i = a.next := List.mem_singleton.mp hj
    exact hfresh hi
  · intro n hn
    rw [hgrove, List.mem_append, List.mem_singleton] at hn
    rcases hn with hn | rfl
    · obtain ⟨m, hm, rfl⟩ := List.mem_map.mp hn
      rw [Node.id_relink, Node.origin_relink]
      exact ⟨(ht.own m hm).1, NodeId.lt_of_lt_of_le (ht.own m hm).2 (a.next.le_shift 1)⟩
    · exact ⟨rfl, Nat.lt_succ_self a.next.val⟩

/-- **Leaving a node** closes its branch. -/
theorem Tracks.exit {v : Bud} {l : List Branch} {trail : List (Bud × List Branch)}
    (ht : a.Tracks next ((v, l) :: trail) []) :
    a.exit.1 = .ok () ∧ a.exit.2.Tracks next (close v l trail).1 (close v l trail).2 := by
  have hexit : a.exit = (.ok (), { a with
      position := a.position + 1, opened := trail.map fun frame => frame.1.id }) := by
    rw [Assembly.exit, show a.opened = v.id :: trail.map _ from ht.opened_eq]
  have hgrown := grown_close v l trail
  rw [hexit]
  refine ⟨rfl, hgrown ▸ ht.nodes_eq, (map_id_close v l trail).symm, hgrown ▸ ht.root_eq,
    hgrown ▸ ht.nodup_ids, hgrown ▸ ht.own, ?_, ?_⟩
  · cases trail <;> simp [close]
  · cases trail <;> simp [close]

/-- If entering a node leaves no overflow, there was none, and the node is not a second one at
top level. -/
theorem overflow_enter_eq_none {rule label : String}
    (ho : (a.enter rule label).overflow = none) :
    (a.opened.isEmpty && a.root.isSome) = false ∧ a.overflow = none := by
  rw [Assembly.enter] at ho
  revert ho
  show (if _ then _ else _) = none → _
  split
  case isTrue => intro ho; simp at ho
  case isFalse hf => exact fun ho => ⟨Bool.eq_false_iff.mpr hf, ho⟩

theorem overflow_exit (a : Assembly) : a.exit.2.overflow = a.overflow := by
  rw [Assembly.exit]
  cases a.opened <;> rfl

/-- Entering a node keeps an assembly sound. -/
theorem Sound.enter (h : a.Sound a.next) (rule label : String) :
    (a.enter rule label).Sound (a.enter rule label).next := by
  intro ho
  obtain ⟨hfirst, ho⟩ := overflow_enter_eq_none ho
  obtain ⟨trail, done, ht⟩ := h ho
  obtain rfl := ht.done_eq_nil hfirst
  exact ⟨_, _, ht.enter rule label⟩

/-- Leaving a node keeps an assembly sound, and so does the attempt where none is open. -/
theorem Sound.exit (h : a.Sound next) : a.exit.2.Sound next := by
  intro ho
  obtain ⟨trail, done, ht⟩ := h (a.overflow_exit ▸ ho)
  cases trail with
  | nil =>
    have hexit : a.exit.2 = { a with position := a.position + 1 } := by
      rw [Assembly.exit, show a.opened = [] from ht.opened_eq]
    rw [hexit]
    exact ⟨[], done, ht.nodes_eq, ht.opened_eq, ht.root_eq, ht.nodup_ids, ht.own,
      ht.length_le_one, ht.done_eq⟩
  | cons frame trail =>
    -- with a node open, nothing lies finished at top level
    obtain rfl := ht.done_eq (by simp)
    exact ⟨_, _, ht.exit.2⟩

theorem next_exit (a : Assembly) : a.exit.2.next = a.next := by
  rw [Assembly.exit]
  cases a.opened <;> rfl

/-- **An event** keeps an assembly sound, whether it is refused or not. -/
theorem Sound.apply (h : a.Sound a.next) (e : Event) :
    (a.apply e).2.Sound (a.apply e).2.next ∧ a.next ≤ (a.apply e).2.next := by
  cases e with
  | enter rule label => exact ⟨h.enter rule label, a.next.le_shift 1⟩
  | exit =>
    show a.exit.2.Sound a.exit.2.next ∧ a.next ≤ a.exit.2.next
    rw [next_exit]
    exact ⟨h.exit, NodeId.le_refl a.next⟩

theorem Sound.applyAll (h : a.Sound a.next) (events : List Event) :
    (a.applyAll events).2.Sound (a.applyAll events).2.next ∧
      a.next ≤ (a.applyAll events).2.next := by
  induction events generalizing a with
  | nil => exact ⟨h, NodeId.le_refl a.next⟩
  | cons e events ih =>
    obtain ⟨hstep, hle⟩ := h.apply e
    rw [Assembly.applyAll]
    rcases hb : a.apply e with ⟨_ | _, b⟩
    · rw [hb] at hstep hle
      exact ⟨hstep, hle⟩
    · rw [hb] at hstep hle
      obtain ⟨hrest, hle'⟩ := ih hstep
      exact ⟨hrest, NodeId.le_trans hle hle'⟩

/-- The tree of a finished assembly is what has been grown. -/
theorem Tracks.spells {done : List Branch} (ht : a.Tracks next [] done) :
    (Tree.ofRegistry a.nodes a.root).Spells done ∧
      (Tree.ofRegistry a.nodes a.root).nodeList = grove none done := by
  have own : ∀ n ∈ grove none done, n.origin = n.id ∧ n.id < next := ht.own
  have horigins : (grove none done).map Node.origin = (grove none done).map Node.id :=
    List.map_congr_left fun n hn => (own n hn).1
  have hlist : (Tree.ofRegistry a.nodes a.root).nodeList = grove none done :=
    Tree.nodeList_eq_of_nodes_eq ht.nodes_eq
  have hcoherent : (Tree.ofRegistry (registry (grove none done)) a.root).Coherent :=
    Tree.coherent_ofRegistry ht.nodup_ids (horigins ▸ ht.nodup_ids)
  refine ⟨⟨?_, .of_eq hlist, ht.root_eq, ht.length_le_one⟩, hlist⟩
  rw [ht.nodes_eq]
  exact hcoherent

/-- A finished assembly has seen no second node at top level and has no node open. -/
theorem finish_eq_ok_iff {t : Tree} : a.finish = .ok t ↔
    a.overflow = none ∧ a.opened = [] ∧ t = Tree.ofRegistry a.nodes a.root := by
  rw [Assembly.finish]
  cases a.overflow with
  | some position => simp
  | none =>
    cases a.opened with
    | cons i opened => simp
    | nil => simp [eq_comm]

/-- With no node left open, all that a finished assembly holds is done. -/
theorem Sound.exists_tracks (h : a.Sound next) {t : Tree} (hf : a.finish = .ok t) :
    ∃ done, a.Tracks next [] done ∧ t = Tree.ofRegistry a.nodes a.root := by
  obtain ⟨ho, hopened, rfl⟩ := finish_eq_ok_iff.mp hf
  obtain ⟨trail, done, ht⟩ := h ho
  obtain rfl : trail = [] := List.map_eq_nil_iff.mp (ht.opened_eq.symm.trans hopened)
  exact ⟨done, ht, rfl⟩

/-- **The tree of a finished assembly** is sound. -/
theorem Sound.finish (h : a.Sound next) {t : Tree} (hf : a.finish = .ok t) : t.Sound next := by
  obtain ⟨done, ht, rfl⟩ := h.exists_tracks hf
  obtain ⟨hspells, hlist⟩ := ht.spells
  refine ⟨⟨done, hspells⟩, ?_⟩
  intro n hn
  rw [hlist] at hn
  obtain ⟨hown, hlt⟩ := ht.own n hn
  exact ⟨hlt, hown ▸ hlt⟩

end Assembly

/-- **The tree of a stream of events** is sound, and no identity is given out twice. -/
theorem Tree.sound_ofEvents (events : List Event) (next : NodeId) :
    next ≤ (ofEvents events next).2 ∧
      ∀ t, (ofEvents events next).1 = .ok t → t.Sound (ofEvents events next).2 := by
  obtain ⟨hsound, hle⟩ := (Assembly.sound_start next next).applyAll events
  rw [ofEvents]
  rcases ha : (Assembly.start next).applyAll events with ⟨e | _, a⟩
  · rw [ha] at hle
    exact ⟨hle, fun t ht => nomatch ht⟩
  · rw [ha] at hsound hle
    exact ⟨hle, fun t ht => hsound.finish ht⟩

end SyntaxTree
