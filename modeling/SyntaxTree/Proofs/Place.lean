/-
SyntaxTree/Proofs/Place.lean

Places in a branch.  A place is a branch with a hole in it, given by the way from the hole
up to the bottom: at every level the bud that is passed, and the branches on its left and
on its right.  `plug c bs` puts branches `bs` side by side into the hole.

Cutting and grafting are statements about the same place with different fillings: a
subtree `s` that stands at `c` makes the tree `plug c [s]`, without it the tree is
`plug c []`, and with `g` in its stead `plug c [g]`.  `grove_plug` lists the nodes of all
three at once,

    grove none (plug c bs) = before c (bs.map id) ++ grove (parent c) bs ++ after c,

and of the nodes outside the hole only the one right above it depends on the filling.
-/
import SyntaxTree.Proofs.Branch

namespace SyntaxTree

open Branch

/-- A hole in a branch. -/
inductive Place where
  /-- Nothing is left but the hole. -/
  | top
  /-- The hole is between branches on a bud that itself stands at a place. -/
  | on (bud : Bud) (left right : List Branch) (up : Place)

namespace Place

/-- Puts branches side by side into the hole. -/
def plug : Place → List Branch → List Branch
  | top, bs => bs
  | on v l r up, bs => up.plug [grow v (l ++ bs ++ r)]

/-- The identity right above the hole. -/
def parent : Place → Option NodeId
  | top => none
  | on v _ _ _ => some v.id

/-- The nodes that come before the hole in pre-order, if the roots of the filling are `hole`. -/
def before : Place → List NodeId → List Node
  | top, _ => []
  | on v l r up, hole =>
    up.before [v.id] ++ v.node up.parent (l.map Branch.id ++ hole ++ r.map Branch.id)
      :: grove (some v.id) l

/-- The nodes that come after the hole in pre-order. -/
def after : Place → List Node
  | top => []
  | on v _ r up => grove (some v.id) r ++ up.after

/-- The bottoms of the branches on the left of the hole. -/
def leftIds : Place → List NodeId
  | top => []
  | on _ l _ _ => l.map Branch.id

/-- The bottoms of the branches on the right of the hole. -/
def rightIds : Place → List NodeId
  | top => []
  | on _ _ r _ => r.map Branch.id

/-- The nodes of a filled place in pre-order. -/
theorem grove_plug (c : Place) (bs : List Branch) :
    grove none (c.plug bs) = c.before (bs.map Branch.id) ++ grove c.parent bs ++ c.after := by
  induction c generalizing bs with
  | top => simp [plug, before, after, parent]
  | on v l r up ih =>
    rw [plug, ih, grove_singleton, nodes]
    simp only [before, after, parent, grove_append, List.map_append, List.map_cons, List.map_nil,
      id_grow, List.cons_append, List.append_assoc]

theorem length_plug_le_one (c : Place) {bs : List Branch} (h : bs.length ≤ 1) :
    (c.plug bs).length ≤ 1 := by
  induction c generalizing bs with
  | top => exact h
  | on v l r up ih => exact ih (Nat.le_refl 1)

/-- The bottom of the whole does not depend on the filling, unless the hole is all there is. -/
theorem head?_plug_on (v : Bud) (l r : List Branch) (up : Place) (bs cs : List Branch) :
    ((on v l r up).plug bs).head?.map Branch.id = ((on v l r up).plug cs).head?.map Branch.id := by
  induction up generalizing v l r bs cs with
  | top => rfl
  | on w l' r' up ih => exact ih w l' r' [grow v (l ++ bs ++ r)] [grow v (l ++ cs ++ r)]

theorem isSome_head?_plug_on (v : Bud) (l r : List Branch) (up : Place) (bs : List Branch) :
    ((on v l r up).plug bs).head?.isSome = true := by
  induction up generalizing v l r bs with
  | top => rfl
  | on w l' r' up ih => exact ih w l' r' [grow v (l ++ bs ++ r)]

/-- Every node of a branch is the bottom of a branch at some place of it. -/
theorem exists_plug_eq {b : Branch} {p : Option NodeId} {n : Node} (hn : n ∈ b.nodes p)
    (up : Place) (hp : up.parent = p) :
    ∃ c s, plug c [s] = up.plug [b] ∧ n = s.bottom c.parent := by
  induction b generalizing p up with
  | grow v bs ih =>
    rw [nodes_eq, List.mem_cons] at hn
    rcases hn with rfl | hn
    · exact ⟨up, grow v bs, rfl, by rw [hp]⟩
    · -- the node is in a branch on this one, between its neighbours
      obtain ⟨b, hb, hn⟩ := mem_grove.mp hn
      obtain ⟨l, r, rfl⟩ := List.append_of_mem hb
      obtain ⟨c, s, hcs, hs⟩ := ih b hb hn (on v l r up) rfl
      refine ⟨c, s, hcs.trans ?_, hs⟩
      rw [plug, List.append_assoc, List.singleton_append]

/-- Substituting where nothing outside the hole is concerned is substituting in the filling. -/
theorem map_substitute_plug {at? : NodeId → Option Branch} {c : Place} {bs : List Branch}
    {hole : List NodeId} (h : ∀ n ∈ c.before hole ++ c.after, at? n.id = none) :
    (c.plug bs).map (substitute at?) = c.plug (bs.map (substitute at?)) := by
  induction c generalizing bs hole with
  | top => rfl
  | on v l r up ih =>
    simp only [before, after, List.mem_append, List.mem_cons] at h
    have hv : at? v.id = none := h (v.node _ _) (Or.inl (Or.inr (Or.inl rfl)))
    -- nothing is given for the branches on either side of the hole
    have side : ∀ cs : List Branch, (∀ n ∈ grove (some v.id) cs, at? n.id = none) →
        cs.map (substitute at?) = cs := by
      intro cs hcs
      apply map_eq_self
      intro b hb
      apply substitute_eq_self
      intro i hi
      rw [← map_id_nodes (some v.id), List.mem_map] at hi
      obtain ⟨n, hn, rfl⟩ := hi
      exact hcs n (mem_grove.mpr ⟨b, hb, hn⟩)
    have hup : ∀ n ∈ up.before [v.id] ++ up.after, at? n.id = none := by
      intro n hn
      rcases List.mem_append.mp hn with hn | hn
      · exact h n (Or.inl (Or.inl hn))
      · exact h n (Or.inr (Or.inr hn))
    rw [plug, ih hup, plug, List.map_cons, List.map_nil, substitute_grow, hv, Option.getD_none,
      List.map_append, List.map_append, side l fun n hn => h n (Or.inl (Or.inr (Or.inr hn))),
      side r fun n hn => h n (Or.inr (Or.inl hn))]

end Place

namespace Place

/-! ### The buds around a hole -/

/-- The buds that are passed on the way up from the hole, and those of the branches on either
side. -/
def buds : Place → List Bud
  | top => []
  | on v l r up => up.buds ++ v :: (l.flatMap Branch.buds ++ r.flatMap Branch.buds)

/-- Changes every bud around the hole. -/
def map (g : Bud → Bud) : Place → Place
  | top => top
  | on v l r up => on (g v) (l.map (Branch.map g)) (r.map (Branch.map g)) (up.map g)

/-- A filled place has the buds around the hole and those of the filling. -/
theorem perm_buds_plug (c : Place) (bs : List Branch) :
    ((c.plug bs).flatMap Branch.buds).Perm (c.buds ++ bs.flatMap Branch.buds) := by
  induction c generalizing bs with
  | top => exact .refl _
  | on v l r up ih =>
    refine (ih [grow v (l ++ bs ++ r)]).trans ?_
    rw [buds, List.flatMap_singleton, buds_grow, List.flatMap_append, List.flatMap_append,
      List.append_assoc, List.append_assoc, List.cons_append, List.append_assoc]
    exact .append_left _ (.cons v (.append_left _ List.perm_append_comm))

/-- The nodes around a hole have the buds around it. -/
theorem perm_map_bud (c : Place) (hole : List NodeId) :
    ((c.before hole ++ c.after).map Node.bud).Perm c.buds := by
  induction c generalizing hole with
  | top => exact .refl _
  | on v l r up ih =>
    have hup := ih [v.id]
    rw [List.map_append] at hup
    rw [before, after, buds, List.append_assoc, List.cons_append, List.map_append, List.map_cons,
      List.map_append, List.map_append, map_bud_grove, map_bud_grove, Bud.bud_node,
      ← List.append_assoc (l.flatMap Branch.buds), ← List.cons_append]
    refine (List.Perm.append_left _ List.perm_append_comm).trans ?_
    rw [← List.append_assoc]
    exact hup.append_right _

theorem buds_map (g : Bud → Bud) (c : Place) : (c.map g).buds = c.buds.map g := by
  induction c with
  | top => rfl
  | on v l r up ih =>
    rw [map, buds, buds, ih, flatMap_buds_map, flatMap_buds_map, List.map_append, List.map_cons,
      List.map_append]

theorem map_plug (g : Bud → Bud) (c : Place) (bs : List Branch) :
    (c.plug bs).map (Branch.map g) = (c.map g).plug (bs.map (Branch.map g)) := by
  induction c generalizing bs with
  | top => rfl
  | on v l r up ih =>
    rw [plug, ih, map, plug, List.map_cons, List.map_nil, map_grow, List.map_append,
      List.map_append]

theorem map_congr {g h : Bud → Bud} {c : Place} (hgh : ∀ v ∈ c.buds, g v = h v) :
    c.map g = c.map h := by
  have side : ∀ bs : List Branch, (∀ v ∈ bs.flatMap Branch.buds, g v = h v) →
      bs.map (Branch.map g) = bs.map (Branch.map h) := fun bs hbs =>
    List.map_congr_left fun b hb => Branch.map_congr fun v hv =>
      hbs v (List.mem_flatMap.mpr ⟨b, hb, hv⟩)
  induction c with
  | top => rfl
  | on v l r up ih =>
    simp only [buds, List.mem_append, List.mem_cons] at hgh
    rw [map, map, ih fun w hw => hgh w (Or.inl hw), hgh v (Or.inr (Or.inl rfl)),
      side l fun w hw => hgh w (Or.inr (Or.inr (Or.inl hw))),
      side r fun w hw => hgh w (Or.inr (Or.inr (Or.inr hw)))]

end Place

/-! ### Changing the node above the hole -/

/-- Changes the list of children of the node `k` and of no other. -/
def Node.relink (k : Option NodeId) (g : List NodeId → List NodeId) (n : Node) : Node :=
  if some n.id = k then { n with children := g n.children } else n

@[simp] theorem Node.id_relink (k : Option NodeId) (g : List NodeId → List NodeId) (n : Node) :
    (n.relink k g).id = n.id := by
  unfold relink; split <;> rfl

@[simp] theorem Node.origin_relink (k : Option NodeId) (g : List NodeId → List NodeId) (n : Node) :
    (n.relink k g).origin = n.origin := by
  unfold relink; split <;> rfl

@[simp] theorem Node.bud_relink (k : Option NodeId) (g : List NodeId → List NodeId) (n : Node) :
    (n.relink k g).bud = n.bud := by
  unfold relink; split <;> rfl

theorem Node.map_relink_none (g : List NodeId → List NodeId) (ns : List Node) :
    ns.map (relink none g) = ns :=
  map_eq_self fun _ _ => rfl

theorem Node.map_id_relink (k : Option NodeId) (g : List NodeId → List NodeId) (ns : List Node) :
    (ns.map (relink k g)).map id = ns.map id := by
  rw [List.map_map]; exact List.map_congr_left fun n _ => n.id_relink k g

theorem Node.map_origin_relink (k : Option NodeId) (g : List NodeId → List NodeId)
    (ns : List Node) : (ns.map (relink k g)).map origin = ns.map origin := by
  rw [List.map_map]; exact List.map_congr_left fun n _ => n.origin_relink k g

theorem Node.map_relink_eq_self {k : NodeId} {g : List NodeId → List NodeId} {ns : List Node}
    (h : k ∉ ns.map id) : ns.map (relink (some k) g) = ns := by
  apply map_eq_self
  intro n hn
  refine if_neg fun e => h ?_
  exact Option.some.inj e ▸ List.mem_map_of_mem hn

namespace Place

/-- Of the nodes around a hole, only the one right above it knows how the hole is filled. -/
theorem map_relink_parent {c : Place} {hole hole' : List NodeId} {ms : List Node}
    {g : List NodeId → List NodeId}
    (hnd : ((c.before hole ++ ms ++ c.after).map Node.id).Nodup)
    (hg : g (c.leftIds ++ hole ++ c.rightIds) = c.leftIds ++ hole' ++ c.rightIds) :
    (c.before hole ++ ms ++ c.after).map (Node.relink c.parent g)
      = c.before hole' ++ ms ++ c.after := by
  cases c with
  | top => exact Node.map_relink_none g _
  | on v l r up =>
    have hv : (v.node up.parent (l.map Branch.id ++ hole ++ r.map Branch.id)).relink (some v.id) g
        = v.node up.parent (l.map Branch.id ++ hole' ++ r.map Branch.id) := by
      rw [Node.relink, Bud.id_node, if_pos rfl]
      exact congrArg (v.node up.parent) hg
    -- the bud right above the hole splits the list: it is neither before nor after itself
    have hsplit : ∀ hs, (on v l r up).before hs ++ ms ++ (on v l r up).after
        = up.before [v.id] ++ v.node up.parent (l.map Branch.id ++ hs ++ r.map Branch.id)
          :: (grove (some v.id) l ++ ms ++ (on v l r up).after) := by
      intro hs; simp [before]
    rw [hsplit] at hnd ⊢
    rw [hsplit, List.map_append, List.map_cons, parent, hv]
    rw [List.map_append, List.map_cons, Bud.id_node, List.nodup_middle, List.nodup_cons,
      List.mem_append, not_or] at hnd
    rw [Node.map_relink_eq_self hnd.1.1, Node.map_relink_eq_self hnd.1.2]

end Place

end SyntaxTree
