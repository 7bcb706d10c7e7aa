/-
SyntaxTree/Proofs/Branch.lean

Branches: ordered rooted trees in the plain inductive sense.  A `Tree` knows its shape
only through identities that its nodes hold of each other; a `Branch` has its branches
below it, so that a function on it is a recursion and a statement about it an induction.

A branch determines its nodes.  `nodes parent b` lists them in pre-order, and the parent
and the children of each are computed from where it stands:

    nodes parent (grow v bs) = v.node parent (bs.map id) :: grove (some v.id) bs.

Links that disagree cannot be written down this way, and what the theory of trees has to
show of an operation is only that its registry lists the nodes of the right branches.

All further functions on branches are folds (`fold_grow`).
-/
import Mathlib.Data.List.Nodup
import SyntaxTree.Node

namespace SyntaxTree

section Lists

variable {α : Type} {l : List α}

theorem map_eq_self {f : α → α} (h : ∀ x ∈ l, f x = x) : l.map f = l := by
  rw [List.map_congr_left h, List.map_id']

theorem filterMap_eq_self {f : α → Option α} (h : ∀ x ∈ l, f x = some x) : l.filterMap f = l := by
  rw [List.filterMap_congr h, List.filterMap_some]

end Lists

/-- What a node is by itself, apart from its relatives. -/
structure Bud where
  /-- The identity of the node. -/
  id : NodeId
  /-- The identity under which the node, or the node it is a copy of, was created. -/
  origin : NodeId
  /-- The name of the grammar rule. -/
  rule : String
  /-- The text the rule matched. -/
  label : String
deriving DecidableEq, Repr

/-- A node without its relatives. -/
def Node.bud (n : Node) : Bud := ⟨n.id, n.origin, n.rule, n.label⟩

/-- A bud among relatives. -/
def Bud.node (v : Bud) (parent : Option NodeId) (children : List NodeId) : Node :=
  ⟨v.id, v.origin, v.rule, v.label, parent, children⟩

@[simp] theorem Bud.bud_node (v : Bud) (parent : Option NodeId) (children : List NodeId) :
    (v.node parent children).bud = v := rfl

@[simp] theorem Bud.id_node (v : Bud) (parent : Option NodeId) (children : List NodeId) :
    (v.node parent children).id = v.id := rfl

/-- A node and everything below it. -/
inductive Branch where
  /-- Branches put side by side under a bud. -/
  | grow (bud : Bud) (limbs : List Branch)

namespace Branch

/-- The bud at the bottom of a branch. -/
def bud : Branch → Bud
  | grow v _ => v

/-- The branches that start from the bottom of a branch, from left to right. -/
def limbs : Branch → List Branch
  | grow _ bs => bs

/-- The identity of the node at the bottom of a branch. -/
def id (b : Branch) : NodeId := b.bud.id

@[simp] theorem id_grow (v : Bud) (bs : List Branch) : (grow v bs).id = v.id := rfl

theorem grow_bud_limbs (b : Branch) : grow b.bud b.limbs = b := by
  cases b; rfl

/-! ### Recursion and induction -/

mutual

/-- Combines every bud with what the branches on it came to, from left to right. -/
def fold {α : Type} (f : Bud → List α → α) : Branch → α
  | grow v bs => f v (foldAll f bs)

/-- What each of several branches comes to. -/
def foldAll {α : Type} (f : Bud → List α → α) : List Branch → List α
  | [] => []
  | b :: bs => fold f b :: foldAll f bs

end

theorem foldAll_eq_map {α : Type} (f : Bud → List α → α) (bs : List Branch) :
    foldAll f bs = bs.map (fold f) := by
  induction bs with
  | nil => rfl
  | cons b bs ih => rw [foldAll, ih, List.map_cons]

theorem fold_grow {α : Type} (f : Bud → List α → α) (v : Bud) (bs : List Branch) :
    fold f (grow v bs) = f v (bs.map (fold f)) := by
  rw [fold, foldAll_eq_map]

/-- What holds of a branch as soon as it holds of all branches on it, holds of every branch. -/
@[elab_as_elim, induction_eliminator]
theorem induction {motive : Branch → Prop}
    (grow : ∀ v bs, (∀ b ∈ bs, motive b) → motive (grow v bs)) (b : Branch) : motive b :=
  @Branch.rec motive (fun bs => ∀ b ∈ bs, motive b) grow (fun _ hb => nomatch hb)
    (fun _ _ hb hbs _ hc => (List.mem_cons.mp hc).elim (fun e => e ▸ hb) (hbs _)) b

/-! ### The nodes of a branch -/

mutual

/-- The nodes of a branch in pre-order, if its bottom stands under `parent`. -/
def nodes (parent : Option NodeId) : Branch → List Node
  | grow v bs => v.node parent (bs.map id) :: grove (some v.id) bs

/-- The nodes of branches side by side under `parent`. -/
def grove (parent : Option NodeId) : List Branch → List Node
  | [] => []
  | b :: bs => nodes parent b ++ grove parent bs

end

/-- The node at the bottom of a branch. -/
def bottom (parent : Option NodeId) (b : Branch) : Node := b.bud.node parent (b.limbs.map id)

theorem nodes_eq (p : Option NodeId) (b : Branch) :
    b.nodes p = b.bottom p :: grove (some b.id) b.limbs := by
  cases b; rw [nodes]; rfl

@[simp] theorem grove_nil (p : Option NodeId) : grove p [] = [] := by rw [grove]

@[simp] theorem grove_cons (p : Option NodeId) (b : Branch) (bs : List Branch) :
    grove p (b :: bs) = b.nodes p ++ grove p bs := by rw [grove]

theorem grove_singleton (p : Option NodeId) (b : Branch) : grove p [b] = b.nodes p := by
  rw [grove_cons, grove_nil, List.append_nil]

theorem grove_append (p : Option NodeId) (bs cs : List Branch) :
    grove p (bs ++ cs) = grove p bs ++ grove p cs := by
  induction bs with
  | nil => simp
  | cons b bs ih => simp [ih]

theorem mem_grove {p : Option NodeId} {bs : List Branch} {n : Node} :
    n ∈ grove p bs ↔ ∃ b ∈ bs, n ∈ b.nodes p := by
  induction bs with
  | nil => simp
  | cons b bs ih => simp [ih]

theorem bottom_mem_nodes (p : Option NodeId) (b : Branch) : b.bottom p ∈ b.nodes p := by
  rw [nodes_eq]; exact List.mem_cons_self

/-! ### The buds of a branch -/

/-- The buds of a branch in pre-order. -/
def buds : Branch → List Bud := fold fun v ls => v :: ls.flatten

/-- The buds of a branch in post-order. -/
def postBuds : Branch → List Bud := fold fun v ls => ls.flatten ++ [v]

/-- The identities of a branch in pre-order. -/
def ids (b : Branch) : List NodeId := b.buds.map Bud.id

/-- The identities of a branch in post-order. -/
def postIds (b : Branch) : List NodeId := b.postBuds.map Bud.id

/-- The number of nodes of a branch. -/
def size (b : Branch) : Nat := b.ids.length

theorem buds_grow (v : Bud) (bs : List Branch) : (grow v bs).buds = v :: bs.flatMap buds := by
  rw [buds, fold_grow, List.flatMap]

theorem postBuds_grow (v : Bud) (bs : List Branch) :
    (grow v bs).postBuds = bs.flatMap postBuds ++ [v] := by
  rw [postBuds, fold_grow, List.flatMap]

theorem ids_grow (v : Bud) (bs : List Branch) : (grow v bs).ids = v.id :: bs.flatMap ids := by
  simp only [ids, buds_grow, List.map_cons, List.map_flatMap]
  rfl

theorem size_grow (v : Bud) (bs : List Branch) :
    (grow v bs).size = (bs.flatMap ids).length + 1 := by
  rw [size, ids_grow, List.length_cons]

theorem size_le_of_mem {b : Branch} {bs : List Branch} (hb : b ∈ bs) :
    b.size ≤ (bs.flatMap ids).length := by
  obtain ⟨l, r, rfl⟩ := List.append_of_mem hb
  rw [List.flatMap_append, List.flatMap_cons, List.length_append, List.length_append, size]
  omega

theorem postIds_grow (v : Bud) (bs : List Branch) :
    (grow v bs).postIds = bs.flatMap postIds ++ [v.id] := by
  simp only [postIds, postBuds_grow, List.map_append, List.map_flatMap]
  rfl

theorem id_mem_ids (b : Branch) : b.id ∈ b.ids := by
  cases b; rw [ids_grow]; exact List.mem_cons_self

mutual

theorem map_bud_nodes (p : Option NodeId) : ∀ b : Branch, (b.nodes p).map Node.bud = b.buds
  | grow v bs => by
    rw [nodes, List.map_cons, Bud.bud_node, map_bud_grove, buds_grow]

theorem map_bud_grove (p : Option NodeId) :
    ∀ bs : List Branch, (grove p bs).map Node.bud = bs.flatMap buds
  | [] => by rw [grove, List.map_nil, List.flatMap_nil]
  | b :: bs => by
    rw [grove, List.map_append, map_bud_nodes, map_bud_grove, List.flatMap_cons]

end

theorem map_id_nodes (p : Option NodeId) (b : Branch) : (b.nodes p).map Node.id = b.ids := by
  rw [ids, ← map_bud_nodes p, List.map_map]; rfl

theorem map_id_grove (p : Option NodeId) (bs : List Branch) :
    (grove p bs).map Node.id = bs.flatMap ids := by
  have h : (grove p bs).map Node.id = ((grove p bs).map Node.bud).map Bud.id := by
    rw [List.map_map]; rfl
  rw [h, map_bud_grove, List.map_flatMap]; rfl

theorem map_origin_nodes (p : Option NodeId) (b : Branch) :
    (b.nodes p).map Node.origin = b.buds.map Bud.origin := by
  rw [← map_bud_nodes p, List.map_map]; rfl

theorem map_id_sublist (bs : List Branch) : (bs.map id).Sublist (bs.flatMap ids) := by
  induction bs with
  | nil => exact .slnil
  | cons b bs ih =>
    rw [List.map_cons, List.flatMap_cons]
    exact (List.singleton_sublist.mpr b.id_mem_ids).append ih

theorem id_ne_of_mem_grove {b : Branch} (hnd : b.ids.Nodup) {p : Option NodeId} {n : Node}
    (hn : n ∈ grove p b.limbs) : n.id ≠ b.id := by
  intro e
  cases b with
  | grow v bs =>
    rw [ids_grow, List.nodup_cons, ← map_id_grove p] at hnd
    exact hnd.1 (List.mem_map.mpr ⟨n, hn, e⟩)

theorem length_nodes (p : Option NodeId) (b : Branch) : (b.nodes p).length = b.size := by
  rw [size, ← map_id_nodes p, List.length_map]

/-! ### Functions on branches -/

/-- Changes every bud and leaves the shape alone. -/
def map (g : Bud → Bud) : Branch → Branch := fold fun v bs => grow (g v) bs

/-- Puts other branches in the place of those whose bottoms have been given one. -/
def substitute (at? : NodeId → Option Branch) : Branch → Branch :=
  fold fun v bs => (at? v.id).getD (grow v bs)

theorem map_grow (g : Bud → Bud) (v : Bud) (bs : List Branch) :
    (grow v bs).map g = grow (g v) (bs.map (map g)) := by
  rw [map, fold_grow]

theorem substitute_grow (at? : NodeId → Option Branch) (v : Bud) (bs : List Branch) :
    (grow v bs).substitute at? = (at? v.id).getD (grow v (bs.map (substitute at?))) := by
  rw [substitute, fold_grow]

theorem bud_map (g : Bud → Bud) (b : Branch) : (b.map g).bud = g b.bud := by
  cases b; rw [map_grow]; rfl

theorem limbs_map (g : Bud → Bud) (b : Branch) : (b.map g).limbs = b.limbs.map (map g) := by
  cases b; rw [map_grow]; rfl

theorem buds_map (g : Bud → Bud) (b : Branch) : (b.map g).buds = b.buds.map g := by
  induction b with
  | grow v bs ih =>
    rw [map_grow, buds_grow, buds_grow, List.map_cons, List.flatMap_map, List.map_flatMap]
    exact congrArg (g v :: ·) (List.flatMap_congr ih)

theorem flatMap_buds_map (g : Bud → Bud) (bs : List Branch) :
    (bs.map (map g)).flatMap buds = (bs.flatMap buds).map g := by
  rw [List.flatMap_map, List.map_flatMap]
  exact List.flatMap_congr fun b _ => buds_map g b

theorem map_map (g h : Bud → Bud) (b : Branch) : (b.map g).map h = b.map fun v => h (g v) := by
  induction b with
  | grow v bs ih =>
    rw [map_grow, map_grow, map_grow, List.map_map]
    exact congrArg (grow _) (List.map_congr_left ih)

/-- Only what a change does to the buds of the branch matters. -/
theorem map_congr {g h : Bud → Bud} {b : Branch} (hgh : ∀ v ∈ b.buds, g v = h v) :
    b.map g = b.map h := by
  induction b with
  | grow v bs ih =>
    rw [buds_grow] at hgh
    rw [map_grow, map_grow, hgh v List.mem_cons_self]
    refine congrArg (grow _) (List.map_congr_left fun b hb => ih b hb fun w hw => ?_)
    exact hgh w (List.mem_cons_of_mem _ (List.mem_flatMap.mpr ⟨b, hb, hw⟩))

theorem id_map {g : Bud → Bud} {f : NodeId → NodeId} (hg : ∀ v, (g v).id = f v.id)
    (b : Branch) : (b.map g).id = f b.id := by
  rw [id, bud_map, hg]; rfl

theorem map_id_map {g : Bud → Bud} {f : NodeId → NodeId} (hg : ∀ v, (g v).id = f v.id)
    (bs : List Branch) : (bs.map (map g)).map id = (bs.map id).map f := by
  rw [List.map_map, List.map_map]
  exact List.map_congr_left fun b _ => id_map hg b

theorem flatMap_ids_map {g : Bud → Bud} {f : NodeId → NodeId} (hg : ∀ v, (g v).id = f v.id)
    (bs : List Branch) : (bs.map (map g)).flatMap ids = (bs.flatMap ids).map f := by
  have hids : ∀ cs : List Branch, cs.flatMap ids = (cs.flatMap buds).map Bud.id := by
    intro cs
    rw [List.map_flatMap]; rfl
  rw [hids, hids, flatMap_buds_map, List.map_map, List.map_map]
  exact List.map_congr_left fun v _ => hg v

mutual

/-- The nodes of a changed branch are changed nodes, if identities change by a rule `f` that
the links can follow. -/
theorem nodes_map {g : Bud → Bud} {f : NodeId → NodeId} (hg : ∀ v, (g v).id = f v.id)
    (p : Option NodeId) : ∀ b : Branch, (b.map g).nodes (p.map f)
      = (b.nodes p).map fun n => (g n.bud).node (n.parent.map f) (n.children.map f)
  | grow v bs => by
    rw [map_grow, nodes, nodes, List.map_cons, map_id_map hg, hg,
      show some (f v.id) = (some v.id).map f from rfl, grove_map hg]
    rfl

theorem grove_map {g : Bud → Bud} {f : NodeId → NodeId} (hg : ∀ v, (g v).id = f v.id)
    (p : Option NodeId) : ∀ bs : List Branch, grove (p.map f) (bs.map (map g))
      = (grove p bs).map fun n => (g n.bud).node (n.parent.map f) (n.children.map f)
  | [] => by rw [List.map_nil, grove, grove, List.map_nil]
  | b :: bs => by
    rw [List.map_cons, grove, grove, List.map_append, nodes_map hg, grove_map hg]

end

/-- A branch stays as it is if nothing is given for any of its identities. -/
theorem substitute_eq_self {at? : NodeId → Option Branch} {b : Branch}
    (h : ∀ i ∈ b.ids, at? i = none) : b.substitute at? = b := by
  induction b with
  | grow v bs ih =>
    rw [ids_grow] at h
    have hbs : bs.map (substitute at?) = bs := by
      apply map_eq_self
      intro b hb
      exact ih b hb fun i hi => h i (List.mem_cons_of_mem _ (List.mem_flatMap.mpr ⟨b, hb, hi⟩))
    rw [substitute_grow, h v.id List.mem_cons_self, hbs, Option.getD_none]

end Branch

/-! ### Shapes -/

/-- An ordered rooted tree of rules and labels. -/
inductive Shape where
  | node (rule label : String) (below : List Shape)

/-- A branch with the identities and origins left out. -/
def Branch.shape : Branch → Shape := fold fun v ss => .node v.rule v.label ss

/-- Changes of identities and origins do not show in the shape. -/
theorem Branch.shape_map {g : Bud → Bud} (hrule : ∀ v, (g v).rule = v.rule)
    (hlabel : ∀ v, (g v).label = v.label) (b : Branch) : (b.map g).shape = b.shape := by
  induction b with
  | grow v bs ih =>
    rw [map_grow, shape, fold_grow, fold_grow, hrule, hlabel, List.map_map]
    exact congrArg (Shape.node v.rule v.label) (List.map_congr_left ih)

end SyntaxTree
