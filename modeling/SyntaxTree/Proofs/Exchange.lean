/-
SyntaxTree/Proofs/Exchange.lean

Exchanging several branches at once.  Where something is given for the identity of a bud, the
branch at it is left out and the given branches take its place, which may be none; everything
else stays.  What is given below an exchanged bud does not matter.

Exchanges commute with filling a place, as long as nothing is given for the buds on the way up
(`Place.flatMap_exchange_plug`).  So one more exchange, at a node that is neither above nor below
those before it, is another filling of its place (`Tree.Spells.flatMap_exchange_update`): exchanging
many branches at once is changing one after another, in any order.
-/
import SyntaxTree.Proofs.Ancestry
import SyntaxTree.Proofs.Graft

namespace SyntaxTree

open Branch Relation

theorem flatMap_eq_self {α : Type} {f : α → List α} {l : List α} (h : ∀ x ∈ l, f x = [x]) :
    l.flatMap f = l := by
  rw [List.flatMap, List.map_congr_left h]
  exact List.flatMap_singleton' l

namespace Branch

variable {at? at?' : NodeId → Option (List Branch)} {v : Bud} {b : Branch} {bs : List Branch}

/-- The branches that come of a branch if those at some identities are exchanged. -/
def exchange (at? : NodeId → Option (List Branch)) : Branch → List Branch :=
  fold fun v ls => (at? v.id).getD [grow v ls.flatten]

theorem exchange_grow (v : Bud) (bs : List Branch) :
    (grow v bs).exchange at? = (at? v.id).getD [grow v (bs.flatMap (exchange at?))] := by
  rw [exchange, fold_grow, List.flatMap]

theorem exchange_of_none (h : at? v.id = none) :
    (grow v bs).exchange at? = [grow v (bs.flatMap (exchange at?))] := by
  rw [exchange_grow, h, Option.getD_none]

theorem exchange_of_some {fill : List Branch} (h : at? b.id = some fill) :
    b.exchange at? = fill := by
  obtain ⟨v, bs⟩ := b
  rw [exchange_grow, show at? v.id = some fill from h, Option.getD_some]

theorem exchange_congr (h : ∀ i ∈ b.ids, at? i = at?' i) : b.exchange at? = b.exchange at?' := by
  induction b with
  | grow v bs ih =>
    rw [ids_grow] at h
    have hbs : bs.map (exchange at?) = bs.map (exchange at?') := by
      refine List.map_congr_left fun b hb => ih b hb fun i hi => ?_
      exact h i (List.mem_cons_of_mem _ (List.mem_flatMap.mpr ⟨b, hb, hi⟩))
    rw [exchange_grow, exchange_grow, h v.id List.mem_cons_self, List.flatMap, hbs]
    rfl

/-- A branch stays as it is if nothing is given for any of its identities. -/
theorem exchange_eq_self (h : ∀ i ∈ b.ids, at? i = none) : b.exchange at? = [b] := by
  induction b with
  | grow v bs ih =>
    rw [ids_grow] at h
    have hbs : bs.flatMap (exchange at?) = bs := by
      refine flatMap_eq_self fun b hb => ih b hb fun i hi => ?_
      exact h i (List.mem_cons_of_mem _ (List.mem_flatMap.mpr ⟨b, hb, hi⟩))
    rw [exchange_of_none (h v.id List.mem_cons_self), hbs]

theorem flatMap_exchange_none (bs : List Branch) : bs.flatMap (exchange fun _ => none) = bs :=
  flatMap_eq_self fun _ _ => exchange_eq_self fun _ _ => rfl

end Branch

namespace Place

variable {at? at?' : NodeId → Option (List Branch)} {c : Place}

/-- Exchanges the branches on either side of the way up. -/
def exchange (at? : NodeId → Option (List Branch)) : Place → Place
  | top => top
  | on v l r up =>
    on v (l.flatMap (Branch.exchange at?)) (r.flatMap (Branch.exchange at?)) (up.exchange at?)

theorem parent_exchange (c : Place) : (c.exchange at?).parent = c.parent := by
  cases c <;> rfl

/-- Nothing moves behind one that is exchanged if one branch takes the place of each. -/
theorem length_leftIds_exchange (h : ∀ i fill, at? i = some fill → fill.length = 1) (c : Place) :
    (c.exchange at?).leftIds.length = c.leftIds.length := by
  have one : ∀ b : Branch, (b.exchange at?).length = 1 := by
    rintro ⟨v, bs⟩
    rw [exchange_grow]
    cases hv : at? v.id with
    | none => rfl
    | some fill => exact h v.id fill hv
  cases c with
  | top => rfl
  | on v l r up =>
    have hones : l.map (fun b => (b.exchange at?).length) = l.map fun _ => 1 :=
      List.map_congr_left fun b _ => one b
    simp [exchange, leftIds, List.length_flatMap, hones]

/-- Exchanging in a filled place is exchanging around the hole and in the filling. -/
theorem flatMap_exchange_plug (h : ∀ v ∈ c.trunk, at? v.id = none) (bs : List Branch) :
    (c.plug bs).flatMap (Branch.exchange at?)
      = (c.exchange at?).plug (bs.flatMap (Branch.exchange at?)) := by
  induction c generalizing bs with
  | top => rfl
  | on v l r up ih =>
    obtain ⟨hv, hup⟩ := List.forall_mem_cons.mp h
    rw [plug, ih hup, List.flatMap_singleton, exchange_of_none hv, List.flatMap_append,
      List.flatMap_append, exchange, plug]

theorem exchange_none (c : Place) : c.exchange (fun _ => none) = c := by
  induction c with
  | top => rfl
  | on v l r up ih =>
    rw [exchange, ih, flatMap_exchange_none, flatMap_exchange_none]

theorem exchange_congr (h : ∀ v ∈ c.buds, at? v.id = at?' v.id) :
    c.exchange at? = c.exchange at?' := by
  have side : ∀ bs : List Branch, (∀ v ∈ bs.flatMap Branch.buds, at? v.id = at?' v.id) →
      bs.flatMap (Branch.exchange at?) = bs.flatMap (Branch.exchange at?') := by
    intro bs hbs
    refine List.flatMap_congr fun b hb => Branch.exchange_congr fun i hi => ?_
    obtain ⟨v, hv, rfl⟩ := List.mem_map.mp hi
    exact hbs v (List.mem_flatMap.mpr ⟨b, hb, hv⟩)
  induction c with
  | top => rfl
  | on v l r up ih =>
    simp only [buds, List.mem_append, List.mem_cons] at h
    rw [exchange, exchange, ih fun w hw => h w (Or.inl hw),
      side l fun w hw => h w (Or.inr (Or.inr (Or.inl hw))),
      side r fun w hw => h w (Or.inr (Or.inr (Or.inr hw)))]

end Place

namespace Tree

/-- The tree is what comes of `bs` if at the nodes of `done`, and nowhere else, branches that
satisfy `P` have been exchanged. -/
def Exchanged (bs : List Branch) (P : List Branch → Prop) (done : NodeId → Prop) (u : Tree) : Prop :=
  ∃ at?, (∀ i, at? i ≠ none ↔ done i) ∧ (∀ i fill, at? i = some fill → P fill) ∧
    u.Spells (bs.flatMap (exchange at?))

variable {t u : Tree} {c : Place} {s : Branch} {bs : List Branch} {P : List Branch → Prop}
  {done done' : NodeId → Prop}

/-- A filled place has the nodes around the hole and those of the filling. -/
theorem Spells.size_plug {bs : List Branch} (h : t.Spells (c.plug bs)) :
    t.size = c.buds.length + (bs.flatMap ids).length := by
  have hbuds := (c.perm_buds_plug bs).length_eq
  have hlen : (bs.flatMap ids).length = (bs.flatMap buds).length := by
    rw [← map_id_grove none, ← map_bud_grove none, List.length_map, List.length_map]
  rw [size_eq_length, ← List.length_map (f := Node.bud), h.perm_buds.length_eq, hbuds,
    List.length_append, hlen]

/-- What differs from node to node differs between the buds around a place and those in it. -/
theorem Spells.key_ne (h : t.Spells (c.plug [s])) {key : Bud → NodeId}
    (hnd : (t.nodeList.map fun n => key n.bud).Nodup) {v w : Bud} (hv : v ∈ c.buds)
    (hw : w ∈ s.buds) : key v ≠ key w := by
  have hperm := (h.perm_buds.trans (c.perm_buds_plug [s])).map key
  rw [List.map_map, List.flatMap_singleton, List.map_append] at hperm
  have hsides := (List.nodup_append.mp (hperm.nodup_iff.mp hnd)).2.2
  exact hsides _ (List.mem_map_of_mem hv) _ (List.mem_map_of_mem hw)

theorem Spells.notMem_buds (h : t.Spells (c.plug [s])) : ∀ v ∈ c.buds, v.id ≠ s.id := by
  intro v hv
  obtain ⟨w, hw, hid⟩ := List.mem_map.mp s.id_mem_ids
  exact hid ▸ h.key_ne h.nodup_ids hv hw

theorem Spells.reflTransGen_of_mem_trunk (h : t.Spells (c.plug [s])) {v : Bud} (hv : v ∈ c.trunk) :
    ReflTransGen t.Child v.id s.id :=
  (h.mem_trunk_iff.mp (List.mem_map_of_mem hv)).to_reflTransGen

/-- A branch with nothing exchanged above or below it stands as it was. -/
theorem Spells.flatMap_exchange (h : t.Spells (c.plug [s]))
    (hnone : ∀ j, ReflTransGen t.Child j s.id ∨ ReflTransGen t.Child s.id j → at? j = none) :
    (c.plug [s]).flatMap (exchange at?) = (c.exchange at?).plug [s] := by
  have hself : s.exchange at? = [s] :=
    exchange_eq_self fun i hi => hnone i (Or.inr (h.reflTransGen_child hi))
  rw [Place.flatMap_exchange_plug fun v hv => hnone v.id (Or.inl (h.reflTransGen_of_mem_trunk hv)),
    List.flatMap_singleton, hself]

/-- **One more exchange** is another filling of the place of such a branch. -/
theorem Spells.flatMap_exchange_update (h : t.Spells (c.plug [s]))
    (hnone : ∀ j, ReflTransGen t.Child j s.id ∨ ReflTransGen t.Child s.id j → at? j = none)
    (fill : List Branch) :
    (c.plug [s]).flatMap (exchange (Function.update at? s.id (some fill)))
      = (c.exchange at?).plug fill := by
  -- what is given in addition does not show around the place
  have hother : ∀ v ∈ c.buds, Function.update at? s.id (some fill) v.id = at? v.id := fun v hv =>
    Function.update_of_ne (h.notMem_buds v hv) _ at?
  have htrunk : ∀ v ∈ c.trunk, Function.update at? s.id (some fill) v.id = none := fun v hv =>
    (hother v (c.trunk_subset_buds hv)).trans (hnone v.id (Or.inl (h.reflTransGen_of_mem_trunk hv)))
  rw [Place.flatMap_exchange_plug htrunk, List.flatMap_singleton,
    exchange_of_some (Function.update_self s.id (some fill) at?), Place.exchange_congr hother]

namespace Exchanged

theorem congr (h : Exchanged bs P done u) (hdone : ∀ i, done i ↔ done' i) :
    Exchanged bs P done' u := by
  obtain rfl : done = done' := funext fun i => propext (hdone i)
  exact h

theorem refl (h : t.Spells bs) : Exchanged bs P (fun _ => False) t := by
  refine ⟨fun _ => none, fun _ => ⟨fun h => h rfl, False.elim⟩, nofun, ?_⟩
  rwa [flatMap_exchange_none]

/-- A branch with nothing exchanged above or below it stands as it was, and what is put in its place
is exchanged. -/
theorem next (h : Exchanged (c.plug [s]) P done u) (ht : t.Spells (c.plug [s]))
    (hclear : ∀ j, ReflTransGen t.Child j s.id ∨ ReflTransGen t.Child s.id j → ¬ done j) :
    ∃ c' : Place, c'.parent = c.parent ∧ u.Spells (c'.plug [s]) ∧ ∀ {fill u'}, P fill →
      u'.Spells (c'.plug fill) → Exchanged (c.plug [s]) P (fun j => j = s.id ∨ done j) u' := by
  obtain ⟨at?, hdone, hP, hu⟩ := h
  have hnone : ∀ j, ReflTransGen t.Child j s.id ∨ ReflTransGen t.Child s.id j → at? j = none :=
    fun j hj => not_not.mp fun hj' => hclear j hj ((hdone j).mp hj')
  rw [ht.flatMap_exchange hnone] at hu
  refine ⟨c.exchange at?, c.parent_exchange, hu, fun {fill u'} hfill hu' => ?_⟩
  refine ⟨Function.update at? s.id (some fill), fun j => ?_, fun j fill' hj => ?_, ?_⟩
  · by_cases hj : j = s.id
    · simp [hj]
    · simp [hj, ← hdone]
  · by_cases hj' : j = s.id
    · rw [hj', Function.update_self] at hj
      exact Option.some.inj hj ▸ hfill
    · rw [Function.update_of_ne hj'] at hj
      exact hP j fill' hj
  · rw [ht.flatMap_exchange_update hnone]
    exact hu'

/-- A node at which nothing has been exchanged, nor above it, is what it was, apart from its
children, and stands where it stood if one branch has been put in the place of each. -/
theorem untouched {n : Node} (h : Exchanged bs P done u) (ht : t.Spells bs) (hn : n ∈ t.nodeList)
    (hclear : ∀ j, ReflTransGen t.Child j n.id → ¬ done j) :
    (∃ m, u.node? n.id = some m ∧ m.bud = n.bud) ∧
      ((∀ fill, P fill → fill.length = 1) → u.placeOf n.id = t.placeOf n.id) := by
  obtain ⟨at?, hdone, hP, hu⟩ := h
  obtain ⟨c, ⟨v, ls⟩, rfl, rfl⟩ := ht.exists_plug_eq hn
  have hnone : ∀ j, ReflTransGen t.Child j v.id → at? j = none :=
    fun j hj => not_not.mp fun hj' => hclear j hj ((hdone j).mp hj')
  rw [Place.flatMap_exchange_plug fun w hw => hnone w.id (ht.reflTransGen_of_mem_trunk hw),
    List.flatMap_singleton, exchange_of_none (hnone v.id .refl)] at hu
  refine ⟨⟨_, hu.node?_id, rfl⟩, fun hone => ?_⟩
  have hrow := c.length_leftIds_exchange fun i fill hi => hone fill (hP i fill hi)
  have hnow := hu.placeOf_id
  rw [c.parent_exchange, hrow] at hnow
  exact hnow.trans ht.placeOf_id.symm

end Exchanged

end Tree

end SyntaxTree
