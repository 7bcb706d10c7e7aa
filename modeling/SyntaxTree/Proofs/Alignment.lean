/-
SyntaxTree/Proofs/Alignment.lean

Aligned trees.  Two trees are aligned if their nodes correspond one to one, with the same rules,
labels, parents and children in the same order; which origins they have does not matter.

Two rows of branches are aligned if they become one when the first is put under the corresponding
identities and all origins are forgotten.  Trees that spell aligned branches are aligned
(`Tree.Spells.alignedBy`), and rows stay aligned when aligned branches are exchanged in them
(`Branch.alignedBy_exchange`).
-/
import Mathlib.Data.Set.Function
import SyntaxTree.Proofs.Exchange

namespace SyntaxTree

open Branch

/-- A bud under another identity, as if it had been created under it. -/
def Bud.under (f : NodeId → NodeId) (v : Bud) : Bud := .fresh (f v.id) v.rule v.label

variable {f g : NodeId → NodeId}

/-! ### Aligned branches -/

namespace Branch

variable {bs bs' bs'' : List Branch} {at? at?' : NodeId → Option (List Branch)}

/-- The branches are the same, but for their origins, under identities that correspond by `f`. -/
def AlignedBy (f : NodeId → NodeId) (bs bs' : List Branch) : Prop :=
  bs.map (map (Bud.under f)) = bs'.map (map (Bud.under fun i => i))

/-- A change that gives every bud its new identity, and may change its origin, leaves aligned
branches. -/
theorem alignedBy_map {h : Bud → Bud} (hh : ∀ v, (h v).under (fun i => i) = v.under f)
    (bs : List Branch) : AlignedBy f bs (bs.map (map h)) := by
  rw [AlignedBy, List.map_map]
  refine List.map_congr_left fun b _ => Eq.symm ?_
  rw [Function.comp_apply, map_map]
  exact map_congr fun v _ => hh v

/-- Copies are aligned if their numbers correspond. -/
theorem alignedBy_copied {n m : NodeId}
    (hf : ∀ k < (bs.flatMap ids).length, f (n.shift k) = m.shift k) :
    AlignedBy f (bs.map (copied n)) (bs.map (copied m)) := by
  rw [AlignedBy, List.map_map, List.map_map]
  refine List.map_congr_left fun b hb => ?_
  rw [Function.comp_apply, Function.comp_apply, copied, copied, map_map, map_map]
  refine map_congr fun v hv => ?_
  have hlt : b.ids.idxOf v.id < b.size := List.idxOf_lt_length_of_mem (List.mem_map_of_mem hv)
  exact congrArg (Bud.fresh · v.rule v.label) (hf _ (Nat.lt_of_lt_of_le hlt (size_le_of_mem hb)))

theorem AlignedBy.symm (h : AlignedBy (fun i => i) bs bs') : AlignedBy (fun i => i) bs' bs :=
  Eq.symm h

theorem AlignedBy.trans (h : AlignedBy f bs bs') (h' : AlignedBy g bs' bs'') :
    AlignedBy (fun i => g (f i)) bs bs'' := by
  have twice : ∀ (k : NodeId → NodeId) (cs : List Branch),
      (cs.map (map (Bud.under k))).map (map (Bud.under g))
        = cs.map (map (Bud.under fun i => g (k i))) := by
    intro k cs
    rw [List.map_map]
    exact List.map_congr_left fun b _ => map_map _ _ b
  calc bs.map (map (Bud.under fun i => g (f i)))
      = (bs.map (map (Bud.under f))).map (map (Bud.under g)) := (twice f bs).symm
    _ = (bs'.map (map (Bud.under fun i => i))).map (map (Bud.under g)) := by rw [h]
    _ = bs'.map (map (Bud.under g)) := twice _ bs'
    _ = bs''.map (map (Bud.under fun i => i)) := h'

theorem AlignedBy.map_ids (h : AlignedBy f bs bs') : (bs.flatMap ids).map f = bs'.flatMap ids := by
  have hleft := flatMap_ids_map (g := Bud.under f) (f := f) (fun _ => rfl) bs
  have hright := flatMap_ids_map (g := Bud.under fun i => i) (f := fun i => i) (fun _ => rfl) bs'
  rw [List.map_id'] at hright
  rw [← hleft, h, hright]

theorem alignedBy_flatMap {h h' : Branch → List Branch} (hh : ∀ b ∈ bs, AlignedBy f (h b) (h' b)) :
    AlignedBy f (bs.flatMap h) (bs.flatMap h') := by
  rw [AlignedBy, List.map_flatMap, List.map_flatMap]
  exact List.flatMap_congr hh

/-- **Exchanging aligned branches** under identities that correspond to themselves leaves aligned
branches. -/
theorem alignedBy_exchange {b : Branch} (hat : ∀ i, Option.Rel (AlignedBy f) (at? i) (at?' i))
    (hf : ∀ i ∈ b.ids, f i = i) : AlignedBy f (b.exchange at?) (b.exchange at?') := by
  induction b with
  | grow v bs ih =>
    rw [ids_grow] at hf
    have hbs : AlignedBy f (bs.flatMap (exchange at?)) (bs.flatMap (exchange at?')) :=
      alignedBy_flatMap fun b hb => ih b hb fun i hi =>
        hf i (List.mem_cons_of_mem _ (List.mem_flatMap.mpr ⟨b, hb, hi⟩))
    have hv := hat v.id
    rw [exchange_grow, exchange_grow]
    generalize at? v.id = fill at hv ⊢
    generalize at?' v.id = fill' at hv ⊢
    cases hv with
    | some h => exact h
    | none =>
      have hbud : v.under f = v.under fun i => i := by
        rw [Bud.under, hf v.id List.mem_cons_self]; rfl
      rw [Option.getD_none, Option.getD_none, AlignedBy, List.map_singleton, List.map_singleton,
        map_grow, map_grow, hbud]
      exact congrArg (fun cs => [grow _ cs]) hbs

/-- One more pair of aligned branches can be given. -/
theorem alignedBy_update (hat : ∀ k, Option.Rel (AlignedBy f) (at? k) (at?' k))
    (h : AlignedBy f bs bs') (i k : NodeId) :
    Option.Rel (AlignedBy f) (Function.update at? i (some bs) k)
      (Function.update at?' i (some bs') k) := by
  by_cases hk : k = i
  · rw [hk, Function.update_self, Function.update_self]
    exact .some h
  · rw [Function.update_of_ne hk, Function.update_of_ne hk]
    exact hat k

end Branch

/-! ### Aligned trees -/

namespace Tree

/-- The nodes of `t` correspond one to one to those of `u`. -/
structure AlignedBy (f : NodeId → NodeId) (t u : Tree) : Prop where
  bijOn : Set.BijOn f {i | t.contains i = true} {i | u.contains i = true}
  root_eq : u.root = t.root.map f
  /-- Corresponding nodes are alike and have corresponding relatives. -/
  node : ∀ n ∈ t.nodeList, ∃ m, u.node? (f n.id) = some m ∧ m.rule = n.rule ∧ m.label = n.label ∧
    m.parent = n.parent.map f ∧ m.children = n.children.map f

variable {t u : Tree} {bs bs' : List Branch}

/-- **Trees that spell aligned branches** are aligned. -/
theorem Spells.alignedBy (ht : t.Spells bs) (hu : u.Spells bs') (h : Branch.AlignedBy f bs bs') :
    t.AlignedBy f u := by
  refine ⟨⟨?_, ?_, ?_⟩, ?_, ?_⟩
  · intro i hi
    rw [Set.mem_ofPred_eq, hu.contains_iff_mem_ids, ← h.map_ids]
    exact List.mem_map_of_mem (ht.contains_iff_mem_ids.mp hi)
  · -- no two nodes correspond to the same one
    intro i hi j hj e
    have hnd : ((bs.flatMap ids).map f).Nodup := by
      rw [h.map_ids, ← map_id_grove none]
      exact hu.nodup_ids_grove
    exact List.inj_on_of_nodup_map hnd (ht.contains_iff_mem_ids.mp hi)
      (ht.contains_iff_mem_ids.mp hj) e
  · -- every node corresponds to one
    intro j hj
    rw [Set.mem_ofPred_eq, hu.contains_iff_mem_ids, ← h.map_ids] at hj
    obtain ⟨i, hi, rfl⟩ := List.mem_map.mp hj
    exact ⟨i, ht.contains_iff_mem_ids.mpr hi, rfl⟩
  · have hleft := map_id_map (g := Bud.under f) (f := f) (fun _ => rfl) bs
    have hright := map_id_map (g := Bud.under fun i => i) (f := fun i => i) (fun _ => rfl) bs'
    rw [h, hright, List.map_id'] at hleft
    rw [hu.root_eq, ht.root_eq, ← List.head?_map, ← List.head?_map, ← List.head?_map, hleft]
  · intro n hn
    have hleft := grove_map (g := Bud.under f) (f := f) (fun _ => rfl) none bs
    have hright := grove_map (g := Bud.under fun i => i) (f := fun i => i) (fun _ => rfl) none bs'
    have hmem : (n.bud.under f).node (n.parent.map f) (n.children.map f)
        ∈ grove none (bs.map (map (Bud.under f))) := by
      rw [show (none : Option NodeId) = none.map f from rfl, hleft]
      exact List.mem_map_of_mem (ht.perm.mem_iff.mp hn)
    rw [h, show (none : Option NodeId) = none.map fun i => i from rfl, hright] at hmem
    obtain ⟨m, hm, e⟩ := List.mem_map.mp hmem
    simp only [Option.map_id', List.map_id'] at e
    obtain ⟨hid, -, hrule, hlabel, hparent, hchildren⟩ := Node.mk.inj e
    have hm' : u.node? m.id = some m := hu.toCoherent.node?_id (hu.perm.mem_iff.mpr hm)
    exact ⟨m, (show m.id = f n.id from hid) ▸ hm', hrule, hlabel, hparent, hchildren⟩

end Tree

end SyntaxTree
