/-
SyntaxTree/Proofs/Forest.lean

Commands keep a forest sound.  A forest is sound if all of its trees are, at the time given
by its own counter; an effect is sound if the forest it leaves is, if the trees it answers
with are, and if the counter has not gone back.  Every command has a sound effect on a
sound forest (`sound_step`), whether it is refused or not.
-/
import SyntaxTree.Forest
import SyntaxTree.Proofs.Assembly
import SyntaxTree.Proofs.Replace

namespace SyntaxTree

namespace OrderedMap

variable {κ ν : Type} [DecidableEq κ] {m : OrderedMap κ ν} {k : κ} {v w : ν}

theorem mem_values_of_get? (h : m.get? k = some v) : v ∈ m.values := by
  obtain ⟨es⟩ := m
  induction es with
  | nil => cases h
  | cons e es ih =>
    rw [get?, List.lookup_cons] at h
    split at h
    · exact Option.some.inj h ▸ List.mem_cons_self
    · exact List.mem_cons_of_mem _ (ih h)

theorem mem_values_insert (h : w ∈ (m.insert k v).values) : w = v ∨ w ∈ m.values := by
  rw [insert] at h
  split at h
  · obtain ⟨e, he, rfl⟩ := List.mem_map.mp h
    obtain ⟨e, he', rfl⟩ := List.mem_map.mp he
    split
    · exact Or.inl rfl
    · exact Or.inr (List.mem_map_of_mem he')
  · rw [values, List.map_append, List.mem_append] at h
    rcases h with h | h
    · exact Or.inr h
    · exact Or.inl (List.mem_singleton.mp h)

theorem mem_values_erase (h : w ∈ (m.erase k).values) : w ∈ m.values :=
  (List.filter_sublist.map Prod.snd).subset h

end OrderedMap

namespace Forest

/-- All trees of the forest are sound, at the time given by its counter. -/
def Sound (f : Forest) : Prop := ∀ t ∈ f.trees.values, t.Sound f.next

variable {f : Forest} {t u candidate graft : Tree} {next : NodeId} {ts : List Tree}

theorem sound_bare : bare.Sound := fun _ ht => nomatch ht

/-! ### Storing -/

theorem next_storeAs (f : Forest) (name : Option String) (t : Tree) :
    (f.storeAs name t).next = f.next := by
  cases name <;> rfl

theorem next_storeFrom (f : Forest) (name : String) (i : Nat) (ts : List Tree) :
    (f.storeFrom name i ts).next = f.next := by
  induction ts generalizing f i with
  | nil => rfl
  | cons t ts ih => exact ih (f.store (name ++ toString i) t) (i + 1)

theorem next_storeAllAs (f : Forest) (name : Option String) (ts : List Tree) :
    (f.storeAllAs name ts).next = f.next := by
  cases name with
  | none => rfl
  | some name => exact next_storeFrom f name 0 ts

theorem mem_trees_store {name : String} (hu : u ∈ (f.store name t).trees.values) :
    u = t ∨ u ∈ f.trees.values :=
  OrderedMap.mem_values_insert hu

theorem mem_trees_storeAs {name : Option String} (hu : u ∈ (f.storeAs name t).trees.values) :
    u = t ∨ u ∈ f.trees.values := by
  cases name with
  | none => exact Or.inr hu
  | some name => exact mem_trees_store hu

theorem mem_trees_storeFrom {name : String} {i : Nat}
    (hu : u ∈ (f.storeFrom name i ts).trees.values) : u ∈ ts ∨ u ∈ f.trees.values := by
  induction ts generalizing f i with
  | nil => exact Or.inr hu
  | cons t ts ih =>
    rw [List.mem_cons, or_right_comm, or_comm]
    exact (ih hu).imp_right mem_trees_store

theorem mem_trees_storeAllAs {name : Option String}
    (hu : u ∈ (f.storeAllAs name ts).trees.values) : u ∈ ts ∨ u ∈ f.trees.values := by
  cases name with
  | none => exact Or.inr hu
  | some name => exact mem_trees_storeFrom hu

namespace Sound

theorem tree (h : f.Sound) {name : String} (ht : f.tree? name = some t) : t.Sound f.next :=
  h t (OrderedMap.mem_values_of_get? ht)

theorem advance (h : f.Sound) (hle : f.next ≤ next) : (f.advance next).Sound :=
  fun t ht => (h t ht).mono hle

theorem store (h : f.Sound) (ht : t.Sound f.next) (name : String) : (f.store name t).Sound :=
  fun u hu => (mem_trees_store hu).elim (fun e => e ▸ ht) (h u)

theorem storeAs (h : f.Sound) (ht : t.Sound f.next) (name : Option String) :
    (f.storeAs name t).Sound := by
  intro u hu
  rw [next_storeAs]
  exact (mem_trees_storeAs hu).elim (fun e => e ▸ ht) (h u)

theorem storeAllAs (h : f.Sound) (hts : ∀ t ∈ ts, t.Sound f.next) (name : Option String) :
    (f.storeAllAs name ts).Sound := by
  intro u hu
  rw [next_storeAllAs]
  exact (mem_trees_storeAllAs hu).elim (hts u) (h u)

end Sound

/-! ### Effects -/

/-- An effect of a command given when `next` was the first free identity. -/
structure Effect.Sound (next : NodeId) (e : Effect) : Prop where
  le : next ≤ e.forest.next
  forest : e.forest.Sound
  answer : ∀ t ∈ e.answer.trees, t.Sound e.forest.next

namespace Sound

theorem unchanged (h : f.Sound) {answer : Answer} (ha : ∀ t ∈ answer.trees, t.Sound f.next) :
    (f.unchanged answer).Sound f.next :=
  ⟨NodeId.le_refl f.next, h, ha⟩

theorem missing (h : f.Sound) : f.missing.Sound f.next := h.unchanged fun _ ht => nomatch ht

theorem deliver (h : f.Sound) (hle : next ≤ f.next) (ht : t.Sound f.next) (dest : String)
    (name : Option String) (log : List LogEntry) : (f.deliver dest t name log).Sound next := by
  have htitled : (name.elim t t.withName).Sound f.next := by
    cases name with
    | none => exact ht
    | some name => exact ht.withName name
  exact ⟨hle, h.store htitled dest, List.forall_mem_singleton.mpr htitled⟩

theorem build (h : f.Sound) (dest : String) (events : List Event) (name : Option String) :
    (f.build dest events name).Sound f.next := by
  obtain ⟨hle, ht⟩ := Tree.sound_ofEvents events f.next
  rw [Forest.build]
  rcases hb : Tree.ofEvents events f.next with ⟨e | t, next⟩
  · rw [hb] at hle
    exact ⟨hle, h.advance hle, fun _ hu => nomatch hu⟩
  · rw [hb] at hle ht
    exact (h.advance hle).deliver hle (ht t rfl) dest name _

theorem copy (h : f.Sound) (ht : t.Sound f.next) (dest : String) (name : Option String) :
    (f.copy dest t name).Sound f.next :=
  (h.advance (f.next.le_shift _)).deliver (f.next.le_shift _) ht.copyOf dest name []

theorem extract (h : f.Sound) (ht : t.Sound f.next) (id : NodeId) (dest : Option String) :
    (f.extract t id dest).Sound f.next := by
  rw [Forest.extract]
  cases hp : t.extract id f.next with
  | none => exact h.unchanged fun _ hu => nomatch hu
  | some piece =>
    have hpiece := ht.extract hp
    have hle := f.next.le_shift piece.size
    refine ⟨?_, (h.advance hle).storeAs hpiece dest, List.forall_mem_singleton.mpr ?_⟩
    · exact (next_storeAs _ dest piece).symm ▸ hle
    · exact (next_storeAs _ dest piece).symm ▸ hpiece

theorem deliverAll (h : f.Sound) {found : List Tree × NodeId} (hle : f.next ≤ found.2)
    (hf : ∀ t ∈ found.1, t.Sound found.2) (dest : Option String) :
    (f.deliverAll found dest).Sound f.next :=
  ⟨(next_storeAllAs _ dest found.1).symm ▸ hle, (h.advance hle).storeAllAs hf dest,
    fun t ht => (next_storeAllAs _ dest found.1).symm ▸ hf t ht⟩

theorem remove (h : f.Sound) (ht : t.Sound f.next) (name : String) (dest : Option String) :
    (f.remove name t candidate dest).Sound f.next := by
  rw [Forest.remove]
  cases hr : t.remove candidate with
  | error e =>
    exact h.unchanged (List.forall_mem_singleton.mpr ht)
  | ok r =>
    obtain ⟨hpiece, hrest⟩ := ht.remove hr
    have hnext : ((f.store name r.rest).storeAs dest r.removed).next = f.next :=
      next_storeAs _ dest r.removed
    refine ⟨?_, (h.store hrest name).storeAs hpiece dest, List.forall_mem_cons.mpr ⟨?_, ?_⟩⟩
    · exact hnext.symm ▸ NodeId.le_refl f.next
    · exact hnext.symm ▸ hpiece
    · exact List.forall_mem_singleton.mpr (hnext.symm ▸ hrest)

theorem replace (h : f.Sound) (ht : t.Sound f.next) (hg : graft.Sound f.next) (name : String) :
    (f.replace name t candidate graft).Sound f.next := by
  rw [Forest.replace]
  cases hr : t.replace candidate graft f.next with
  | error e =>
    exact h.unchanged (List.forall_mem_singleton.mpr ht)
  | ok r =>
    obtain ⟨-, hresult⟩ := ht.replace hg hr
    have hle := f.next.le_shift r.added
    exact ⟨hle, (h.advance hle).store hresult name, List.forall_mem_singleton.mpr hresult⟩

/-- **Every command has a sound effect** on a sound forest. -/
theorem step (h : f.Sound) (c : Command) : (f.step c).Sound f.next := by
  have answered : ∀ {t : Tree} {name : String}, f.tree? name = some t →
      ∀ u ∈ [t], u.Sound f.next := fun ht => List.forall_mem_singleton.mpr (h.tree ht)
  cases c with
  | makeEmpty dest name => exact h.deliver (NodeId.le_refl _) (Tree.sound_empty _) dest name []
  | makeLeaf dest rule label name =>
    exact (h.advance (f.next.le_shift 1)).deliver (f.next.le_shift 1)
      (Tree.sound_leaf f.next rule label) dest name []
  | build dest events name => exact h.build dest events name
  | copy dest source name =>
    rw [Forest.step]
    cases ht : f.tree? source with
    | none => exact h.missing
    | some t => exact h.copy (h.tree ht) dest name
  | rename tree name =>
    rw [Forest.step]
    cases ht : f.tree? tree with
    | none => exact h.missing
    | some t =>
      exact ⟨NodeId.le_refl f.next, h.store ((h.tree ht).withName name) tree,
        fun _ hu => nomatch hu⟩
  | extract tree id dest =>
    rw [Forest.step]
    cases ht : f.tree? tree with
    | none => exact h.missing
    | some t => exact h.extract (h.tree ht) id dest
  | findAll tree p dest =>
    rw [Forest.step]
    cases ht : f.tree? tree with
    | none => exact h.missing
    | some t =>
      obtain ⟨hle, hf⟩ := (h.tree ht).findAll p
      exact h.deliverAll hle hf dest
  | findOutermost tree p dest =>
    rw [Forest.step]
    cases ht : f.tree? tree with
    | none => exact h.missing
    | some t =>
      obtain ⟨hle, hf⟩ := (h.tree ht).findOutermost p
      exact h.deliverAll hle hf dest
  | remove tree candidate dest =>
    rw [Forest.step]
    cases ht : f.tree? tree with
    | none => exact h.missing
    | some t =>
      cases f.tree? candidate with
      | none => exact h.unchanged (answered ht)
      | some c => exact h.remove (h.tree ht) tree dest
  | replace tree candidate graft =>
    rw [Forest.step]
    cases ht : f.tree? tree with
    | none => exact h.missing
    | some t =>
      cases f.tree? candidate with
      | none => exact h.unchanged (answered ht)
      | some c =>
        cases hg : f.tree? graft with
        | none => exact h.unchanged (answered ht)
        | some g => exact h.replace (h.tree ht) (h.tree hg) tree

end Sound

end Forest

end SyntaxTree
