/-
SyntaxTree/Proofs/Yield.lean

Where the trees of a run come from.  What a command stores or shows is a tree that was there
before, or one that a single operation makes of those: a tree made from nothing or from
events, a copy of a subtree, a part that a cut leaves, a tree with a graft in it, or any of
these under another name (`Forest.Yields`).  `Forest.Sound.yields_step` says so of all commands,
and `Workshop.Sound.yields_step` of all jobs, which bring in the trees of finished assemblies.

A property of trees that each of these ways preserves is a property of all trees of all runs.
The commands, and what they store under which name, need not be looked at again for it.
-/
import SyntaxTree.Proofs.Workshop

namespace SyntaxTree

namespace Tree

variable {t u : Tree} {next : NodeId}

/-- What is copied in turn are copies of what stands at the starts. -/
theorem exists_of_mem_copyEach {starts : List NodeId} (hu : u ∈ (t.copyEach starts next).1) :
    ∃ i ∈ starts, ∃ free, next ≤ free ∧ u = t.copySubtree i free := by
  induction starts generalizing next with
  | nil => cases hu
  | cons i starts ih =>
    rcases List.mem_cons.mp hu with rfl | hu
    · exact ⟨i, List.mem_cons_self, next, NodeId.le_refl next, rfl⟩
    · obtain ⟨j, hj, free, hle, rfl⟩ := ih hu
      exact ⟨j, List.mem_cons_of_mem i hj, free, NodeId.le_trans (next.le_shift _) hle, rfl⟩

end Tree

namespace Forest

/-- A tree that comes of the trees of a forest by a single operation, or is one of them. -/
inductive Yields (f : Forest) : Tree → Prop
  | known {t : Tree} (ht : t ∈ f.trees.values) : f.Yields t
  | empty : f.Yields .empty
  | leaf (rule label : String) : f.Yields (.leaf f.next rule label)
  | built {events : List Event} {t : Tree} (ht : (Tree.ofEvents events f.next).1 = .ok t) :
      f.Yields t
  | copied {t : Tree} {i free : NodeId} (ht : t ∈ f.trees.values) (hi : t.contains i = true)
      (hle : f.next ≤ free) : f.Yields (t.copySubtree i free)
  | removed {t candidate : Tree} {r : Tree.Removal} (ht : t ∈ f.trees.values)
      (hr : t.remove candidate = .ok r) : f.Yields r.removed
  | left {t candidate : Tree} {r : Tree.Removal} (ht : t ∈ f.trees.values)
      (hr : t.remove candidate = .ok r) : f.Yields r.rest
  | replaced {t candidate graft : Tree} {r : Tree.Replacement} (ht : t ∈ f.trees.values)
      (hg : graft ∈ f.trees.values) (hr : t.replace candidate graft f.next = .ok r) :
      f.Yields r.result
  | named {t : Tree} (h : f.Yields t) (name : Option String) : f.Yields { t with name }

/-- The trees that are stored after an effect, and those that its answer shows. -/
def Effect.trees (e : Effect) : List Tree := e.forest.trees.values ++ e.answer.trees

variable {f : Forest} {t candidate graft : Tree}

theorem Yields.titled (h : f.Yields t) (name : Option String) :
    f.Yields (name.elim t t.withName) := by
  cases name with
  | none => exact h
  | some name => exact h.named (some name)

/-! ### Copies -/

theorem Sound.yields_copyOf (hf : f.Sound) (ht : t ∈ f.trees.values) :
    f.Yields (t.copyOf f.next) := by
  rw [Tree.copyOf]
  cases hr : t.root with
  | none => exact Yields.empty.named t.name
  | some r =>
    obtain ⟨b, hb, rfl⟩ := (hf t ht).exists_branch hr
    exact (Yields.copied ht hb.atTop.contains_id (NodeId.le_refl _)).named t.name

theorem yields_copyEach (ht : t ∈ f.trees.values) {starts : List NodeId}
    (hlive : ∀ i ∈ starts, t.contains i = true) :
    ∀ u ∈ (t.copyEach starts f.next).1, f.Yields u := by
  intro u hu
  obtain ⟨i, hi, free, hle, rfl⟩ := Tree.exists_of_mem_copyEach hu
  exact .copied ht (hlive i hi) hle

theorem Sound.contains_of_mem_matching (hf : f.Sound) (ht : t ∈ f.trees.values)
    {p : Node → Bool} : ∀ i ∈ t.matching p, t.contains i = true := by
  obtain ⟨bs, hs⟩ := (hf t ht).spells
  exact fun i => hs.contains_of_mem_matching

theorem Sound.yields_findAll (hf : f.Sound) (ht : t ∈ f.trees.values) {p : Node → Bool} :
    ∀ u ∈ (t.findAll p f.next).1, f.Yields u :=
  yields_copyEach ht (hf.contains_of_mem_matching ht)

theorem Sound.yields_findOutermost (hf : f.Sound) (ht : t ∈ f.trees.values) {p : Node → Bool} :
    ∀ u ∈ (t.findOutermost p f.next).1, f.Yields u :=
  yields_copyEach ht fun i hi => hf.contains_of_mem_matching ht i (List.mem_filter.mp hi).1

/-! ### Effects -/

theorem yields_unchanged {answer : Answer} (ha : ∀ t ∈ answer.trees, f.Yields t) :
    ∀ u ∈ (f.unchanged answer).trees, f.Yields u := fun u hu =>
  (List.mem_append.mp hu).elim .known (ha u)

theorem yields_missing : ∀ u ∈ f.missing.trees, f.Yields u :=
  yields_unchanged (List.forall_mem_nil _)

theorem yields_deliver (next : NodeId) (ht : f.Yields t) (dest : String) (name : Option String)
    (log : List LogEntry) : ∀ u ∈ ((f.advance next).deliver dest t name log).trees, f.Yields u := by
  intro u hu
  rcases List.mem_append.mp hu with hu | hu
  · rcases mem_trees_store hu with rfl | hu
    · exact ht.titled name
    · exact .known hu
  · exact List.mem_singleton.mp hu ▸ ht.titled name

theorem yields_build (f : Forest) (dest : String) (events : List Event) (name : Option String) :
    ∀ u ∈ (f.build dest events name).trees, f.Yields u := by
  rw [build]
  rcases hb : Tree.ofEvents events f.next with ⟨e | t, next⟩
  · intro u hu
    rcases List.mem_append.mp hu with hu | hu
    · exact .known hu
    · cases hu
  · exact yields_deliver next (.built (congrArg Prod.fst hb)) dest name _

theorem yields_rename (ht : t ∈ f.trees.values) (tree name : String) :
    ∀ u ∈ (Effect.mk (.named name) (f.store tree (t.withName name)) []).trees, f.Yields u := by
  intro u hu
  rcases List.mem_append.mp hu with hu | hu
  · rcases mem_trees_store hu with rfl | hu
    · exact (Yields.known ht).named (some name)
    · exact .known hu
  · cases hu

theorem yields_extract (ht : t ∈ f.trees.values) (i : NodeId) (dest : Option String) :
    ∀ u ∈ (f.extract t i dest).trees, f.Yields u := by
  rw [extract, Tree.extract]
  by_cases hi : t.contains i = true
  · have hcopy : f.Yields (t.copySubtree i f.next) := .copied ht hi (NodeId.le_refl _)
    rw [if_pos hi]
    intro u hu
    rcases List.mem_append.mp hu with hu | hu
    · rcases mem_trees_storeAs hu with rfl | hu
      · exact hcopy
      · exact .known hu
    · exact List.mem_singleton.mp hu ▸ hcopy
  · rw [if_neg hi]
    exact yields_unchanged (List.forall_mem_nil _)

theorem yields_deliverAll {found : List Tree × NodeId} (hfound : ∀ t ∈ found.1, f.Yields t)
    (dest : Option String) : ∀ u ∈ (f.deliverAll found dest).trees, f.Yields u := by
  intro u hu
  rcases List.mem_append.mp hu with hu | hu
  · exact (mem_trees_storeAllAs hu).elim (hfound u) fun hu => .known hu
  · exact hfound u hu

theorem yields_remove (ht : t ∈ f.trees.values) (name : String) (dest : Option String) :
    ∀ u ∈ (f.remove name t candidate dest).trees, f.Yields u := by
  rw [remove]
  cases hr : t.remove candidate with
  | error e => exact yields_unchanged (List.forall_mem_singleton.mpr (.known ht))
  | ok r =>
    intro u hu
    rcases List.mem_append.mp hu with hu | hu
    · rcases mem_trees_storeAs hu with rfl | hu
      · exact .removed ht hr
      · rcases mem_trees_store hu with rfl | hu
        · exact .left ht hr
        · exact .known hu
    · rcases List.mem_pair.mp hu with rfl | rfl
      · exact .removed ht hr
      · exact .left ht hr

theorem yields_replace (ht : t ∈ f.trees.values) (hg : graft ∈ f.trees.values) (name : String) :
    ∀ u ∈ (f.replace name t candidate graft).trees, f.Yields u := by
  rw [replace]
  cases hr : t.replace candidate graft f.next with
  | error e => exact yields_unchanged (List.forall_mem_singleton.mpr (.known ht))
  | ok r =>
    intro u hu
    rcases List.mem_append.mp hu with hu | hu
    · rcases mem_trees_store hu with rfl | hu
      · exact .replaced ht hg hr
      · exact .known hu
    · exact List.mem_singleton.mp hu ▸ .replaced ht hg hr

/-- **All trees that a command brings about** come of those that are there by one operation. -/
theorem Sound.yields_step (hf : f.Sound) (c : Command) : ∀ u ∈ (f.step c).trees, f.Yields u := by
  have known : ∀ {t : Tree} {name : String}, f.tree? name = some t → t ∈ f.trees.values :=
    OrderedMap.mem_values_of_get?
  cases c with
  | makeEmpty dest name => exact yields_deliver f.next .empty dest name []
  | makeLeaf dest rule label name =>
    exact yields_deliver (f.next.shift 1) (.leaf rule label) dest name []
  | build dest events name => exact f.yields_build dest events name
  | copy dest source name =>
    rw [Forest.step]
    cases ht : f.tree? source with
    | none => exact yields_missing
    | some t => exact yields_deliver _ (hf.yields_copyOf (known ht)) dest name []
  | rename tree name =>
    rw [Forest.step]
    cases ht : f.tree? tree with
    | none => exact yields_missing
    | some t => exact yields_rename (known ht) tree name
  | extract tree i dest =>
    rw [Forest.step]
    cases ht : f.tree? tree with
    | none => exact yields_missing
    | some t => exact yields_extract (known ht) i dest
  | findAll tree p dest =>
    rw [Forest.step]
    cases ht : f.tree? tree with
    | none => exact yields_missing
    | some t => exact yields_deliverAll (hf.yields_findAll (known ht)) dest
  | findOutermost tree p dest =>
    rw [Forest.step]
    cases ht : f.tree? tree with
    | none => exact yields_missing
    | some t => exact yields_deliverAll (hf.yields_findOutermost (known ht)) dest
  | remove tree candidate dest =>
    rw [Forest.step]
    cases ht : f.tree? tree with
    | none => exact yields_missing
    | some t =>
      cases f.tree? candidate with
      | none => exact yields_unchanged (List.forall_mem_singleton.mpr (.known (known ht)))
      | some c => exact yields_remove (known ht) tree dest
  | replace tree candidate graft =>
    rw [Forest.step]
    have declined : ∀ {t : Tree}, f.tree? tree = some t →
        ∀ u ∈ (f.unchanged (.replaced (.error .noSuchTree) t)).trees, f.Yields u := fun ht =>
      yields_unchanged (List.forall_mem_singleton.mpr (.known (known ht)))
    cases ht : f.tree? tree with
    | none => exact yields_missing
    | some t =>
      cases f.tree? candidate with
      | none => exact declined ht
      | some c =>
        cases hg : f.tree? graft with
        | none => exact declined ht
        | some g => exact yields_replace (known ht) (known hg) tree

end Forest

namespace Workshop

/-- A tree that comes of a workshop by a single job, or has been there before. -/
inductive Yields (w : Workshop) : Tree → Prop
  | seen {t : Tree} (ht : t ∈ w.trees) : w.Yields t
  | commanded {t : Tree} (h : w.forest.Yields t) : w.Yields t
  | finished {name : String} {a : Assembly} {t : Tree} (ha : w.assemblies.get? name = some a)
      (ht : a.finish = .ok t) (title : Option String) : w.Yields { t with name := title }

variable {w : Workshop}

theorem yields_finish {name : String} {a : Assembly} (ha : w.assemblies.get? name = some a)
    (dest : String) (title : Option String) :
    ∀ u ∈ (w.finish name a dest title).trees, w.Yields u := by
  rw [finish]
  cases hf : a.finish with
  | error e => exact fun u hu => .seen hu
  | ok t =>
    have hnew : w.Yields (title.elim t t.withName) := by
      cases title with
      | none => exact .finished ha hf t.name
      | some title => exact .finished ha hf (some title)
    intro u hu
    rcases List.mem_append.mp hu with hu | hu
    · rcases Forest.mem_trees_store hu with rfl | hu
      · exact hnew
      · exact .seen (List.mem_append_left _ hu)
    · rcases List.mem_append.mp hu with hu | hu
      · exact .seen (List.mem_append_right _ hu)
      · exact List.mem_singleton.mp hu ▸ hnew

/-- **All trees after a job** have been there before, or come of what was there by one operation. -/
theorem Sound.yields_step (hw : w.Sound) (j : Job) : ∀ u ∈ (w.step j).trees, w.Yields u := by
  intro u hu
  cases j with
  | command c =>
    have hmade := hw.forest.yields_step c u
    rcases List.mem_append.mp hu with hu | hu
    · exact .commanded (hmade (List.mem_append_left _ hu))
    · rcases List.mem_append.mp hu with hu | hu
      · exact .seen (List.mem_append_right _ hu)
      · exact .commanded (hmade (List.mem_append_right _ hu))
  | start name => exact .seen hu
  | event name e =>
    rw [Workshop.step] at hu
    cases ha : w.assemblies.get? name with
    | none =>
      rw [ha] at hu
      exact .seen hu
    | some a =>
      rw [ha] at hu
      exact .seen hu
  | finish name dest title =>
    rw [Workshop.step] at hu
    cases ha : w.assemblies.get? name with
    | none =>
      rw [ha] at hu
      exact .seen hu
    | some a =>
      rw [ha] at hu
      exact yields_finish ha dest title u hu

end Workshop

end SyntaxTree
