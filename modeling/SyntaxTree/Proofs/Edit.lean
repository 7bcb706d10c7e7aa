/-
SyntaxTree/Proofs/Edit.lean

A copy behaves as its original does.  The same removals and replacements, made in a tree and
in a copy of it by candidates and with replacements from before the copy, come out alike one
by one: they fail with the same error or leave twins behind, and what is removed are twins.

The two trees share one counter of identities, and what is done to the one, or elsewhere,
uses up identities that the other does not get.  A script of edits therefore says of each
edit how many identities have been used up since the one before.
-/
import SyntaxTree.Proofs.Twin
import SyntaxTree.Proofs.Workshop

namespace SyntaxTree

open Branch

/-- An operation that changes a tree. -/
inductive Edit where
  /-- Cuts out the subtree that a candidate corresponds to. -/
  | remove (candidate : Tree)
  /-- Puts a copy of a tree in the place of that subtree. -/
  | replace (candidate graft : Tree)

/-- The trees that an edit looks at, apart from the one that it changes. -/
def Edit.trees : Edit → List Tree
  | .remove candidate => [candidate]
  | .replace candidate graft => [candidate, graft]

/-- What comes of an edit. -/
structure Edited where
  /-- The subtree that was cut out, if it was to be removed, or why nothing was done. -/
  answer : Except TreeError (Option Tree)
  /-- The tree afterwards. -/
  tree : Tree
  /-- The first identity left unused. -/
  next : NodeId

namespace Tree

/-- Edits a tree when `next` is the first free identity. -/
def edit (t : Tree) (next : NodeId) : Edit → Edited
  | .remove candidate =>
    match t.remove candidate with
    | .ok r => ⟨.ok (some r.removed), r.rest, next⟩
    | .error e => ⟨.error e, t, next⟩
  | .replace candidate graft =>
    match t.replace candidate graft next with
    | .ok r => ⟨.ok none, r.result, next.shift r.added⟩
    | .error e => ⟨.error e, t, next⟩

/-- What comes of edits one after another. The number that goes with an edit tells how many
identities are used up elsewhere before it. -/
def edits (t : Tree) (next : NodeId) : List (Nat × Edit) → List Edited
  | [] => []
  | (idle, e) :: script =>
    let d := t.edit (next.shift idle) e
    d :: d.tree.edits d.next script

end Tree

/-- Two edits are answered alike: by the same error, or by twins. -/
inductive Edited.AnswersAlike (first : NodeId) :
    Except TreeError (Option Tree) → Except TreeError (Option Tree) → Prop
  | refused (e : TreeError) : AnswersAlike first (.error e) (.error e)
  | removed {p q : Tree} (h : p.Twins first q) : AnswersAlike first (.ok (some p)) (.ok (some q))
  | replaced : AnswersAlike first (.ok none) (.ok none)

/-- Two edits come out alike: they are answered alike and leave twins behind. -/
structure Edited.Alike (first : NodeId) (d d' : Edited) : Prop where
  answer : Edited.AnswersAlike first d.answer d'.answer
  tree : d.tree.Twins first d'.tree

namespace Tree

variable {t u : Tree} {bs : List Branch} {e : Edit} {first next n₁ n₂ o : NodeId}
  {f : NodeId → NodeId} {script script' : List (Nat × Edit)}

/-! ### What an edit does -/

/-- A removal cuts where the candidate is located. -/
theorem edit_remove {candidate : Tree} {i : NodeId} (hi : t.locate candidate = .ok i) :
    t.edit next (.remove candidate)
      = ⟨.ok (some (t.detach i).removed), (t.detach i).rest, next⟩ := by
  rw [edit, remove_eq_ok_iff.mpr ⟨i, hi, rfl⟩]

/-- A replacement by a tree that spells a branch plants a copy of it there. -/
theorem Spells.edit_replace {candidate r : Tree} {b : Branch} {i : NodeId} (hb : r.Spells [b])
    (hi : t.locate candidate = .ok i) : t.edit next (.replace candidate r)
      = ⟨.ok none, t.planted i (r.copySubtree b.id next), next.shift b.size⟩ := by
  rw [edit, hb.replace_eq hi]

theorem Sound.candidateOrigin_lt (h : t.Sound next) (ho : t.candidateOrigin = some o) : o < next := by
  obtain ⟨bs, hs⟩ := h.spells
  obtain ⟨n, hn, rfl⟩ := Option.map_eq_some_iff.mp ho
  obtain ⟨i, -, hn⟩ := Option.bind_eq_some_iff.mp hn
  exact (h.used n (hs.toCoherent.node?_eq_some_iff.mp hn).1).2

theorem Sound.edit (h : t.Sound next) (he : ∀ k ∈ e.trees, k.Sound next) :
    next ≤ (t.edit next e).next ∧ (t.edit next e).tree.Sound (t.edit next e).next := by
  cases e with
  | remove candidate =>
    rw [Tree.edit]
    cases hr : t.remove candidate with
    | error e => exact ⟨NodeId.le_refl next, h⟩
    | ok r => exact ⟨NodeId.le_refl next, (h.remove hr).2⟩
  | replace candidate graft =>
    rw [Tree.edit]
    cases hr : t.replace candidate graft next with
    | error e => exact ⟨NodeId.le_refl next, h⟩
    | ok r =>
      have hgraft := he graft (List.mem_cons_of_mem _ List.mem_cons_self)
      exact ⟨next.le_shift r.added, (h.replace hgraft hr).2⟩

namespace Paired

/-- **One edit** of twins, by trees that are older than the copy. -/
theorem edit (h : Paired first f bs t u) (ht : t.Sound n₁) (hu : u.Sound n₂) (h₁ : first ≤ n₁)
    (h₂ : first ≤ n₂) (he : ∀ k ∈ e.trees, k.Sound first) :
    (t.edit n₁ e).Alike first (u.edit n₂ e) ∧
      ∃ f' bs', Paired first f' bs' (t.edit n₁ e).tree (u.edit n₂ e).tree := by
  cases e with
  | remove candidate =>
    have hold : ∀ o, candidate.candidateOrigin = some o → o < first := fun o =>
      (he candidate List.mem_cons_self).candidateOrigin_lt
    rw [Tree.edit, Tree.edit]
    rcases h.remove hold with ⟨e, ht, hu⟩ | ⟨x, y, ht, hu, hpieces, bs', hrest⟩
    · rw [ht, hu]
      exact ⟨⟨.refused e, h.twins⟩, f, bs, h⟩
    · rw [ht, hu]
      exact ⟨⟨.removed hpieces, hrest.twins⟩, f, bs', hrest⟩
  | replace candidate graft =>
    have hold : ∀ o, candidate.candidateOrigin = some o → o < first := fun o =>
      (he candidate List.mem_cons_self).candidateOrigin_lt
    have hgraft := he graft (List.mem_cons_of_mem _ List.mem_cons_self)
    rw [Tree.edit, Tree.edit]
    rcases h.replace ht hu hgraft h₁ h₂ hold with
      ⟨e, ht, hu⟩ | ⟨x, y, ht, hu, f', bs', hresult⟩
    · rw [ht, hu]
      exact ⟨⟨.refused e, h.twins⟩, f, bs, h⟩
    · rw [ht, hu]
      exact ⟨⟨.replaced, hresult.twins⟩, f', bs', hresult⟩

/-- **Edits one after another** come out alike for twins. -/
theorem edits (h : Paired first f bs t u) (ht : t.Sound n₁) (hu : u.Sound n₂) (h₁ : first ≤ n₁)
    (h₂ : first ≤ n₂) (hsame : script.map Prod.snd = script'.map Prod.snd)
    (hold : ∀ e ∈ script.map Prod.snd, ∀ k ∈ e.trees, k.Sound first) :
    List.Forall₂ (Edited.Alike first) (t.edits n₁ script) (u.edits n₂ script') := by
  induction script generalizing script' t u f bs n₁ n₂ with
  | nil =>
    obtain rfl : script' = [] := List.map_eq_nil_iff.mp hsame.symm
    exact .nil
  | cons p script ih =>
    obtain ⟨idle, e⟩ := p
    obtain ⟨⟨idle', e'⟩, script', rfl, rfl, hrests⟩ := List.map_eq_cons_iff.mp hsame.symm
    obtain ⟨he, hrest⟩ := List.forall_mem_cons.mp hold
    -- the identities used up elsewhere are passed over
    have hle₁ := NodeId.le_trans h₁ (n₁.le_shift idle)
    have hle₂ := NodeId.le_trans h₂ (n₂.le_shift idle')
    have ht' := ht.mono (n₁.le_shift idle)
    have hu' := hu.mono (n₂.le_shift idle')
    obtain ⟨halike, f', bs', h'⟩ := h.edit ht' hu' hle₁ hle₂ he
    obtain ⟨hnext₁, ht'⟩ := ht'.edit fun k hk => (he k hk).mono hle₁
    obtain ⟨hnext₂, hu'⟩ := hu'.edit fun k hk => (he k hk).mono hle₂
    exact .cons halike (ih h' ht' hu' (NodeId.le_trans hle₁ hnext₁) (NodeId.le_trans hle₂ hnext₂)
      hrests.symm hrest)

end Paired

end Tree

namespace Workshop

variable {t : Tree} {script script' : List (Nat × Edit)}

/-- **A copy behaves as its original does**: if the same edits are made in both, by candidates and
with replacements from before the copy, they come out alike one by one, whatever identities are
used up in between. -/
theorem run_twins (jobs : List Job) (ht : t ∈ (run jobs).trees)
    (hsame : script.map Prod.snd = script'.map Prod.snd)
    (hold : ∀ e ∈ script.map Prod.snd, ∀ k ∈ e.trees, k ∈ (run jobs).trees) :
    let u := t.copyOf (run jobs).forest.next
    let first := (run jobs).forest.next.shift u.size
    t.Twins first u ∧
      List.Forall₂ (Edited.Alike first) (t.edits first script) (u.edits first script') := by
  intro u first
  have hw := sound_run jobs
  have hle : (run jobs).forest.next ≤ first := NodeId.le_shift _ u.size
  obtain ⟨f, bs, h⟩ := (hw.tree ht).exists_paired_copyOf hle
  refine ⟨h.twins, h.edits ((hw.tree ht).mono hle) (hw.tree ht).copyOf (NodeId.le_refl first)
    (NodeId.le_refl first) hsame ?_⟩
  exact fun e he k hk => (hw.tree (hold e he k hk)).mono hle

/-- When the sum of the errands has been copied, its first number can be replaced by the whole sum
in both trees, and then the second number can be removed from both, but only once. -/
theorem twins_errands : ∃ t part part' copy script script',
    (run (errands.take 14)).forest.tree? "sum" = some t ∧
    (run (errands.take 14)).forest.tree? "part0" = some part ∧
    (run (errands.take 14)).forest.tree? "part1" = some part' ∧
    (run (errands.take 14)).forest.tree? "copy" = some copy ∧
    script = [(0, .replace part copy), (5, .remove part'), (0, .remove part')] ∧
    script' = [(3, .replace part copy), (0, .remove part'), (0, .remove part')] ∧
    let u := t.copyOf (run (errands.take 14)).forest.next
    let first := (run (errands.take 14)).forest.next.shift u.size
    (t.edits first script).map (fun d => (d.answer.toOption.isSome, d.tree.size))
      = [(true, 5), (true, 4), (false, 4)] ∧
    t.Twins first u ∧
    List.Forall₂ (Edited.Alike first) (t.edits first script) (u.edits first script') := by
  let next := (run (errands.take 14)).forest.next
  let tree := fun name : String => (run (errands.take 14)).forest.tree? name
  have hedits : (tree "sum").bind (fun t => (tree "part0").bind fun part =>
      (tree "part1").bind fun part' => (tree "copy").map fun copy =>
        (t.edits (next.shift (t.copyOf next).size)
          [(0, .replace part copy), (5, .remove part'), (0, .remove part')]).map
            fun d => (d.answer.toOption.isSome, d.tree.size))
      = some [(true, 5), (true, 4), (false, 4)] := by decide
  obtain ⟨t, ht, hedits⟩ := Option.bind_eq_some_iff.mp hedits
  obtain ⟨part, hpart, hedits⟩ := Option.bind_eq_some_iff.mp hedits
  obtain ⟨part', hpart', hedits⟩ := Option.bind_eq_some_iff.mp hedits
  obtain ⟨copy, hcopy, hedits⟩ := Option.map_eq_some_iff.mp hedits
  refine ⟨t, part, part', copy, _, _, ht, hpart, hpart', hcopy, rfl, rfl, hedits, ?_⟩
  refine run_twins (errands.take 14) (mem_trees_of_tree? ht) rfl ?_
  have known := mem_trees_of_tree? hpart
  have known' := mem_trees_of_tree? hpart'
  have knownCopy := mem_trees_of_tree? hcopy
  simp [Edit.trees, known, known', knownCopy]

end Workshop

end SyntaxTree
