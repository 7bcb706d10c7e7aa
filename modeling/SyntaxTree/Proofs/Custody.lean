/-
SyntaxTree/Proofs/Custody.lean

Identities are exclusive and never come back, in whole runs.  Where an identity is found
later in a run is traced by a chain of cuts from the tree that holds it now (`Trail`).  An
identity that is dropped is therefore found nowhere, and a tree that has lost an identity
never has it again.

A tree is followed under its name, for as long as no other tree is stored there (`Keeps`).
A tree that is only shown in an answer is in nobody's hands; what is to be kept is stored.
-/
import SyntaxTree.Proofs.Holder

namespace SyntaxTree

namespace Workshop

variable {w : Workshop} {j : Job} {h : Holder} {i : NodeId} {x y : String}

/-- The workshop after more jobs. -/
def proceed (w : Workshop) (more : List Job) : Workshop := more.foldl step w

/-- The jobs leave the tree in its place: none of them stores another under its name. -/
def Keeps (w : Workshop) (x : String) : List Job → Prop
  | [] => True
  | j :: more => x ∉ w.stored j ∧ (w.step j).Keeps x more

/-- The way of the node `i` from the tree `x` to the tree `y`: by each job it is left where it is,
or cut out with a subtree that is stored. -/
def Trail (w : Workshop) (i : NodeId) : List Job → String → String → Prop
  | [], x, y => x = y
  | j :: more, x, z => ∃ y, w.Passes j i (.tree x) (.tree y) ∧ (w.step j).Trail i more y z

theorem next_le_step (hw : w.Sound) (hx : w.Exclusive) (j : Job) :
    w.forest.next ≤ (w.step j).forest.next := by
  obtain ⟨k, -, hnext⟩ := exists_created hw hx j
  exact hnext ▸ w.forest.next.le_shift k

/-- What is held later, and is not new, is held now. -/
theorem exists_holds_of_later {more : List Job} (hw : w.Sound) (hx : w.Exclusive)
    (hi : i < w.forest.next) (hh : (w.proceed more).Holds h i) : ∃ h₀, w.Holds h₀ i := by
  induction more generalizing w with
  | nil => exact ⟨h, hh⟩
  | cons j more ih =>
    have hlt := NodeId.lt_of_lt_of_le hi (next_le_step hw hx j)
    obtain ⟨h₁, h1⟩ := ih (hw.step j) (hx.step hw j) hlt hh
    rcases holds_step hw hx h1 with ⟨h₀, h0, -⟩ | ha
    · exact ⟨h₀, h0⟩
    · exact absurd ha (not_arrives_of_lt hw hx hi)

/-- **A node that has gone from a tree** does not come back. -/
theorem not_holds_of_keeps {more : List Job} (hw : w.Sound) (hx : w.Exclusive)
    (hi : i < w.forest.next) (hgone : ¬ w.Holds (.tree x) i) (hkeeps : w.Keeps x more) :
    ¬ (w.proceed more).Holds (.tree x) i := by
  induction more generalizing w with
  | nil => exact hgone
  | cons j more ih =>
    obtain ⟨hj, hkeeps⟩ := hkeeps
    refine ih (hw.step j) (hx.step hw j) (NodeId.lt_of_lt_of_le hi (next_le_step hw hx j)) ?_ hkeeps
    exact fun hh => hgone ((holds_tree_step_iff hw hx hj hi).mp hh).1

/-- **Where a node of a tree is found later**, a chain of cuts has taken it there. -/
theorem trail_of_holds {more : List Job} (hw : w.Sound) (hx : w.Exclusive)
    (hh : w.Holds (.tree x) i) (hlater : (w.proceed more).Holds (.tree y) i) :
    w.Trail i more x y := by
  induction more generalizing w x with
  | nil => exact Holder.tree.inj (hx.unique i _ _ hh hlater)
  | cons j more ih =>
    have hi := hx.used i _ hh
    have hlt := NodeId.lt_of_lt_of_le hi (next_le_step hw hx j)
    -- the job has not dropped the node, or it could not be found later
    obtain ⟨h₁, h1⟩ := exists_holds_of_later (hw.step j) (hx.step hw j) hlt hlater
    rcases holds_step hw hx h1 with ⟨h₀, h0, hp⟩ | ha
    · obtain rfl := hx.unique i _ _ hh h0
      cases hp with
      | stays hj hout => exact ⟨x, .stays hj hout, ih (hw.step j) (hx.step hw j) h1 hlater⟩
      | cut hc hy he => exact ⟨_, .cut hc hy he, ih (hw.step j) (hx.step hw j) h1 hlater⟩
    · exact absurd ha (not_arrives_of_lt hw hx hi)

/-- What is to be said of the identities in a workshop, now and after more jobs. -/
structure Custody (w : Workshop) : Prop where
  /-- No identity is live in two trees. -/
  exclusive : ∀ x y t u i, w.forest.tree? x = some t → w.forest.tree? y = some u →
    t.contains i = true → u.contains i = true → x = y
  /-- Every identity in a tree has been given out, and so has every origin. -/
  used : ∀ t ∈ w.trees, ∀ n ∈ t.nodeList, n.id < w.forest.next ∧ n.origin < w.forest.next
  /-- The nodes that a job creates get the identity that is next at the time, one after the other,
  and no other nodes come to be held. -/
  created : ∀ j, ∃ k, w.created j = w.forest.next.block k ∧
    (w.step j).forest.next = w.forest.next.shift k ∧
    ∀ h i, (w.step j).Holds h i → (∃ h₀, w.Holds h₀ i) ∨ i ∈ w.created j
  /-- A tree loses a node only if it is cut out or replaced. -/
  lost_iff : ∀ j x i, w.Holds (.tree x) i → x ∉ w.stored j →
    (¬ (w.step j).Holds (.tree x) i ↔ w.Excises j x i)
  /-- A node that a tree does not have any more it never has again. -/
  gone : ∀ x i more, i < w.forest.next → ¬ w.Holds (.tree x) i → w.Keeps x more →
    ¬ (w.proceed more).Holds (.tree x) i
  /-- A node that is cut out is in the subtree that is stored, -/
  cut : ∀ x candidate piece i, w.Excises (.command (.remove x candidate (some piece))) x i →
    (w.step (.command (.remove x candidate (some piece)))).Holds (.tree piece) i
  /-- and it is found later only there, and in what has been cut out of that. -/
  removed : ∀ x candidate dest i more y, w.Excises (.command (.remove x candidate dest)) x i →
    (w.proceed (.command (.remove x candidate dest) :: more)).Holds (.tree y) i →
    ∃ piece, dest = some piece ∧
      (w.step (.command (.remove x candidate dest))).Trail i more piece y
  /-- A node that has been replaced is found nowhere. -/
  replaced : ∀ x candidate graft i more y, w.Excises (.command (.replace x candidate graft)) x i →
    ¬ (w.proceed (.command (.replace x candidate graft) :: more)).Holds (.tree y) i

theorem Excises.holds (hw : w.Sound) (he : w.Excises j x i) : w.Holds (.tree x) i := by
  obtain ⟨c, rfl, he⟩ := he
  exact he.exists_tree hw.forest

/-- What is cut out is stored. -/
theorem holds_of_excises {candidate piece : String}
    (he : w.Excises (.command (.remove x candidate (some piece))) x i) :
    (w.step (.command (.remove x candidate (some piece)))).Holds (.tree piece) i := by
  obtain ⟨c, hc, he⟩ := he
  cases hc
  obtain h | ⟨t, c, r, ht, hc, hr, hstep⟩ := w.forest.remove_cases x candidate (some piece)
  · exact absurd he (h.spares x i)
  · refine ⟨r.removed, ?_, (Forest.excises_remove_iff ht hc hr).mpr he⟩
    show (w.forest.step _).forest.tree? piece = _
    rw [hstep]
    exact (Forest.tree?_store _ piece piece r.removed).trans (if_pos rfl)

theorem Exclusive.custody (hx : w.Exclusive) (hw : w.Sound) : w.Custody := by
  refine ⟨?_, fun t ht => (hw.tree ht).used, ?_, ?_, ?_,
    fun x candidate piece i he => holds_of_excises he, ?_, ?_⟩
  · -- exclusive
    intro x y t u i ht hu hti hui
    exact Holder.tree.inj (hx.unique i _ _ ⟨t, ht, hti⟩ ⟨u, hu, hui⟩)
  · -- created
    intro j
    obtain ⟨k, hk, hnext⟩ := exists_created hw hx j
    refine ⟨k, hk, hnext, fun h i hh => ?_⟩
    exact (holds_step hw hx hh).imp (fun ⟨h₀, h0, _⟩ => ⟨h₀, h0⟩) Arrives.mem_created
  · -- lost_iff
    intro j x i hh hj
    rw [holds_tree_step_iff hw hx hj (hx.used i _ hh), not_and_not_right]
    exact ⟨fun h => h hh, fun h _ => h⟩
  · -- gone
    exact fun x i more hi hgone hkeeps => not_holds_of_keeps hw hx hi hgone hkeeps
  · -- removed
    intro x candidate dest i more y he hlater
    obtain ⟨z, hp, htrail⟩ := trail_of_holds hw hx (he.holds hw) hlater
    cases hp with
    | stays _ hout => exact absurd he hout
    | cut hj _ _ => cases hj; exact ⟨z, rfl, htrail⟩
  · -- replaced
    intro x candidate graft i more y he hlater
    obtain ⟨z, hp, -⟩ := trail_of_holds hw hx (he.holds hw) hlater
    cases hp with
    | stays _ hout => exact absurd he hout
    | cut hj _ _ => cases hj

theorem exclusive_bare : bare.Exclusive := by
  constructor
  · rintro i (x | x) h' ⟨t, ht, -⟩ <;> cases ht
  · rintro i (x | x) ⟨t, ht, -⟩ <;> cases ht

theorem exclusive_run (jobs : List Job) : (run jobs).Exclusive := by
  induction jobs using List.reverseRecOn with
  | nil => exact exclusive_bare
  | append_singleton jobs j ih =>
    rw [run, List.foldl_append]
    exact ih.step (sound_run jobs) j

/-- **Identities are exclusive and never come back**, in every run and whatever is done after it. -/
theorem run_custody (jobs : List Job) : (run jobs).Custody :=
  (exclusive_run jobs).custody (sound_run jobs)

/-- The second number in the sum of the errands, when it is cut out and stored. -/
example :
    let w := (run (errands.take 13)).step (.command (.remove "sum" "part1" (some "cut")))
    (w.forest.tree? "sum").map (·.nodeIds) = some [⟨1⟩, ⟨2⟩] ∧
      (w.forest.tree? "cut").map (·.nodeIds) = some [⟨4⟩] := by decide

end Workshop

end SyntaxTree
