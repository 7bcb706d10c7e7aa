/-
SyntaxTree/Proofs/Script.lean

Scripts that work off a list.  What a script of edits does to a tree is shown by an invariant
that is told how much of the list is still to be done: an edit for the first item of the list
comes out as it should and leaves the invariant to the rest (`Tree.edits_workOff`).
-/
import SyntaxTree.Proofs.Edit

namespace SyntaxTree

namespace Tree

/-- The tree after edits one after another. -/
def edited (t : Tree) (next : NodeId) (script : List (Nat × Edit)) : Tree :=
  ((t.edits next script).getLast?.map Edited.tree).getD t

theorem edited_cons (t : Tree) (next : NodeId) (idle : Nat) (e : Edit)
    (script : List (Nat × Edit)) : t.edited next ((idle, e) :: script) =
      (t.edit (next.shift idle) e).tree.edited (t.edit (next.shift idle) e).next script := by
  rw [edited, edits, List.getLast?_cons, edited]
  cases (edits _ _ script).getLast? <;> rfl

section WorkOff

variable {α : Type} {I : List α → NodeId → Tree → Prop} {A : α → Edited → Prop}
  {f : α → Edit} {xs : List α} {script : List (Nat × Edit)} {next : NodeId} {t : Tree}

/-- **An invariant of what is still to be done** holds at the end with nothing left, if every edit
passes it on. -/
theorem edits_workOff (hidle : ∀ {xs next t} (k : Nat), I xs next t → I xs (next.shift k) t)
    (hedit : ∀ {x xs next t}, I (x :: xs) next t →
      A x (t.edit next (f x)) ∧ I xs (t.edit next (f x)).next (t.edit next (f x)).tree)
    (h : I xs next t) (hscript : script.map Prod.snd = xs.map f) :
    List.Forall₂ A xs (t.edits next script) ∧ ∃ next', I [] next' (t.edited next script) := by
  induction script generalizing xs next t with
  | nil =>
    obtain rfl : xs = [] := List.map_eq_nil_iff.mp hscript.symm
    exact ⟨.nil, next, h⟩
  | cons p script ih =>
    obtain ⟨idle, e⟩ := p
    obtain ⟨x, xs, rfl, rfl, hrest⟩ := List.map_eq_cons_iff.mp hscript.symm
    obtain ⟨hanswer, hnext⟩ := hedit (hidle idle h)
    obtain ⟨hanswers, hlast⟩ := ih hnext hrest.symm
    rw [edited_cons]
    exact ⟨.cons hanswer hanswers, hlast⟩

end WorkOff

end Tree

end SyntaxTree
