/-
SyntaxTree/Tree/Outline.lean

The outline of a tree: one line per node in pre-order, indented by two spaces for every
edge between the node and the root, with the rule and the quoted label.

An indentation is asked for by its width, and a width has no more than 16 bits.  At the
first node that would need a wider indentation the loop breaks down: the lines before it
have been printed, and no text of the whole outline is ever made.
-/
import SyntaxTree.Text.Quoted
import SyntaxTree.Tree.Walk

namespace SyntaxTree

/-- The line of a node at a depth. -/
def Tree.outlineLine (n : Node) (depth : Nat) : String :=
  .ofList (.replicate (2 * depth) ' ') ++ n.rule ++ " " ++ Text.quoted n.label ++ "\n"

/-- What the loop of an outline comes to. -/
structure Outline where
  /-- The nodes whose lines are printed, each with its depth. -/
  entries : List (Node × Nat)
  /-- Whether the loop came to its end and did not break down. -/
  complete : Bool
deriving Repr

namespace Outline

/-- The widest indentation that can be asked for. -/
def maxIndentation : Nat := 65535

/-- Whether a node at a depth can be indented. -/
def fits (entry : Node × Nat) : Bool := 2 * entry.2 ≤ maxIndentation

/-- The outline with one more entry before it. -/
def after (entry : Node × Nat) (o : Outline) : Outline := { o with entries := entry :: o.entries }

/-- What is printed. -/
def text (o : Outline) : String := .join (o.entries.map fun e => Tree.outlineLine e.1 e.2)

end Outline

namespace Tree

/-- The outline met when a stack of nodes and their depths is worked off, within a number of
steps. -/
def outlineWalk (t : Tree) : Nat → List (NodeId × Nat) → Option Outline
  | _, [] => some ⟨[], true⟩
  | 0, _ :: _ => none
  | steps + 1, (id, depth) :: stack =>
    match t.node? id with
    | none => outlineWalk t steps stack
    | some n =>
      if Outline.fits (n, depth) then
        (outlineWalk t steps (n.children.map (·, depth + 1) ++ stack)).map (.after (n, depth))
      else some ⟨[], false⟩

/-- The outline of a tree; that of an empty tree is empty. -/
def outline (t : Tree) : Outline :=
  (t.outlineWalk (t.size + 1) (t.root.toList.map (·, 0))).getD ⟨[], true⟩

/-- The outline as one text, if making it does not break down. -/
def outlineText? (t : Tree) : Option String :=
  if t.outline.complete then some t.outline.text else none

end Tree

end SyntaxTree
