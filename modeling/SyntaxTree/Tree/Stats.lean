/-
SyntaxTree/Tree/Stats.lean

The figures of a tree: how many nodes it has, how many of them are leaves, and how deep
the deepest leaf lies.
-/
import SyntaxTree.Tree.Walk

namespace SyntaxTree

/-- The figures of a tree. -/
structure Stats where
  nodes : Nat
  leaves : Nat
  /-- The number of edges above the deepest leaf; zero if there is no leaf. -/
  depth : Nat
deriving DecidableEq, Repr

/-- Counts a tree. -/
def Tree.stats (t : Tree) : Stats :=
  { nodes := t.size
    leaves := t.leaves.length
    depth := (t.leaves.map fun n => t.depthOf n.id).foldl max 0 }

/-- The figures, one to a line. -/
def Stats.text (s : Stats) : String :=
  "nodes:  " ++ toString s.nodes ++ "\n" ++ "leaves: " ++ toString s.leaves ++ "\n"
    ++ "depth:  " ++ toString s.depth ++ "\n"

end SyntaxTree
