/-
SyntaxTree/Pattern.lean

Patterns for nodes, as data.  A pattern looks at one node only: at its rule and label,
at its place among its relatives, and at its provenance; patterns are joined by `not`,
`all` and `any`.
-/
import SyntaxTree.Node

namespace SyntaxTree

/-- A condition on a node. -/
inductive Pattern where
  /-- Holds of every node, or of none. -/
  | constant (holds : Bool)
  /-- The rule is this one. -/
  | ruleIs (rule : String)
  /-- The label is this one. -/
  | labelIs (label : String)
  /-- The rule begins like this. -/
  | ruleBegins (start : String)
  /-- The label has this somewhere in it. -/
  | labelHas (part : String)
  /-- Whether the node is a leaf. -/
  | leaf (wanted : Bool)
  /-- Whether the node is a root. -/
  | root (wanted : Bool)
  /-- Whether the node is its own origin. -/
  | ownOrigin (wanted : Bool)
  /-- The number of children. -/
  | childCount (count : Nat)
  /-- The pattern does not hold. -/
  | not (p : Pattern)
  /-- All of the patterns hold. -/
  | all (ps : List Pattern)
  /-- One of the patterns holds at least. -/
  | any (ps : List Pattern)
deriving Repr, Inhabited

namespace Pattern

/-- Whether characters stand somewhere in a row within others. -/
def occursIn (part : List Char) : List Char → Bool
  | [] => part.isEmpty
  | c :: cs => part.isPrefixOf (c :: cs) || occursIn part cs

mutual

/-- Whether a pattern holds of a node. -/
def holds (n : Node) : Pattern → Bool
  | .constant b => b
  | .ruleIs rule => n.rule = rule
  | .labelIs label => n.label = label
  | .ruleBegins start => start.toList.isPrefixOf n.rule.toList
  | .labelHas part => occursIn part.toList n.label.toList
  | .leaf wanted => n.isLeaf = wanted
  | .root wanted => n.isRoot = wanted
  | .ownOrigin wanted => n.isOwnOrigin = wanted
  | .childCount count => n.children.length = count
  | .not p => !holds n p
  | .all ps => holdAll n ps
  | .any ps => holdAny n ps

/-- Whether all patterns of a list hold of a node. -/
def holdAll (n : Node) : List Pattern → Bool
  | [] => true
  | p :: ps => holds n p && holdAll n ps

/-- Whether some pattern of a list holds of a node. -/
def holdAny (n : Node) : List Pattern → Bool
  | [] => false
  | p :: ps => holds n p || holdAny n ps

end

/-- A pattern as a test on nodes. -/
def test (p : Pattern) : Node → Bool := fun n => holds n p

end Pattern

end SyntaxTree
