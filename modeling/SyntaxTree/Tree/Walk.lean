/-
SyntaxTree/Tree/Walk.lean

Walks over a tree.  A node knows its children only by identity, so a walk keeps a stack
of identities still to be seen, and its depth is not bounded by a call stack.  Every step
takes one entry off the stack, and a tree cannot keep a walk busy for longer than its
nodes allow; the number of steps granted is computed from the registry, and a walk that
needed more would answer `none` instead of a truncated list.

  * `preWalk` sees a node before its children, `postWalk` after them;
  * `climb` follows the parents upwards.
-/
import SyntaxTree.Tree

namespace SyntaxTree

namespace Tree

/-- The nodes met when the stack is worked off, each before its children, within a number
of steps. An identity without a live node is passed over. -/
def preWalk (t : Tree) : Nat → List NodeId → Option (List NodeId)
  | _, [] => some []
  | 0, _ :: _ => none
  | steps + 1, id :: stack =>
    match t.node? id with
    | none => preWalk t steps stack
    | some n => (preWalk t steps (n.children ++ stack)).map (id :: ·)

/-- An entry on the stack of a post-order walk. -/
inductive Task where
  /-- The node and everything below it is still to be seen. -/
  | expand (id : NodeId)
  /-- Everything below the node has been seen. -/
  | close (id : NodeId)
deriving DecidableEq, Repr

/-- The nodes met when the stack is worked off, each after its children, within a number
of steps. An identity without a live node is passed over. -/
def postWalk (t : Tree) : Nat → List Task → Option (List NodeId)
  | _, [] => some []
  | 0, _ :: _ => none
  | steps + 1, .close id :: stack => (postWalk t steps stack).map (id :: ·)
  | steps + 1, .expand id :: stack =>
    match t.node? id with
    | none => postWalk t steps stack
    | some n => postWalk t steps (n.children.map .expand ++ .close id :: stack)

/-- The parents met on the way up from a node, nearest first, within a number of steps. -/
def climb (t : Tree) : Nat → NodeId → Option (List NodeId)
  | steps, id =>
    match (t.node? id).bind (·.parent) with
    | none => some []
    | some p =>
      match steps with
      | 0 => none
      | steps + 1 => (climb t steps p).map (p :: ·)

/-- The subtree at `start` with every parent before its children and children from left to
right; nothing if `start` is not live. -/
def preOrderFrom (t : Tree) (start : NodeId) : List NodeId :=
  (t.preWalk (t.size + 1) [start]).getD []

/-- The subtree at `start` with every parent after its children and children from left to
right; nothing if `start` is not live. -/
def postOrderFrom (t : Tree) (start : NodeId) : List NodeId :=
  (t.postWalk (2 * t.size + 1) [.expand start]).getD []

/-- The whole tree with every parent before its children. -/
def preOrder (t : Tree) : List NodeId :=
  match t.root with
  | some r => t.preOrderFrom r
  | none => []

/-- The whole tree with every parent after its children. -/
def postOrder (t : Tree) : List NodeId :=
  match t.root with
  | some r => t.postOrderFrom r
  | none => []

/-- The nodes strictly below `id`, every parent before its children. -/
def descendants (t : Tree) (id : NodeId) : List NodeId := (t.preOrderFrom id).tail

/-- The nodes strictly above `id`, nearest first. -/
def ancestors (t : Tree) (id : NodeId) : List NodeId := (t.climb t.size id).getD []

/-- Whether `a` lies strictly above `id`. -/
def isAncestor (t : Tree) (a id : NodeId) : Bool := (t.ancestors id).contains a

/-- The number of edges between `id` and the root. -/
def depthOf (t : Tree) (id : NodeId) : Nat := (t.ancestors id).length

end Tree

end SyntaxTree
