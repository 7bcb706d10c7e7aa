/-
SyntaxTree/Tree/Copy.lean

Copies.  A copy of a subtree lists its nodes in pre-order and numbers them, in that
order, with the next free identities.  Rules, labels and origins are kept; parents and
children are carried over through the renumbering, and the copied root has no parent.

An operation that copies takes the next free identity and returns the one after the last
it used.
-/
import SyntaxTree.Tree.Walk

namespace SyntaxTree

namespace Tree

/-- The new identity of every node of a subtree: pre-order against consecutive numbers. -/
def renumbering (t : Tree) (start next : NodeId) : OrderedMap NodeId NodeId :=
  let order := t.preOrderFrom start
  ⟨order.zip (next.block order.length)⟩

/-- A node as it stands in a copy: under a new identity, with its relatives renumbered. -/
def copyNode (renumber : OrderedMap NodeId NodeId) (start : NodeId) (n : Node) (id : NodeId) :
    Node :=
  { n with
    id
    parent := if n.id = start then none else n.parent.bind renumber.get?
    children := n.children.filterMap renumber.get? }

/-- A nameless copy of the subtree at `start`, numbered from `next` on. -/
def copySubtree (t : Tree) (start next : NodeId) : Tree :=
  let renumber := t.renumbering start next
  let copied := renumber.entries.filterMap fun (old, new) =>
    (t.node? old).map fun n => (new, copyNode renumber start n new)
  ofRegistry ⟨copied⟩ (renumber.get? start)

/-- A copy of a whole tree under the same name. -/
def copyOf (t : Tree) (next : NodeId) : Tree :=
  let copy := match t.root with
    | some r => t.copySubtree r next
    | none => empty
  { copy with name := t.name }

/-- A copy of the subtree at `id`, if `id` is live. -/
def extract (t : Tree) (id next : NodeId) : Option Tree :=
  if t.contains id then some (t.copySubtree id next) else none

/-- Copies of several subtrees, one after another, and the first identity left unused. -/
def copyEach (t : Tree) : List NodeId → NodeId → List Tree × NodeId
  | [], next => ([], next)
  | s :: rest, next =>
    let copy := t.copySubtree s next
    let (copies, free) := copyEach t rest (next.shift copy.size)
    (copy :: copies, free)

end Tree

end SyntaxTree
