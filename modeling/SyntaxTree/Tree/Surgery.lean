/-
SyntaxTree/Tree/Surgery.lean

Cutting and grafting.  `remove` cuts the subtree that a candidate corresponds to out of
a tree; the nodes move to a tree of their own and keep their identities.  `replace` puts
a copy of another tree in the place of the subtree.

A grafted node keeps the origin of the node it was copied from as long as no live node
carries that origin; otherwise it becomes an origin of its own, so that an origin
never names two live nodes.  The copy is taken, and identities are used up, only when
both the candidate has been located and the replacement turned out to have a root.
-/
import SyntaxTree.LogEntry
import SyntaxTree.Tree.Search

namespace SyntaxTree

namespace Tree

/-- Takes `target` off the children of its parent; a root is simply no longer the root. -/
def unlink (t : Tree) (target : NodeId) : Tree :=
  match (t.node? target).bind (·.parent) with
  | some p =>
    { t with
      nodes := t.nodes.modify p fun n => { n with children := n.children.filter (· ≠ target) } }
  | none => { t with root := none }

/-- A subtree cut out of a tree, and what is left of the tree. -/
structure Cut where
  /-- The nodes that were cut out, as a tree of their own. -/
  removed : Tree
  /-- The tree without them. -/
  rest : Tree

/-- Cuts the subtree at `target` out of the tree. Both parts keep the order of arrival, and
the cut root forgets its parent. -/
def detach (t : Tree) (target : NodeId) : Cut :=
  let unlinked := t.unlink target
  let doomed := unlinked.preOrderFrom target
  let excised := unlinked.nodes.filter fun id _ => doomed.contains id
  let kept := unlinked.nodes.filter fun id _ => !doomed.contains id
  { removed := ofRegistry (excised.modify target fun n => { n with parent := none }) (some target)
    rest :=
      { unlinked with
        nodes := kept
        origins := excised.values.foldl (fun o n => o.erase n.origin) unlinked.origins } }

/-- What a successful removal leaves behind. -/
structure Removal where
  /-- The live node that the candidate corresponded to. -/
  target : NodeId
  /-- The excised subtree. -/
  removed : Tree
  /-- The tree afterwards. -/
  rest : Tree

/-- The report of a removal. -/
def Removal.logEntry (r : Removal) : LogEntry :=
  .removed r.target r.removed.size r.rest.size

/-- Cuts out the subtree that a candidate corresponds to. -/
def remove (t candidate : Tree) : Except TreeError Removal := do
  let target ← t.locate candidate
  let cut := t.detach target
  return { target, removed := cut.removed, rest := cut.rest }

/-- Takes a copied node into the tree, under its copied origin if that is free and as an
origin of its own otherwise. -/
def adopt (t : Tree) (n : Node) : Tree :=
  let settled := if t.origins.contains n.origin then { n with origin := n.id } else n
  { t with
    nodes := t.nodes.insert settled.id settled
    origins := t.origins.insert settled.origin settled.id }

/-- Takes all nodes of a copy into the tree; its root is to stand under `parent`. -/
def adoptAll (t copy : Tree) (parent : Option NodeId) : Tree :=
  copy.nodeList.foldl
    (fun t n => t.adopt (if some n.id = copy.root then { n with parent } else n)) t

/-- Puts `child` among the children of `parent` at a position. -/
def insertChild (t : Tree) (parent : NodeId) (position : Nat) (child : NodeId) : Tree :=
  { t with
    nodes := t.nodes.modify parent fun n =>
      { n with children := n.children.insertIdx position child } }

/-- Where a node stands: its parent and its place among the parent's children. -/
def placeOf (t : Tree) (id : NodeId) : Option (NodeId × Nat) := do
  let parent ← (← t.node? id).parent
  let position ← (← t.node? parent).children.idxOf? id
  return (parent, position)

/-- What a successful replacement leaves behind. -/
structure Replacement where
  /-- The live node that the candidate corresponded to. -/
  target : NodeId
  /-- The excised subtree. -/
  removed : Tree
  /-- The number of nodes grafted. -/
  added : Nat
  /-- The tree afterwards. -/
  result : Tree

/-- The report of a replacement. -/
def Replacement.logEntry (r : Replacement) : LogEntry :=
  .replaced r.target r.removed.size r.added

/-- Puts a copy of `graft`, numbered from `next` on, in the place of the subtree that a
candidate corresponds to. -/
def replace (t candidate graft : Tree) (next : NodeId) : Except TreeError Replacement := do
  let target ← t.locate candidate
  let source ← graft.rootNode
  let copy := graft.copySubtree source.id next
  let cut := t.detach target
  let parent := (t.node? target).bind (·.parent)
  let grown := cut.rest.adoptAll copy parent
  let result := match t.placeOf target, copy.root with
    | some (parent, position), some child => grown.insertChild parent position child
    | _, root => { grown with root }
  return { target, removed := cut.removed, added := copy.size, result }

end Tree

end SyntaxTree
