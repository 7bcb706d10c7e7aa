/-
SyntaxTree/Tree/Search.lean

Finding subtrees.  A search takes a test on nodes and copies out the subtree at every
node that passes, in order of arrival; the outermost search keeps a match only if no
other match lies above it.

A copy that was taken out of a tree can be looked up in it again: its counterpart is the
live node with the origin of its root.
-/
import SyntaxTree.Tree.Copy

namespace SyntaxTree

namespace Tree

/-- The nodes that pass a test, in order of arrival. -/
def matching (t : Tree) (p : Node → Bool) : List NodeId :=
  (t.nodeList.filter p).map Node.id

/-- The nodes that pass a test and have none above them that does, in order of arrival. -/
def outermost (t : Tree) (p : Node → Bool) : List NodeId :=
  let found := t.matching p
  found.filter fun id => !(t.ancestors id).any found.contains

/-- Copies of the subtrees at all matching nodes, and the first identity left unused. -/
def findAll (t : Tree) (p : Node → Bool) (next : NodeId) : List Tree × NodeId :=
  t.copyEach (t.matching p) next

/-- Copies of the subtrees at the outermost matching nodes, and the first identity left
unused. -/
def findOutermost (t : Tree) (p : Node → Bool) (next : NodeId) : List Tree × NodeId :=
  t.copyEach (t.outermost p) next

/-- The origin by which a candidate is recognised: that of its root. -/
def candidateOrigin (candidate : Tree) : Option NodeId := candidate.rootNode?.map Node.origin

/-- The live node a candidate corresponds to. -/
def counterpart? (t candidate : Tree) : Option Node :=
  candidate.candidateOrigin.bind fun o => (t.origins.get? o).bind t.node?

/-- Whether a candidate corresponds to a live node. -/
def hasCounterpart (t candidate : Tree) : Bool := (t.counterpart? candidate).isSome

/-- The identity of the live node a candidate corresponds to, or the error that there is
none. -/
def locate (t candidate : Tree) : Except TreeError NodeId :=
  match candidate.candidateOrigin.bind t.origins.get? with
  | some id => .ok id
  | none => .error (.notFound candidate.candidateOrigin)

end Tree

end SyntaxTree
