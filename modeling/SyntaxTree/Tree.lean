/-
SyntaxTree/Tree.lean

A syntax tree as plain data: a flat registry of its nodes in order of arrival, the
identity of the root, and the provenance index, which leads from an origin to the live
node that carries it.  Nothing in the type says that these agree; that they always do is
a property of the operations, stated about them and not built into the data.

This file holds the type, the ways to make a tree from a registry, and the look-ups.
Walks, copies, search and surgery are in the files under `Tree`.
-/
import SyntaxTree.OrderedMap
import SyntaxTree.Error

namespace SyntaxTree

/-- A rooted, ordered tree of nodes. -/
structure Tree where
  /-- The name of the tree as a whole, if it was given one. -/
  name : Option String
  /-- All live nodes under their identities, in order of arrival. -/
  nodes : OrderedMap NodeId Node
  /-- The provenance index: from an origin to the live node carrying it. -/
  origins : OrderedMap NodeId NodeId
  /-- The identity of the root; an empty tree has none. -/
  root : Option NodeId
deriving Repr, Inhabited

namespace Tree

/-- The tree without nodes. -/
def empty : Tree := ⟨none, .empty, .empty, none⟩

/-- The pairs of origin and identity of some nodes, as a provenance index. -/
def indexOf (ns : List Node) : OrderedMap NodeId NodeId :=
  .ofList (ns.map fun n => (n.origin, n.id))

/-- A nameless tree over a registry, with the index the registry calls for. -/
def ofRegistry (nodes : OrderedMap NodeId Node) (root : Option NodeId) : Tree :=
  ⟨none, nodes, indexOf nodes.values, root⟩

/-- A tree of the single node `id`. -/
def leaf (id : NodeId) (rule label : String) : Tree :=
  ofRegistry ⟨[(id, .fresh id rule label)]⟩ (some id)

/-- Gives the tree a name, in place of any it had. -/
def withName (t : Tree) (name : String) : Tree := { t with name := some name }

/-- The number of nodes. -/
def size (t : Tree) : Nat := t.nodes.size

/-- Whether the tree has no nodes. -/
def isEmpty (t : Tree) : Bool := t.nodes.isEmpty

/-- The identities of all nodes, in order of arrival. -/
def nodeIds (t : Tree) : List NodeId := t.nodes.keys

/-- All nodes, in order of arrival. -/
def nodeList (t : Tree) : List Node := t.nodes.values

/-- The nodes without children, in order of arrival. -/
def leaves (t : Tree) : List Node := t.nodeList.filter Node.isLeaf

/-- The live node of an identity. -/
def node? (t : Tree) (id : NodeId) : Option Node := t.nodes.get? id

/-- Whether an identity names a live node of this tree. -/
def contains (t : Tree) (id : NodeId) : Bool := t.nodes.contains id

/-- The root node. -/
def rootNode? (t : Tree) : Option Node := t.root.bind t.node?

/-- The root node, or the error that there is none. -/
def rootNode (t : Tree) : Except TreeError Node :=
  match t.rootNode? with
  | some n => .ok n
  | none => .error .emptyTree

/-- The parent of a node. -/
def parentOf (t : Tree) (id : NodeId) : Option Node :=
  (t.node? id).bind fun n => n.parent.bind t.node?

/-- The children of a node from left to right. -/
def childrenOf (t : Tree) (id : NodeId) : List Node :=
  match t.node? id with
  | some n => n.children.filterMap t.node?
  | none => []

/-- The child of a node at a position, counted from zero. -/
def childOf (t : Tree) (id : NodeId) (i : Nat) : Option Node :=
  (t.node? id).bind fun n => (n.child? i).bind t.node?

/-- The node reached from the root by a path of child positions. -/
def atPath? (t : Tree) (path : List Nat) : Option NodeId :=
  path.foldl (fun here i => here.bind fun id => (t.node? id).bind (·.child? i)) t.root

/-- The identity at a place in the order of arrival, counted from zero. -/
def atPlace? (t : Tree) (i : Nat) : Option NodeId := t.nodeIds[i]?

end Tree

end SyntaxTree
