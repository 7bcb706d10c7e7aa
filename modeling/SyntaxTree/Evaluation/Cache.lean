/-
SyntaxTree/Evaluation/Cache.lean

The value cache of an evaluation: at most one value per node, listed in the order in
which the nodes first received one.  Operations that hand something back answer with it
and the cache afterwards.
-/
import SyntaxTree.Node
import SyntaxTree.OrderedMap

namespace SyntaxTree

/-- Values of nodes, in order of arrival. -/
abbrev Cache (ν : Type) := OrderedMap NodeId ν

namespace Cache

variable {ν : Type}

/-- Stores a value, and hands back the one that stood there before. -/
def store (c : Cache ν) (id : NodeId) (v : ν) : Option ν × Cache ν := (c.get? id, c.insert id v)

/-- Drops a value, and hands it back. -/
def take (c : Cache ν) (id : NodeId) : Option ν × Cache ν := (c.get? id, c.erase id)

/-- Changes a value where it stands, and hands back the new one. -/
def update (c : Cache ν) (id : NodeId) (f : ν → ν) : Option ν × Cache ν :=
  ((c.get? id).map f, c.modify id f)

/-- Hands the value of an only child up to its parent, and says whether there was one to
hand up. A node with no child, or with several, is left alone. -/
def propagate (c : Cache ν) (n : Node) : Bool × Cache ν :=
  match n.children with
  | [child] =>
    match c.get? child with
    | some v => (true, c.insert n.id v)
    | none => (false, c)
  | _ => (false, c)

/-- The values of a node's children from left to right, without those that have none. -/
def childValues (c : Cache ν) (n : Node) : List ν := n.children.filterMap c.get?

end Cache

end SyntaxTree
