/-
SyntaxTree/Node.lean

The vertices of syntax trees.  A node has an identity of its own, the grammar rule it
was produced by, the text it covers, and its place in a tree given by the identities of
its parent and its children.  Its `origin` is the identity under which it was first
created: copies receive a new identity and keep the origin, and that is how a piece cut
out of a tree is recognised in the tree it came from.

Identities are numbered from one counter.  An operation that creates nodes takes the
next free identity and hands back the first one it left unused; `NodeId.block` is the
run of identities it used up.
-/
namespace SyntaxTree

/-- The identity of a node. Two identities are equal only if they name the same vertex. -/
structure NodeId where
  /-- The number of the identity. -/
  val : Nat
deriving DecidableEq, Repr, Hashable, Inhabited

namespace NodeId

instance : LT NodeId := ⟨fun a b => a.val < b.val⟩
instance : LE NodeId := ⟨fun a b => a.val ≤ b.val⟩
instance (a b : NodeId) : Decidable (a < b) := inferInstanceAs (Decidable (a.val < b.val))
instance (a b : NodeId) : Decidable (a ≤ b) := inferInstanceAs (Decidable (a.val ≤ b.val))
instance : Ord NodeId := ⟨fun a b => compare a.val b.val⟩

/-- The decimal text of an identity. -/
def text (id : NodeId) : String := toString id.val

/-- The identity `k` places further on. -/
def shift (id : NodeId) (k : Nat) : NodeId := ⟨id.val + k⟩

/-- The `k` consecutive identities from `first` on. -/
def block (first : NodeId) (k : Nat) : List NodeId := (List.range k).map first.shift

theorem length_block (first : NodeId) (k : Nat) : (first.block k).length = k := by
  simp [block]

theorem mem_block {first id : NodeId} {k : Nat} :
    id ∈ first.block k ↔ first ≤ id ∧ id < first.shift k := by
  obtain ⟨a⟩ := first
  obtain ⟨b⟩ := id
  simp only [block, shift, List.mem_map, List.mem_range, NodeId.mk.injEq]
  refine ⟨?_, ?_⟩
  · rintro ⟨i, hi, rfl⟩
    exact ⟨Nat.le_add_right a i, Nat.add_lt_add_left hi a⟩
  · rintro ⟨hab, hb⟩
    have hab' : a ≤ b := hab
    have hb' : b < a + k := hb
    exact ⟨b - a, by omega, by omega⟩

end NodeId

/-- A vertex of a syntax tree. -/
structure Node where
  /-- The identity of this vertex. -/
  id : NodeId
  /-- The identity under which the vertex, or the vertex it is a copy of, was created. -/
  origin : NodeId
  /-- The name of the grammar rule. -/
  rule : String
  /-- The text the rule matched. -/
  label : String
  /-- The identity of the parent; a root has none. -/
  parent : Option NodeId
  /-- The identities of the children from left to right. -/
  children : List NodeId
deriving DecidableEq, Repr, Inhabited

namespace Node

/-- A detached vertex without children that is its own origin. -/
def fresh (id : NodeId) (rule label : String) : Node :=
  { id, origin := id, rule, label, parent := none, children := [] }

/-- Two nodes are the same vertex if their identities agree, whatever else they hold. -/
def same (a b : Node) : Bool := a.id == b.id

/-- A hash that looks at the identity only, as `same` does. -/
def identityHash (n : Node) : UInt64 := hash n.id

/-- Whether the node has no parent. -/
def isRoot (n : Node) : Bool := n.parent.isNone

/-- Whether the node has no children. -/
def isLeaf (n : Node) : Bool := n.children.isEmpty

/-- Whether the node was created under its present identity. -/
def isOwnOrigin (n : Node) : Bool := n.origin == n.id

/-- The child at a position, counted from zero. -/
def child? (n : Node) (i : Nat) : Option NodeId := n.children[i]?

/-- The leftmost child. -/
def firstChild? (n : Node) : Option NodeId := n.children.head?

/-- The rightmost child. -/
def lastChild? (n : Node) : Option NodeId := n.children.getLast?

end Node

end SyntaxTree
