/-
SyntaxTree/Forest/Locator.lean

Ways to point at a node in a session: by an identity that has been met, by the path from
the root, by its place in the order of arrival, or so within another tree.  The numbers
in a locator may be any integers; a negative one leads astray.
-/
import SyntaxTree.Forest.Session

namespace SyntaxTree

/-- A way to point at a node. -/
inductive Locator where
  /-- The node of some identity. -/
  | id (number : Int)
  /-- The node reached from the root by child positions. -/
  | path (positions : List Int)
  /-- The node at a place in the order of arrival. -/
  | place (index : Int)
  /-- The node that another locator points at in the tree of some name. -/
  | inside (tree : String) (locator : Locator)
deriving Repr, Inhabited

namespace Locator

/-- The identity that no node has: counting begins above it. -/
def nowhere : NodeId := ⟨0⟩

/-- The identity of some number, if it has been met. -/
def known? (s : Session) (number : Int) : Option NodeId :=
  (number.toNat?.map NodeId.mk).filter s.knows

/-- The identity a locator leads to from a tree of a session's forest, which is `nowhere` for a
locator that leads astray and for an identity never met; `none` if it goes through a tree that
does not exist. -/
def resolve (s : Session) (t : Tree) : Locator → Option NodeId
  | .id number => some ((known? s number).getD nowhere)
  | .path positions => some (((positions.mapM Int.toNat?).bind t.atPath?).getD nowhere)
  | .place index => some ((index.toNat?.bind t.atPlace?).getD nowhere)
  | .inside tree locator =>
    match s.forest.tree? tree with
    | some t => resolve s t locator
    | none => none

end Locator

end SyntaxTree
