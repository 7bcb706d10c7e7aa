/-
SyntaxTree/Forest/Session.lean

A forest in use.  Whoever works with it learns of identities from the trees that
commands answer with, and can speak of a node only after having met it.  An identity
that was used up by a refused stream of events is never met, since no tree ever held it.
-/
import SyntaxTree.Forest

namespace SyntaxTree

/-- A forest and the identities its user has met. -/
structure Session where
  forest : Forest
  /-- The identities met so far, in no particular order. -/
  met : List NodeId

namespace Session

/-- A session with a forest without trees. -/
def start : Session := ⟨.bare, []⟩

/-- The new identities that an answer brings to light: those at or above `next`, the first that
was free before. -/
def introduced (next : NodeId) (answer : Answer) : List NodeId :=
  (answer.trees.flatMap Tree.nodeIds).filter fun id => next ≤ id

/-- The session after an effect on its forest. -/
def after (s : Session) (e : Forest.Effect) : Session :=
  ⟨e.forest, introduced s.forest.next e.answer ++ s.met⟩

/-- Whether an identity has been met. -/
def knows (s : Session) (id : NodeId) : Bool := s.met.contains id

end Session

end SyntaxTree
