/-
SyntaxTree/Event.lean

Construction events.  A parser reports every rule it enters and leaves; the stream of
these reports is the written form of a tree, a depth-first walk round it.
-/
namespace SyntaxTree

/-- One step of a walk round a tree. -/
inductive Event where
  /-- Opens a node as the next child of the innermost open one. -/
  | enter (rule label : String)
  /-- Closes the innermost open node. -/
  | exit
deriving DecidableEq, Repr, Inhabited

end SyntaxTree
