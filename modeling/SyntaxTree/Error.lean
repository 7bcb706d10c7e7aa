/-
SyntaxTree/Error.lean

Everything that can go wrong with a tree, as causes.  The wording stands in
`TreeError.message` alone.
-/
import SyntaxTree.Node
import SyntaxTree.Evaluation.Phase

namespace SyntaxTree

/-- What is wrong with a stream of events. -/
inductive StreamFault where
  /-- An exit came while no node was open. -/
  | unmatchedExit
  /-- A second node was opened at top level. -/
  | secondRoot
  /-- The stream ended while `count` nodes were open. -/
  | unclosed (count : Nat)
  /-- A fault found by some other producer of events, in its own words. -/
  | stated (reason : String)
deriving DecidableEq, Repr, Inhabited

/-- The reason given for a fault. -/
def StreamFault.reason : StreamFault → String
  | .unmatchedExit => "exit without a matching enter"
  | .secondRoot => "enter after the root node was closed"
  | .unclosed count => toString count ++ " node(s) still open at end of stream"
  | .stated reason => reason

/-- Why an operation on trees was refused. -/
inductive TreeError where
  /-- The events do not form a tree; `position` counts the events before the offending one. -/
  | malformedStream (position : Nat) (fault : StreamFault)
  /-- A node was needed of a tree that has none. -/
  | emptyTree
  /-- No live node has the origin of the candidate's root; an empty candidate has no origin. -/
  | notFound (origin : Option NodeId)
  /-- An evaluation was asked for something at the wrong time. -/
  | illegalWorkflow (request : Request) (phase : Phase)
deriving DecidableEq, Repr, Inhabited

/-- The text of an error. -/
def TreeError.message : TreeError → String
  | .malformedStream position fault =>
    "Malformed event stream at event " ++ toString position ++ ": " ++ fault.reason
  | .emptyTree => "Tree is empty"
  | .notFound none => "No live node corresponds to an empty subtree"
  | .notFound (some origin) => "No live node corresponds to subtree with origin " ++ origin.text
  | .illegalWorkflow request phase =>
    "Illegal workflow: cannot " ++ request.text ++ " while processor is " ++ phase.text

end SyntaxTree
