/-
SyntaxTree/LogEntry.lean

The diary of a library of trees: what it reports about a successful construction, cut,
graft or evaluation.  An operation hands its entries back as data; one that is refused
has none to hand back.
-/
import SyntaxTree.Node

namespace SyntaxTree

/-- How much detail an entry carries. -/
inductive LogLevel where
  | debug
  | trace
deriving DecidableEq, Repr, Inhabited

/-- The word for a level. -/
def LogLevel.text : LogLevel → String
  | .debug => "DEBUG"
  | .trace => "TRACE"

/-- One report. -/
inductive LogEntry where
  /-- A stream of events became a tree of so many nodes. -/
  | built (nodes : Nat)
  /-- The subtree at `node` was cut out. -/
  | removed (node : NodeId) (removed remaining : Nat)
  /-- The subtree at `node` was replaced. -/
  | replaced (node : NodeId) (removed added : Nat)
  /-- An evaluation of a tree of so many nodes began. -/
  | runStarted (nodes : Nat)
  /-- An evaluation came to a node. -/
  | visited (node : NodeId) (rule : String)
  /-- An evaluation ended. -/
  | runFinished (visited cached : Nat)
deriving DecidableEq, Repr, Inhabited

namespace LogEntry

/-- Only the single visits are fine detail. -/
def level : LogEntry → LogLevel
  | .visited .. => .trace
  | _ => .debug

/-- The headline of an entry. -/
def message : LogEntry → String
  | .built .. => "built tree from event stream"
  | .removed .. => "removed subtree"
  | .replaced .. => "replaced subtree"
  | .runStarted .. => "starting bottom-up run"
  | .visited .. => "visit"
  | .runFinished .. => "finished bottom-up run"

/-- The named figures of an entry, as texts. -/
def fields : LogEntry → List (String × String)
  | .built nodes => [("nodes", toString nodes)]
  | .removed node gone left =>
    [("node", node.text), ("removed", toString gone), ("remaining", toString left)]
  | .replaced node gone added =>
    [("node", node.text), ("removed", toString gone), ("added", toString added)]
  | .runStarted nodes => [("nodes", toString nodes)]
  | .visited node rule => [("node", node.text), ("rule", rule)]
  | .runFinished seen cached => [("visited", toString seen), ("cached", toString cached)]

end LogEntry

end SyntaxTree
