/-
SyntaxTree/Evaluation/Phase.lean

The life of an evaluation: it is created, runs once, and can be read afterwards.  What
is asked of it at the wrong time is a `Request`, named in the error it raises.
-/
namespace SyntaxTree

/-- How far an evaluation has come. -/
inductive Phase where
  /-- Created and not yet run. -/
  | uninitialized
  /-- In the middle of its run. -/
  | processing
  /-- Run to the end, so that its results can be read. -/
  | done
deriving DecidableEq, Repr, Inhabited

/-- The word for a phase. -/
def Phase.text : Phase → String
  | .uninitialized => "uninitialized"
  | .processing => "processing"
  | .done => "done"

/-- What a caller may ask of an evaluation at the wrong time. -/
inductive Request where
  | run
  | readResult
  | readCache
  | readVisitOrder
  | takeCache
  /-- A request of some other kind, in words that complete "cannot …". -/
  | other (words : String)
deriving DecidableEq, Repr, Inhabited

/-- The words for a request, which complete "cannot …". -/
def Request.text : Request → String
  | .run => "run"
  | .readResult => "read the result"
  | .readCache => "read the cache"
  | .readVisitOrder => "read the visit order"
  | .takeCache => "take the cache"
  | .other words => words

end SyntaxTree
