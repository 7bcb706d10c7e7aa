/-
SyntaxTree/Evaluation.lean

Bottom-up evaluation of a tree.  An evaluation visits every node once, children before
their parent, and lets a scheme work on each; the scheme has a state of its own and
shares a cache of values with the evaluation, so that it finds the values of the
children when it comes to their parent.

An evaluation is run once.  Only after that can its result, its cache and the order of
its visits be read; anything asked for at another time is refused, and a refusal changes
nothing.  Whether the single visits are reported makes no difference to what is computed.
-/
import SyntaxTree.Evaluation.Cache
import SyntaxTree.LogEntry
import SyntaxTree.Tree.Walk

namespace SyntaxTree

/-- What to compute on a tree: a state `σ`, cached values `ν` and a result `ρ`. -/
structure Scheme (σ ν ρ : Type) where
  /-- Prepares state and cache before the first visit. -/
  prepare : Tree → σ → Cache ν → σ × Cache ν
  /-- Works on a node whose children have been worked on. -/
  visit : Tree → Node → σ → Cache ν → σ × Cache ν
  /-- The result, from what the visits left. -/
  result : Tree → σ → Cache ν → ρ

/-- How an evaluation is to be run. -/
structure Evaluation.Config where
  /-- Whether every visit is reported. -/
  traced : Bool := false
deriving DecidableEq, Repr, Inhabited

namespace Evaluation.Config

/-- Only the beginning and the end of the run are reported. -/
def standard : Config := {}

/-- Every visit is reported as well. -/
def tracing : Config := { traced := true }

end Evaluation.Config

/-- A scheme at work on a tree. -/
structure Evaluation (σ ν ρ : Type) where
  tree : Tree
  scheme : Scheme σ ν ρ
  /-- The state of the scheme. -/
  state : σ
  cache : Cache ν
  phase : Phase
  /-- The nodes visited so far, in order. -/
  visits : List NodeId
  config : Evaluation.Config

namespace Evaluation

variable {σ ν ρ : Type}

/-- An evaluation that has not been run. -/
def start (tree : Tree) (scheme : Scheme σ ν ρ) (state : σ) (config : Config) :
    Evaluation σ ν ρ :=
  { tree, scheme, state, cache := .empty, phase := .uninitialized, visits := [], config }

/-- The nodes in the order in which they are visited. -/
def agenda (t : Tree) : List Node := t.postOrder.filterMap t.node?

/-- Lets the scheme prepare. -/
def prepared (e : Evaluation σ ν ρ) : Evaluation σ ν ρ :=
  let (state, cache) := e.scheme.prepare e.tree e.state e.cache
  { e with state, cache, phase := .processing }

/-- Lets the scheme work on a node. -/
def visited (e : Evaluation σ ν ρ) (n : Node) : Evaluation σ ν ρ :=
  let (state, cache) := e.scheme.visit e.tree n e.state e.cache
  { e with state, cache, visits := e.visits ++ [n.id] }

/-- The evaluation after a run, whatever its phase. -/
def completed (e : Evaluation σ ν ρ) : Evaluation σ ν ρ :=
  { (agenda e.tree).foldl visited e.prepared with phase := .done }

/-- The report of a run. -/
def report (e : Evaluation σ ν ρ) : List LogEntry :=
  let after := e.completed
  let visits := if e.config.traced then (agenda e.tree).map fun n => .visited n.id n.rule else []
  .runStarted e.tree.size :: visits ++ [.runFinished after.visits.length after.cache.size]

/-- Runs an evaluation that has not been run. -/
def run (e : Evaluation σ ν ρ) : Except TreeError (Evaluation σ ν ρ) :=
  match e.phase with
  | .uninitialized => .ok e.completed
  | phase => .error (.illegalWorkflow .run phase)

/-- Answers a request if the evaluation has been run. -/
def whenDone {α : Type} (e : Evaluation σ ν ρ) (request : Request) (answer : α) :
    Except TreeError α :=
  match e.phase with
  | .done => .ok answer
  | phase => .error (.illegalWorkflow request phase)

/-- The result of the scheme. -/
def readResult (e : Evaluation σ ν ρ) : Except TreeError ρ :=
  e.whenDone .readResult (e.scheme.result e.tree e.state e.cache)

/-- The filled cache. -/
def readCache (e : Evaluation σ ν ρ) : Except TreeError (Cache ν) := e.whenDone .readCache e.cache

/-- The nodes in the order in which they were visited. -/
def readVisits (e : Evaluation σ ν ρ) : Except TreeError (List NodeId) :=
  e.whenDone .readVisitOrder e.visits

/-- Gives up the evaluation for its cache. -/
def takeCache (e : Evaluation σ ν ρ) : Except TreeError (Cache ν) := e.whenDone .takeCache e.cache

end Evaluation

/-- The result of a scheme on a tree. -/
def Tree.evaluate {σ ν ρ : Type} (t : Tree) (scheme : Scheme σ ν ρ) (state : σ) :
    Except TreeError ρ := do
  (← (Evaluation.start t scheme state .standard).run).readResult

end SyntaxTree
