/-
SyntaxTree/Evaluation/Schemes.lean

Schemes over text values: measures of a tree, records of the order in which it is
visited, sums written in it, and its terms.  All share one kind of state, a `Tally`,
which counts the preparations, keeps a clock and lists what was seen.

The preparation counter is part of every scheme; each scheme says what else it does.
-/
import SyntaxTree.Evaluation

namespace SyntaxTree

namespace Schemes

/-- Something a scheme takes note of. -/
inductive Sighting where
  | label (text : String)
  /-- Whether a value was handed up. -/
  | handedUp (done : Bool)
deriving DecidableEq, Repr

/-- The state of a scheme. -/
structure Tally where
  /-- How often the scheme was asked to prepare. -/
  prepared : Nat
  /-- The clock, which some schemes advance. -/
  clock : Nat
  /-- What was seen, in order. -/
  seen : List Sighting
deriving DecidableEq, Repr

/-- Nothing counted and nothing seen. -/
def Tally.zero : Tally := ⟨0, 0, []⟩

/-- Takes note of something. -/
def Tally.note (s : Tally) (x : Sighting) : Tally := { s with seen := s.seen ++ [x] }

/-- Advances the clock. -/
def Tally.tick (s : Tally) : Tally := { s with clock := s.clock + 1 }

/-- The result of a scheme: a value, if there is one, or the list of what was seen. -/
inductive Finding where
  | value (text : Option String)
  | sightings (seen : List Sighting)
deriving DecidableEq, Repr

/-- A scheme with a text for every node. -/
abbrev TextScheme := Scheme Tally String Finding

/-- The finding of most schemes: the value of the root. -/
def rootValue (t : Tree) (c : Cache String) : Finding := .value (t.root.bind c.get?)

/-- Seeds the cache with a value for each of some nodes. -/
def seed (ns : List Node) (value : Node → String) (c : Cache String) : Cache String :=
  ns.foldl (fun c n => c.insert n.id (value n)) c

/-- A scheme that seeds the cache, gives nodes their values from the cache, and answers with
the value of the root. -/
def cacheOnly (prepare : Tree → Cache String → Cache String)
    (visit : Node → Cache String → Cache String) : TextScheme where
  prepare t s c := ({ s with prepared := s.prepared + 1 }, prepare t c)
  visit _ n s c := (s, visit n c)
  result t _ c := rootValue t c

/-- The numbers cached for the children of a node. -/
def childNumbers (c : Cache String) (n : Node) : List Nat :=
  (c.childValues n).filterMap String.toNat?

/-- The number of nodes of every subtree. -/
def size : TextScheme :=
  cacheOnly (fun _ c => c) fun n c => c.insert n.id (toString (1 + (childNumbers c n).foldl Nat.add 0))

/-- The number of nodes on the longest way down from every node. -/
def height : TextScheme :=
  cacheOnly (fun _ c => c) fun n c =>
    c.insert n.id (toString (1 + (childNumbers c n).foldl max 0))

/-- Notes the labels in the order of the visits. -/
def record : TextScheme where
  prepare _ s c := ({ s with prepared := s.prepared + 1 }, c)
  visit _ n s c := (s.note (.label n.label), c.insert n.id "")
  result _ s _ := .sightings s.seen

/-- Stamps every node with the time of its visit; preparing takes one unit of time too. -/
def stamps : TextScheme where
  prepare _ s c := ({ s with prepared := s.prepared + 1 }.tick, c)
  visit _ n s c := (s.tick, c.insert n.id (toString s.clock))
  result _ s _ := .value (some (toString s.clock))

/-- Hands values up along single children and notes whether there was one; a leaf then has
its label, if that is not empty. -/
def propagation : TextScheme where
  prepare _ s c := ({ s with prepared := s.prepared + 1 }, c)
  visit _ n s c :=
    let (done, c) := c.propagate n
    (s.note (.handedUp done), if n.isLeaf ∧ n.label ≠ "" then c.insert n.id n.label else c)
  result _ s _ := .sightings s.seen

/-- Takes the values of some nodes out of the cache: the values there were, and the cache
without them. -/
def takeEach (c : Cache String) : List NodeId → List String × Cache String
  | [] => ([], c)
  | id :: ids =>
    let (value, c) := c.take id
    let (values, c) := takeEach c ids
    (value.toList ++ values, c)

/-- Gathers a term: a leaf is its label, and an inner node is its rule applied to the terms
of its children, which are given up for it. -/
def fold : TextScheme :=
  cacheOnly (fun t c => seed t.leaves Node.label c) fun n c =>
    if n.isLeaf then c
    else
      let (values, c) := takeEach c n.children
      c.insert n.id (n.rule ++ "(" ++ ",".intercalate values ++ ")")

/-- Appends the label of every node to the value of its parent. -/
def append : TextScheme :=
  cacheOnly (fun t c => seed t.nodeList (fun _ => "") c) fun n c =>
    match n.parent with
    | some p => c.modify p fun value => value ++ n.label ++ ";"
    | none => c

/-- Does nothing with any node. -/
def idle : TextScheme := cacheOnly (fun _ c => c) fun _ c => c

/-! ### Sums -/

/-- The least integer of 64 bits. -/
def leastWord : Int := -9223372036854775808

/-- One more than the greatest integer of 64 bits. -/
def wordBound : Int := 9223372036854775808

/-- An integer, if it fits into 64 bits. -/
def word? (i : Int) : Option Int := if leastWord ≤ i ∧ i < wordBound then some i else none

/-- The number that decimal digits and nothing else denote. -/
def natural? (cs : List Char) : Option Nat :=
  if !cs.isEmpty && cs.all Char.isDigit then
    some (cs.foldl (fun n c => n * 10 + (c.toNat - '0'.toNat)) 0)
  else none

/-- The integer of 64 bits that a text denotes: at most one sign, then digits. -/
def integer? (text : String) : Option Int :=
  match text.toList with
  | '-' :: cs => do word? (-(← natural? cs : Nat))
  | '+' :: cs => do word? (← natural? cs : Nat)
  | cs => do word? (← natural? cs : Nat)

/-- The value of a binary operation: a sum, a difference, or zero if the operator is neither. -/
def operate (operator : String) (a b : Int) : Option Int :=
  if operator = "+" then word? (a + b)
  else if operator = "-" then word? (a - b)
  else some 0

/-- The value of an expression from those of its first three children, of which the middle
one is the operator. -/
def expressionValue? (c : Cache String) (n : Node) : Option Int := do
  let left ← (n.child? 0).bind c.get?
  let operator ← (n.child? 1).bind c.get?
  let right ← (n.child? 2).bind c.get?
  operate operator (← integer? left) (← integer? right)

/-- Computes sums and differences: every node begins with its label, an expression gets its
value, and every other node that of its only child. -/
def arithmetic : TextScheme :=
  cacheOnly (fun t c => seed t.nodeList Node.label c) fun n c =>
    if n.rule = "expression" then
      c.insert n.id ((expressionValue? c n).elim "error" toString)
    else (c.propagate n).2

end Schemes

end SyntaxTree
