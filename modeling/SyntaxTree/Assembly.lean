/-
SyntaxTree/Assembly.lean

From a stream of events to a tree.  An assembly reads events one at a time and keeps the
nodes entered so far, the path of nodes still open, and how many events it has seen.

An exit without an open node is refused at once and changes nothing but the count, so
the assembly stays usable.  A second node at top level is accepted as it comes, is
remembered by the position of the first such event, and makes `finish` fail; so do nodes
left open.
-/
import SyntaxTree.Event
import SyntaxTree.LogEntry
import SyntaxTree.Tree

namespace SyntaxTree

/-- A tree in the making. -/
structure Assembly where
  /-- The identity the next node will get. -/
  next : NodeId
  /-- The nodes entered so far. -/
  nodes : OrderedMap NodeId Node
  /-- The nodes still open, innermost first. -/
  opened : List NodeId
  /-- The first node entered at top level. -/
  root : Option NodeId
  /-- The number of events seen. -/
  position : Nat
  /-- The position of the first event that opened a second top-level node. -/
  overflow : Option Nat
deriving Repr, Inhabited

namespace Assembly

/-- An assembly that has seen no event. -/
def start (next : NodeId) : Assembly := ⟨next, .empty, [], none, 0, none⟩

/-- The number of nodes still open. -/
def depth (a : Assembly) : Nat := a.opened.length

/-- Opens a node, whose identity is `a.next`. -/
def enter (a : Assembly) (rule label : String) : Assembly :=
  let id := a.next
  let node := { Node.fresh id rule label with parent := a.opened.head? }
  let nodes := match a.opened.head? with
    | some p => a.nodes.modify p fun n => { n with children := n.children ++ [id] }
    | none => a.nodes
  { next := id.shift 1
    nodes := nodes.insert id node
    opened := id :: a.opened
    root := a.root.or (some id)
    position := a.position + 1
    overflow :=
      if a.opened.isEmpty && a.root.isSome then a.overflow.or (some a.position) else a.overflow }

/-- Closes the innermost open node. -/
def exit (a : Assembly) : Except TreeError Unit × Assembly :=
  let counted := { a with position := a.position + 1 }
  match a.opened with
  | [] => (.error (.malformedStream a.position .unmatchedExit), counted)
  | _ :: rest => (.ok (), { counted with opened := rest })

/-- Takes in one event. -/
def apply (a : Assembly) : Event → Except TreeError Unit × Assembly
  | .enter rule label => (.ok (), a.enter rule label)
  | .exit => a.exit

/-- Takes in events until one is refused. -/
def applyAll (a : Assembly) : List Event → Except TreeError Unit × Assembly
  | [] => (.ok (), a)
  | e :: es =>
    match a.apply e with
    | (.ok (), b) => b.applyAll es
    | (.error err, b) => (.error err, b)

/-- The finished tree, if there was at most one top-level node and none is open. -/
def finish (a : Assembly) : Except TreeError Tree :=
  match a.overflow with
  | some position => .error (.malformedStream position .secondRoot)
  | none =>
    if a.opened.isEmpty then .ok (Tree.ofRegistry a.nodes a.root)
    else .error (.malformedStream a.position (.unclosed a.opened.length))

end Assembly

/-- The report of a tree finished from events. -/
def Tree.builtEntry (t : Tree) : LogEntry := .built t.size

/-- The tree a stream of events describes, its nodes numbered from `next` on, and the first
identity left unused. A stream that is refused has used up the identities of the nodes
entered before the refusal. -/
def Tree.ofEvents (events : List Event) (next : NodeId) : Except TreeError Tree × NodeId :=
  match (Assembly.start next).applyAll events with
  | (.ok (), a) => (a.finish, a.next)
  | (.error err, a) => (.error err, a.next)

end SyntaxTree
