/-
SyntaxTree/Forest.lean

Named trees that share one counter of identities, and the operations on them as
commands.  A command works on a tree under its name and may store what it makes under
another; storing overwrites.

A command that is refused leaves every tree as it was.  It leaves the counter as it was
too, except for a stream of events: the identities of the nodes entered before the
refusal are used up.
-/
import SyntaxTree.Assembly
import SyntaxTree.Tree.Surgery

namespace SyntaxTree

/-- Named trees and the next free identity. -/
structure Forest where
  /-- The identity the next node will get. -/
  next : NodeId
  /-- The trees under their names. -/
  trees : OrderedMap String Tree

/-- An operation on the trees of a forest. The result is stored under the name `dest`; where
that is missing, it is only answered. -/
inductive Command where
  /-- Makes a tree without nodes. -/
  | makeEmpty (dest : String) (name : Option String)
  /-- Makes a tree of a single node. -/
  | makeLeaf (dest rule label : String) (name : Option String)
  /-- Makes a tree from events. -/
  | build (dest : String) (events : List Event) (name : Option String)
  /-- Copies a tree. -/
  | copy (dest source : String) (name : Option String)
  /-- Names a tree. -/
  | rename (tree name : String)
  /-- Copies the subtree at a node. -/
  | extract (tree : String) (id : NodeId) (dest : Option String)
  /-- Copies the subtrees at all nodes that pass a test; they are stored under numbered names. -/
  | findAll (tree : String) (p : Node → Bool) (dest : Option String)
  /-- Copies the subtrees at the outermost nodes that pass a test; they are stored under
  numbered names. -/
  | findOutermost (tree : String) (p : Node → Bool) (dest : Option String)
  /-- Cuts out the subtree that a candidate corresponds to. -/
  | remove (tree candidate : String) (dest : Option String)
  /-- Puts a copy of a tree in the place of the subtree that a candidate corresponds to. -/
  | replace (tree candidate graft : String)

/-- Why a command did not do what it says. -/
inductive Refusal where
  /-- A name was used under which there is no tree. -/
  | noSuchTree
  /-- The operation was refused. -/
  | cause (error : TreeError)
deriving DecidableEq, Repr

/-- What a command answers. -/
inductive Answer where
  /-- A tree that was made. -/
  | made (t : Tree)
  /-- The node to copy from is not live. -/
  | nothing
  /-- Trees that were found. -/
  | found (ts : List Tree)
  /-- The name that was given. -/
  | named (name : String)
  /-- A subtree that was cut out, or why not, and the tree afterwards. -/
  | removed (outcome : Except Refusal Tree) (after : Tree)
  /-- Whether a subtree was replaced, or why not, and the tree afterwards. -/
  | replaced (outcome : Except Refusal Unit) (after : Tree)
  /-- There is no tree to work on, or none was made. -/
  | refused (reason : Refusal)

/-- The trees an answer shows. -/
def Answer.trees : Answer → List Tree
  | .made t => [t]
  | .found ts => ts
  | .removed (.ok piece) after => [piece, after]
  | .removed (.error _) after => [after]
  | .replaced _ after => [after]
  | .nothing => []
  | .named _ => []
  | .refused _ => []

namespace Forest

/-- The forest without trees. -/
def bare : Forest := ⟨⟨1⟩, .empty⟩

/-- The tree of some name. -/
def tree? (f : Forest) (name : String) : Option Tree := f.trees.get? name

/-- Stores a tree under a name. -/
def store (f : Forest) (name : String) (t : Tree) : Forest :=
  { f with trees := f.trees.insert name t }

/-- Stores a tree under a name, if there is one. -/
def storeAs (f : Forest) (name : Option String) (t : Tree) : Forest :=
  match name with
  | some name => f.store name t
  | none => f

/-- Stores trees under a name followed by `i`, `i + 1` and so on. -/
def storeFrom (f : Forest) (name : String) (i : Nat) : List Tree → Forest
  | [] => f
  | t :: ts => (f.store (name ++ toString i) t).storeFrom name (i + 1) ts

/-- Stores trees under a numbered name, if there is one. -/
def storeAllAs (f : Forest) (name : Option String) (ts : List Tree) : Forest :=
  match name with
  | some name => f.storeFrom name 0 ts
  | none => f

/-- The forest with another next identity. -/
def advance (f : Forest) (next : NodeId) : Forest := { f with next }

/-- The effect of a command: its answer, the forest afterwards, and what it reports. -/
structure Effect where
  answer : Answer
  forest : Forest
  log : List LogEntry

/-- An effect that changes and reports nothing. -/
def unchanged (f : Forest) (answer : Answer) : Effect := ⟨answer, f, []⟩

/-- The effect of a command on a tree that does not exist. -/
def missing (f : Forest) : Effect := f.unchanged (.refused .noSuchTree)

/-- Gives a new tree its name, stores and answers it. -/
def deliver (f : Forest) (dest : String) (t : Tree) (name : Option String) (log : List LogEntry) :
    Effect :=
  let t := name.elim t t.withName
  ⟨.made t, f.store dest t, log⟩

/-- Makes a tree from events. -/
def build (f : Forest) (dest : String) (events : List Event) (name : Option String) : Effect :=
  match Tree.ofEvents events f.next with
  | (.ok t, next) => (f.advance next).deliver dest t name [t.builtEntry]
  | (.error e, next) => ⟨.refused (.cause e), f.advance next, []⟩

/-- Copies a tree. -/
def copy (f : Forest) (dest : String) (source : Tree) (name : Option String) : Effect :=
  let t := source.copyOf f.next
  (f.advance (f.next.shift t.size)).deliver dest t name []

/-- Copies the subtree at a node. -/
def extract (f : Forest) (t : Tree) (id : NodeId) (dest : Option String) : Effect :=
  match t.extract id f.next with
  | some piece => ⟨.made piece, (f.advance (f.next.shift piece.size)).storeAs dest piece, []⟩
  | none => f.unchanged .nothing

/-- Stores and answers trees that were found. -/
def deliverAll (f : Forest) (found : List Tree × NodeId) (dest : Option String) : Effect :=
  ⟨.found found.1, (f.advance found.2).storeAllAs dest found.1, []⟩

/-- Cuts out the subtree that a candidate corresponds to. -/
def remove (f : Forest) (name : String) (t candidate : Tree) (dest : Option String) : Effect :=
  match t.remove candidate with
  | .ok r => ⟨.removed (.ok r.removed) r.rest, (f.store name r.rest).storeAs dest r.removed,
      [r.logEntry]⟩
  | .error e => f.unchanged (.removed (.error (.cause e)) t)

/-- Puts a copy of a tree in the place of the subtree that a candidate corresponds to. -/
def replace (f : Forest) (name : String) (t candidate graft : Tree) : Effect :=
  match t.replace candidate graft f.next with
  | .ok r => ⟨.replaced (.ok ()) r.result,
      (f.advance (f.next.shift r.added)).store name r.result, [r.logEntry]⟩
  | .error e => f.unchanged (.replaced (.error (.cause e)) t)

/-- Carries out a command. -/
def step (f : Forest) : Command → Effect
  | .makeEmpty dest name => f.deliver dest .empty name []
  | .makeLeaf dest rule label name =>
    (f.advance (f.next.shift 1)).deliver dest (.leaf f.next rule label) name []
  | .build dest events name => f.build dest events name
  | .copy dest source name =>
    match f.tree? source with
    | some t => f.copy dest t name
    | none => f.missing
  | .rename tree name =>
    match f.tree? tree with
    | some t => ⟨.named name, f.store tree (t.withName name), []⟩
    | none => f.missing
  | .extract tree id dest =>
    match f.tree? tree with
    | some t => f.extract t id dest
    | none => f.missing
  | .findAll tree p dest =>
    match f.tree? tree with
    | some t => f.deliverAll (t.findAll p f.next) dest
    | none => f.missing
  | .findOutermost tree p dest =>
    match f.tree? tree with
    | some t => f.deliverAll (t.findOutermost p f.next) dest
    | none => f.missing
  | .remove tree candidate dest =>
    match f.tree? tree, f.tree? candidate with
    | some t, some c => f.remove tree t c dest
    | some t, none => f.unchanged (.removed (.error .noSuchTree) t)
    | none, _ => f.missing
  | .replace tree candidate graft =>
    match f.tree? tree, f.tree? candidate, f.tree? graft with
    | some t, some c, some r => f.replace tree t c r
    | some t, _, _ => f.unchanged (.replaced (.error .noSuchTree) t)
    | none, _, _ => f.missing

/-- The forest after commands carried out one after another. -/
def run (f : Forest) (commands : List Command) : Forest :=
  commands.foldl (fun f c => (f.step c).forest) f

end Forest

end SyntaxTree
